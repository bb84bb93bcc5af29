import Bindery.Proofs.Spread

/-! Two trees that have the same files and directories in the way of some places, and hold the same at
those of them that are read, whatever else they hold. What is read there is the same in both, a file
is put there in both or in neither, and then the trees agree on what it holds. -/

namespace Bindery.FileTree

variable {t t' : FileTree} {reads reads' places places' : Set Place}

/-- The trees have the same directories at the places and the same files above them, and hold the
same at those that are read. -/
structure Agree (reads places : Set Place) (t t' : FileTree) : Prop where
  sound : t.Sound
  sound' : t'.Sound
  content : ∀ p ∈ places, p ∈ reads → t'.content? p = t.content? p
  directory : ∀ p ∈ places, t'.hasDirectory p = t.hasDirectory p
  above : ∀ p ∈ places, ∀ q, IsAbove q p → t'.hasFile q = t.hasFile q

/-! What is missing is missed for the same reason: a file above it, or none. -/

/-- Names are not followed past a file. -/
theorem follow_names_cases (h : t.Sound) (p : Place) (names : List String)
    (hp : t.hasDirectory p = true) :
    let blocked := ∃ front, front ≠ [] ∧ front <+: names.dropLast ∧ t.hasFile (p ++ front) = true
    let found := t.follow p (names.map .name)
    blocked ∧ found = .error .notADirectory ∨
      ¬ blocked ∧ (found = .ok (p ++ names) ∨ found = .error .notFound) := by
  induction names generalizing p with
  | nil =>
    refine .inr ⟨?_, .inl (by rw [List.append_nil]; rfl)⟩
    rintro ⟨front, hne, hfront, -⟩
    exact hne (List.prefix_nil.1 hfront)
  | cons s names ih =>
    dsimp only
    rw [List.map_cons, follow, if_pos hp]
    rcases names with _ | ⟨s', names⟩
    · refine .inr ⟨?_, .inl rfl⟩
      rintro ⟨front, hne, hfront, -⟩
      exact hne (List.prefix_nil.1 hfront)
    · have hfront : ∀ front : List String, front ≠ [] → front <+: (s :: s' :: names).dropLast →
          ∃ rest, front = s :: rest ∧ rest <+: (s' :: names).dropLast := by
        intro front hne hfront
        obtain ⟨x, xs, rfl⟩ := List.exists_cons_of_ne_nil hne
        obtain ⟨rfl, hxs⟩ := List.cons_prefix_cons.1 hfront
        exact ⟨xs, rfl, hxs⟩
      cases hdir : t.hasDirectory (p ++ [s]) with
      | true =>
        have hnofile : t.hasFile (p ++ [s]) = false := by
          rw [Bool.eq_false_iff]
          intro hfile
          rw [h.apart _ hfile] at hdir
          cases hdir
        rcases ih (p ++ [s]) hdir with ⟨⟨front, hne, hprefix, hfile⟩, hfound⟩ | ⟨hnone, hfound⟩
        · refine .inl ⟨⟨s :: front, List.cons_ne_nil _ _,
            List.cons_prefix_cons.2 ⟨rfl, hprefix⟩, ?_⟩, hfound⟩
          rwa [List.append_assoc] at hfile
        · refine .inr ⟨?_, by rwa [List.append_assoc] at hfound⟩
          rintro ⟨front, hne, hprefix, hfile⟩
          obtain ⟨rest, rfl, hrest⟩ := hfront front hne hprefix
          rcases rest with _ | ⟨x, xs⟩
          · rw [hnofile] at hfile
            cases hfile
          · exact hnone ⟨x :: xs, List.cons_ne_nil _ _, hrest, by rwa [List.append_assoc]⟩
      | false =>
        have hstop : t.follow (p ++ [s]) ((s' :: names).map .name) =
            .error (if t.hasFile (p ++ [s]) = true then .notADirectory else .notFound) := by
          rw [List.map_cons, follow, if_neg (by rw [hdir]; exact Bool.false_ne_true)]
        rw [hstop]
        cases hfile : t.hasFile (p ++ [s]) with
        | true => exact .inl ⟨⟨[s], List.cons_ne_nil _ _, List.cons_prefix_cons.2
            ⟨rfl, List.nil_prefix⟩, hfile⟩, rfl⟩
        | false =>
          refine .inr ⟨?_, .inr rfl⟩
          rintro ⟨front, hne, hprefix, hfile'⟩
          obtain ⟨rest, rfl, -⟩ := hfront front hne hprefix
          rcases List.eq_nil_or_concat rest with rfl | ⟨init, last, rfl⟩
          · rw [hfile] at hfile'
            cases hfile'
          · have hparent := h.parents _ hfile'
            rw [List.concat_eq_append, ← List.cons_append, ← List.append_assoc,
              List.dropLast_concat] at hparent
            have habove := h.directories _ hparent (p ++ [s]) ⟨init, by simp⟩
            rw [hdir] at habove
            cases habove

/-- The result of reading a path with neither a file nor a directory in its place. -/
theorem read_of_missing (h : t.Sound) {path : Path} (hpath : path.IsNormal)
    (hfile : t.hasFile (placeOf path) = false) (hdir : t.hasDirectory (placeOf path) = false) :
    (∃ q, IsAbove q (placeOf path) ∧ t.hasFile q = true) ∧ t.read path = .error .notADirectory ∨
      (∀ q, IsAbove q (placeOf path) → t.hasFile q = false) ∧ t.read path = .error .notFound := by
  have hne : placeOf path ≠ [] := by
    intro hnil
    rw [hnil] at hdir
    cases hdir
  have hlocate : t.locate path = t.follow [] ((placeOf path).map .name) := by
    unfold locate
    rw [follow_components hpath, endsInDirectory_of_placeOf hpath hne]
    cases t.follow [] ((placeOf path).map .name) <;> rfl
  have hcontent : t.content? (placeOf path) = none := by simpa [hasFile] using hfile
  rcases follow_names_cases h [] (placeOf path) rfl with
    ⟨⟨front, hfront, hprefix, hblock⟩, hfound⟩ | ⟨hfree, hfound⟩
  · refine .inl ⟨⟨front, ⟨hfront, hprefix⟩, hblock⟩, ?_⟩
    unfold read
    rw [hlocate, hfound]
    rfl
  · refine .inr ⟨fun q hq => ?_, ?_⟩
    · rw [Bool.eq_false_iff]
      exact fun hblock => hfree ⟨q, hq.1, hq.2, hblock⟩
    · unfold read
      rw [hlocate]
      rcases hfound with hfound | hfound
      · rw [hfound]
        simp [bind, Except.bind, hcontent, hdir, throw, throwThe, MonadExceptOf.throw]
      · rw [hfound]
        rfl

namespace Agree

variable {path : Path}

theorem refl (h : t.Sound) (reads places : Set Place) : Agree reads places t t :=
  ⟨h, h, fun _ _ _ => rfl, fun _ _ => rfl, fun _ _ _ _ => rfl⟩

theorem mono (h : Agree reads places t t') (hreads : reads' ⊆ reads) (hplaces : places' ⊆ places) :
    Agree reads' places' t t' where
  sound := h.sound
  sound' := h.sound'
  content p hp hread := h.content p (hplaces hp) (hreads hread)
  directory p hp := h.directory p (hplaces hp)
  above p hp := h.above p (hplaces hp)

theorem isDirectory_eq (h : Agree reads places t t') (hpath : path.IsNormal)
    (hplace : placeOf path ∈ places) : t'.isDirectory path = t.isDirectory path := by
  rw [Bool.eq_iff_iff, isDirectory_iff h.sound' hpath, isDirectory_iff h.sound hpath,
    h.directory _ hplace]

section Read

variable (h : Agree reads places t t') (hread : placeOf path ∈ reads)
include h hread

theorem hasFile_eq (hplace : placeOf path ∈ places) :
    t'.hasFile (placeOf path) = t.hasFile (placeOf path) := by
  unfold FileTree.hasFile
  rw [h.content _ hplace hread]

theorem isFile_eq (hpath : path.IsNormal) (hplace : placeOf path ∈ places) :
    t'.isFile path = t.isFile path := by
  rw [Bool.eq_iff_iff, isFile_iff h.sound' hpath, isFile_iff h.sound hpath, h.hasFile_eq hread hplace]

theorem read_eq (hpath : path.IsNormal) (hplace : placeOf path ∈ places) :
    t'.read path = t.read path := by
  have hfile := h.hasFile_eq hread hplace
  have hdir := h.directory _ hplace
  have hcontent := h.content _ hplace hread
  cases hthere : t.hasFile (placeOf path) with
  | true =>
    have hthere' := hfile.trans hthere
    unfold read
    rw [locate_of_hasFile h.sound hpath hthere, locate_of_hasFile h.sound' hpath hthere']
    simp only [bind, Except.bind, hcontent, hdir]
  | false =>
    cases hopen : t.hasDirectory (placeOf path) with
    | true =>
      have hopen' := hdir.trans hopen
      unfold read
      rw [locate_of_hasDirectory h.sound hpath hopen, locate_of_hasDirectory h.sound' hpath hopen']
      simp only [bind, Except.bind, hcontent, hdir]
    | false =>
      rcases read_of_missing h.sound hpath hthere hopen with ⟨⟨q, hq, hblock⟩, hread⟩ | ⟨hfree, hread⟩ <;>
        rcases read_of_missing h.sound' hpath (hfile.trans hthere) (hdir.trans hopen) with
          ⟨⟨q', hq', hblock'⟩, hread'⟩ | ⟨hfree', hread'⟩
      · rw [hread, hread']
      · rw [← h.above _ hplace q hq, hfree' q hq] at hblock
        cases hblock
      · rw [h.above _ hplace q' hq', hfree q' hq'] at hblock'
        cases hblock'
      · rw [hread, hread']

end Read

theorem admits_iff (h : Agree reads places t t') {p : Place} (hp : p ∈ places) :
    t'.Admits p ↔ t.Admits p := by
  constructor
  · exact fun hadmits => ⟨fun q hq => (h.above p hp q hq).symm.trans (hadmits.above q hq),
      (h.directory p hp).symm.trans hadmits.place⟩
  · exact fun hadmits => ⟨fun q hq => (h.above p hp q hq).trans (hadmits.above q hq),
      (h.directory p hp).trans hadmits.place⟩

/-- A file is put into both trees or into neither, and what it holds is the same from then on. -/
theorem write_cases (h : Agree reads places t t') (c : Content) (hplace : placeOf path ∈ places) :
    (∃ e, t.write path c = .error e ∧ t'.write path c = .error e) ∨
      ∃ after after', t.write path c = .ok after ∧ t'.write path c = .ok after' ∧
        Agree (insert (placeOf path) reads) places after after' := by
  cases hwrite : t.write path c with
  | error e => exact .inl ⟨e, rfl, write_error_congr (h.above _ hplace) (h.directory _ hplace) hwrite⟩
  | ok after =>
    have hadmits : t.Admits (placeOf path) := write_ok.1 ⟨after, hwrite⟩
    have hadmits' := (h.admits_iff hplace).2 hadmits
    obtain ⟨after', hwrite'⟩ := write_ok (c := c).2 hadmits'
    have hspread := (Spread.refl t).write hwrite
    have hspread' := (Spread.refl t').write hwrite'
    have hfits {tree : FileTree} (h : tree.Admits (placeOf path)) :
        tree.Fits (insert (placeOf path) ∅) :=
      Spread.fits (Spread.refl tree) (fits_empty tree) h
    refine .inr ⟨after, after', rfl, hwrite', hspread.sound h.sound (hfits hadmits),
      hspread'.sound h.sound' (hfits hadmits'), fun p hp hread => ?_, fun p hp => ?_,
      fun p hp q hq => ?_⟩
    · rw [(write_spec hwrite).1, (write_spec hwrite').1]
      split
      · rfl
      · next hne => exact h.content p hp (hread.resolve_left hne)
    · rw [Bool.eq_iff_iff, hasDirectory_write hwrite, hasDirectory_write hwrite', h.directory p hp]
    · rw [Bool.eq_iff_iff, hspread.file, hspread'.file, h.above p hp q hq]

end Agree

/-! For places in a list, all of this can be checked. -/

instance (p q : Place) : Decidable (IsAbove p q) :=
  inferInstanceAs (Decidable (p ≠ [] ∧ p <+: q.dropLast))

theorem sound_iff : t.Sound ↔
    (∀ p ∈ t.directories, ∀ front ∈ p.inits, t.hasDirectory front = true) ∧
      ∀ e ∈ t.files, t.hasDirectory e.1.dropLast = true ∧ t.hasDirectory e.1 = false := by
  have hfile : ∀ p, t.hasFile p = true ↔ p ∈ t.files.map Prod.fst := fun p => by
    unfold hasFile content?
    rw [Option.isSome_iff_ne_none, Ne, List.lookup_eq_none_iff]
    simp
  constructor
  · refine fun h => ⟨fun p hp front hfront => ?_, fun e he => ?_⟩
    · exact h.directories p (by simp [hasDirectory, hp]) front ((List.mem_inits _ _).1 hfront)
    · have hthere := (hfile e.1).2 (List.mem_map_of_mem he)
      exact ⟨h.parents _ hthere, h.apart _ hthere⟩
  · rintro ⟨hdirectories, hfiles⟩
    refine ⟨fun p hp front hfront => ?_, fun p hp => ?_, fun p hp => ?_⟩
    · rcases Bool.or_eq_true_iff.1 hp with hp | hp
      · rw [List.isEmpty_iff.1 hp] at hfront
        rw [List.prefix_nil.1 hfront]
        rfl
      · exact hdirectories p (List.contains_iff_mem.1 hp) front ((List.mem_inits _ _).2 hfront)
    · obtain ⟨e, he, rfl⟩ := List.mem_map.1 ((hfile p).1 hp)
      exact (hfiles e he).1
    · obtain ⟨e, he, rfl⟩ := List.mem_map.1 ((hfile p).1 hp)
      exact (hfiles e he).2

instance (t : FileTree) : Decidable t.Sound := decidable_of_iff' _ sound_iff

theorem agree_iff {l : List Place} : Agree Set.univ {p | p ∈ l} t t' ↔ t.Sound ∧ t'.Sound ∧
    ∀ p ∈ l, t'.content? p = t.content? p ∧ t'.hasDirectory p = t.hasDirectory p ∧
      ∀ q ∈ p.dropLast.inits, q ≠ [] → t'.hasFile q = t.hasFile q := by
  constructor
  · refine fun h => ⟨h.sound, h.sound', fun p hp => ⟨h.content p hp trivial, h.directory p hp, ?_⟩⟩
    exact fun q hq hne => h.above p hp q ⟨hne, (List.mem_inits _ _).1 hq⟩
  · rintro ⟨hsound, hsound', hplaces⟩
    refine ⟨hsound, hsound', fun p hp _ => (hplaces p hp).1, fun p hp => (hplaces p hp).2.1, ?_⟩
    exact fun p hp q hq => (hplaces p hp).2.2 q ((List.mem_inits _ _).2 hq.2) hq.1

instance (l : List Place) (t t' : FileTree) : Decidable (Agree Set.univ {p | p ∈ l} t t') :=
  decidable_of_iff' _ agree_iff

end Bindery.FileTree
