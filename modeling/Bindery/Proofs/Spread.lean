import Bindery.Proofs.FileTree
import Mathlib.Data.Set.Insert

/-! A tree of files on which more files were put. Whether the next one can be put there depends on where
the others lie, and not on the order in which they were put. -/

namespace Bindery.FileTree

variable {t t' t'' : FileTree} {p q : Place} {places places' : Set Place}

/-- Files and directories lie in directories, and where a file is there is no directory. -/
structure Sound (t : FileTree) : Prop where
  directories : ∀ p, t.hasDirectory p = true → ∀ front, front <+: p → t.hasDirectory front = true
  parents : ∀ p, t.hasFile p = true → t.hasDirectory p.dropLast = true
  apart : ∀ p, t.hasFile p = true → t.hasDirectory p = false

/-- A tree of files in the root alone. -/
theorem sound_of_flat {t : FileTree} (hdirs : t.directories = [])
    (hfiles : ∀ e ∈ t.files, e.1.length = 1) : t.Sound := by
  have hdir : ∀ p, t.hasDirectory p = true ↔ p = [] := by
    intro p
    simp [hasDirectory, hdirs]
  have hlength : ∀ p, t.hasFile p = true → p.length = 1 := by
    intro p hp
    obtain ⟨c, hc⟩ := Option.isSome_iff_exists.1 hp
    obtain ⟨e, he, rfl⟩ := List.mem_map.1 (mem_of_lookup hc)
    exact hfiles e he
  refine ⟨fun p hp front hfront => ?_, fun p hp => ?_, fun p hp => ?_⟩
  · rw [(hdir p).1 hp] at hfront
    exact (hdir front).2 (List.prefix_nil.1 hfront)
  · obtain ⟨name, rfl⟩ := List.length_eq_one_iff.1 (hlength p hp)
    rfl
  · rw [Bool.eq_false_iff]
    intro hp'
    have hone := hlength p hp
    rw [(hdir p).1 hp'] at hone
    cases hone

/-- One place is a directory above another one. -/
def IsAbove (p q : Place) : Prop := p ≠ [] ∧ p <+: q.dropLast

theorem not_isAbove_self (p : Place) : ¬ IsAbove p p := by
  rintro ⟨hne, hprefix⟩
  have hle := hprefix.length_le
  have hpos := List.length_pos_of_ne_nil hne
  rw [List.length_dropLast] at hle
  omega

theorem isAbove_of_isPrefix {f q : Place} (h : f <+: q) (hne : f ≠ q) (hf : f ≠ []) : IsAbove f q := by
  obtain ⟨rest, rfl⟩ := h
  have hrest : rest ≠ [] := fun hnil => hne (by rw [hnil, List.append_nil])
  refine ⟨hf, ?_⟩
  rw [List.dropLast_append_of_ne_nil hrest]
  exact List.prefix_append _ _

/-- A file can be put in a place. -/
structure Admits (t : FileTree) (p : Place) : Prop where
  above : ∀ q, IsAbove q p → t.hasFile q = false
  place : t.hasDirectory p = false

theorem Admits.ne_nil (h : t.Admits p) : p ≠ [] := by
  rintro rfl
  have hroot := h.place
  simp [hasDirectory] at hroot

/-! Making directories fails at the first file on the way. -/

theorem makeFrom_ok {rest : List String} : (∃ t', t.makeFrom p rest = .ok t') ↔
    ∀ front, front ≠ [] → front <+: rest → t.hasFile (p ++ front) = false := by
  induction rest generalizing t p with
  | nil =>
    refine ⟨fun _ front hne hfront => ?_, fun _ => ⟨t, rfl⟩⟩
    exact absurd (List.prefix_nil.1 hfront) hne
  | cons s rest ih =>
    have hfiles : ∀ q, (t.addDirectory (p ++ [s])).hasFile q = t.hasFile q := by
      intro q
      unfold hasFile content?
      rw [files_addDirectory]
    rw [makeFrom]
    cases hblocked : t.hasFile (p ++ [s]) with
    | true =>
      constructor
      · rintro ⟨t', h⟩
        simp at h
      · intro hall
        have hfree := hall [s] (by simp) (by simp)
        rw [hblocked] at hfree
        cases hfree
    | false =>
      simp only [Bool.false_eq_true, if_false]
      rw [ih]
      constructor
      · intro hall front hne hfront
        obtain ⟨x, xs, rfl⟩ := List.exists_cons_of_ne_nil hne
        obtain ⟨rfl, hxs⟩ := List.cons_prefix_cons.1 hfront
        rcases xs with _ | ⟨y, ys⟩
        · exact hblocked
        · have hrest := hall (y :: ys) (by simp) hxs
          rw [hfiles] at hrest
          simpa using hrest
      · intro hall front hne hfront
        have hrest := hall (s :: front) (by simp) (List.cons_prefix_cons.2 ⟨rfl, hfront⟩)
        rw [hfiles]
        simpa using hrest

theorem hasDirectory_makeFrom {rest : List String} (h : t.makeFrom p rest = .ok t') (q : Place) :
    t'.hasDirectory q = true ↔
      t.hasDirectory q = true ∨ ∃ front, front ≠ [] ∧ front <+: rest ∧ q = p ++ front := by
  induction rest generalizing t p with
  | nil =>
    cases h
    refine ⟨.inl, fun hor => hor.elim id ?_⟩
    rintro ⟨front, hne, hfront, -⟩
    exact absurd (List.prefix_nil.1 hfront) hne
  | cons s rest ih =>
    rw [makeFrom] at h
    split at h
    · cases h
    · rw [ih h, hasDirectory_addDirectory]
      constructor
      · rintro (hq | ⟨front, hne, hfront, rfl⟩)
        · rcases Bool.or_eq_true_iff.1 hq with hq | hq
          · exact .inl hq
          · exact .inr ⟨[s], by simp, by simp, by simpa using hq⟩
        · exact .inr ⟨s :: front, by simp, List.cons_prefix_cons.2 ⟨rfl, hfront⟩, by simp⟩
      · rintro (hq | ⟨front, hne, hfront, rfl⟩)
        · exact .inl (by simp [hq])
        · obtain ⟨x, xs, rfl⟩ := List.exists_cons_of_ne_nil hne
          obtain ⟨rfl, hxs⟩ := List.cons_prefix_cons.1 hfront
          rcases xs with _ | ⟨y, ys⟩
          · exact .inl (by simp)
          · exact .inr ⟨y :: ys, by simp, hxs, by simp⟩

theorem makeFrom_congr {rest : List String} {e : FileFault}
    (hfiles : ∀ front, front ≠ [] → front <+: rest → t'.hasFile (p ++ front) = t.hasFile (p ++ front))
    (h : t.makeFrom p rest = .error e) : t'.makeFrom p rest = .error e := by
  induction rest generalizing t t' p with
  | nil => cases h
  | cons s rest ih =>
    have hadded : ∀ (t : FileTree) q, (t.addDirectory (p ++ [s])).hasFile q = t.hasFile q := by
      intro t q
      unfold hasFile content?
      rw [files_addDirectory]
    have hhead := hfiles [s] (by simp) (by simp)
    rw [makeFrom] at h ⊢
    rw [hhead]
    split at h
    · next hblocked =>
      rw [if_pos hblocked]
      exact h
    · next hfree =>
      rw [if_neg hfree]
      refine ih (fun front hne hfront => ?_) h
      have hrest := hfiles (s :: front) (by simp) (List.cons_prefix_cons.2 ⟨rfl, hfront⟩)
      rw [hadded, hadded]
      simpa using hrest

/-! A write fails where the place admits no file. -/

section Write

variable {path : Path} {c c' : Content}

theorem write_eq : t.write path c =
    match t.makeFrom [] (placeOf path).dropLast with
    | .ok made => if made.hasDirectory (placeOf path) = true then .error .isADirectory
      else .ok (made.put (placeOf path) c)
    | .error e => .error e := by
  unfold write makeDirectories
  cases hmake : t.makeFrom [] (placeOf path).dropLast with
  | error e => simp [hmake, bind, Except.bind]
  | ok made =>
    simp only [hmake, bind, Except.bind]
    split <;> rfl

theorem hasDirectory_write (h : t.write path c = .ok t') (q : Place) :
    t'.hasDirectory q = true ↔
      t.hasDirectory q = true ∨ q <+: (placeOf path).dropLast := by
  rw [write_eq] at h
  cases hmake : t.makeFrom [] (placeOf path).dropLast with
  | error e => simp [hmake] at h
  | ok made =>
    simp only [hmake] at h
    split at h
    · cases h
    · cases h
      show made.hasDirectory q = true ↔ _
      rw [hasDirectory_makeFrom hmake q]
      constructor
      · rintro (hq | ⟨front, -, hfront, rfl⟩)
        · exact .inl hq
        · exact .inr hfront
      · rintro (hq | hq)
        · exact .inl hq
        · cases q with
          | nil => exact .inl rfl
          | cons s q => exact .inr ⟨s :: q, by simp, hq, rfl⟩

theorem write_ok : (∃ t', t.write path c = .ok t') ↔ t.Admits (placeOf path) := by
  have hmade : (∃ t', t.makeFrom [] (placeOf path).dropLast = .ok t') ↔
      ∀ front, front ≠ [] → front <+: (placeOf path).dropLast → t.hasFile front = false :=
    makeFrom_ok
  rw [write_eq]
  constructor
  · intro h
    cases hmake : t.makeFrom [] (placeOf path).dropLast with
    | error e => simp [hmake] at h
    | ok made =>
      refine ⟨fun q hq => hmade.1 ⟨made, hmake⟩ q hq.1 hq.2, ?_⟩
      have hfree : made.hasDirectory (placeOf path) = false := by
        obtain ⟨t', h⟩ := h
        rw [Bool.eq_false_iff]
        intro hdir
        simp [hmake, hdir] at h
      rw [Bool.eq_false_iff] at hfree ⊢
      exact fun hdir => hfree ((hasDirectory_makeFrom hmake _).2 (.inl hdir))
  · intro h
    obtain ⟨made, hmake⟩ := hmade.2 fun front hne hfront => h.above front ⟨hne, hfront⟩
    have hfree : made.hasDirectory (placeOf path) = false := by
      rw [Bool.eq_false_iff]
      intro hdir
      rcases (hasDirectory_makeFrom hmake _).1 hdir with hdir | ⟨front, -, hfront, heq⟩
      · rw [h.place] at hdir
        cases hdir
      · -- no place is one of the directories above it
        rw [List.nil_append] at heq
        rw [← heq] at hfront
        have hle := hfront.length_le
        have hpos := List.length_pos_of_ne_nil h.ne_nil
        rw [List.length_dropLast] at hle
        omega
    simp [hmake, hfree]

/-- Why a write fails is told by the files above its place and by the place. -/
theorem write_error_congr (hfiles : ∀ q, IsAbove q (placeOf path) → t'.hasFile q = t.hasFile q)
    (hdir : t'.hasDirectory (placeOf path) = t.hasDirectory (placeOf path)) {e : FileFault}
    (h : t.write path c = .error e) : t'.write path c' = .error e := by
  have hfronts : ∀ front, front ≠ [] → front <+: (placeOf path).dropLast →
      t'.hasFile ([] ++ front) = t.hasFile ([] ++ front) := fun front hne hfront =>
    hfiles front ⟨hne, hfront⟩
  rw [write_eq] at h ⊢
  cases hmake : t.makeFrom [] (placeOf path).dropLast with
  | error e' =>
    rw [makeFrom_congr hfronts hmake]
    rw [hmake] at h
    exact h
  | ok made =>
    obtain ⟨made', hmake'⟩ := makeFrom_ok.2 fun front hne hfront =>
      (hfronts front hne hfront).trans (makeFrom_ok.1 ⟨made, hmake⟩ front hne hfront)
    have hsame : made'.hasDirectory (placeOf path) = made.hasDirectory (placeOf path) := by
      rw [Bool.eq_iff_iff, hasDirectory_makeFrom hmake, hasDirectory_makeFrom hmake', hdir]
    simp only [hmake, hmake'] at h ⊢
    rw [hsame]
    split at h
    · next hblocked =>
      rw [if_pos hblocked]
      exact h
    · cases h

end Write

/-- Files were put in places, with the directories above them. -/
structure Spread (t : FileTree) (places : Set Place) (t' : FileTree) : Prop where
  file : ∀ q, t'.hasFile q = true ↔ t.hasFile q = true ∨ q ∈ places
  directory : ∀ q, t'.hasDirectory q = true ↔
    t.hasDirectory q = true ∨ ∃ p ∈ places, q <+: p.dropLast
  content : ∀ q, q ∉ places → t'.content? q = t.content? q

/-- The places that files can be put in, all of them and in any order. -/
structure Fits (t : FileTree) (places : Set Place) : Prop where
  admits : ∀ p ∈ places, t.Admits p
  level : ∀ p ∈ places, ∀ q ∈ places, ¬ IsAbove p q

namespace Spread

theorem refl (t : FileTree) : t.Spread ∅ t :=
  ⟨fun q => by simp, fun q => by simp, fun _ _ => rfl⟩

theorem grows (h : t.Spread places t') : t.Grows t' :=
  ⟨fun q hq => (h.directory q).2 (.inl hq), fun q hq => (h.file q).2 (.inl hq)⟩

theorem write (h : t.Spread places t') {path : Path} {c : Content}
    (hwrite : t'.write path c = .ok t'') : t.Spread (insert (placeOf path) places) t'' := by
  have hcontent := (write_spec hwrite).1
  refine ⟨fun q => ?_, fun q => ?_, fun q hq => ?_⟩
  · unfold hasFile at *
    rw [hcontent]
    split
    · next heq => simp [heq]
    · next hne =>
      have hold := h.file q
      unfold hasFile at hold
      rw [hold, Set.mem_insert_iff]
      simp [hne]
  · rw [hasDirectory_write hwrite, h.directory]
    constructor
    · rintro ((hq | ⟨p, hp, hprefix⟩) | hprefix)
      · exact .inl hq
      · exact .inr ⟨p, Set.mem_insert_of_mem _ hp, hprefix⟩
      · exact .inr ⟨_, Set.mem_insert _ _, hprefix⟩
    · rintro (hq | ⟨p, hp, hprefix⟩)
      · exact .inl (.inl hq)
      · rcases Set.mem_insert_iff.1 hp with rfl | hp
        · exact .inr hprefix
        · exact .inl (.inr ⟨p, hp, hprefix⟩)
  · have hne : q ≠ placeOf path := by
      rintro rfl
      exact hq (Set.mem_insert _ _)
    rw [hcontent, if_neg hne]
    exact h.content q fun hmem => hq (Set.mem_insert_of_mem _ hmem)

theorem trans (h : t.Spread places t') (h' : t'.Spread places' t'') :
    t.Spread (places ∪ places') t'' := by
  refine ⟨fun q => ?_, fun q => ?_, fun q hq => ?_⟩
  · rw [h'.file, h.file, Set.mem_union, or_assoc]
  · rw [h'.directory, h.directory, or_assoc]
    simp only [Set.mem_union, or_and_right, exists_or]
  · rw [h'.content q fun hmem => hq (.inr hmem), h.content q fun hmem => hq (.inl hmem)]

/-- A file that was there may count as one that was put there. -/
theorem insert_of_hasFile (h : t.Spread places t') (hsound : t.Sound) (hp : t.hasFile p = true) :
    t.Spread (insert p places) t' := by
  refine ⟨fun q => ?_, fun q => ?_, fun q hq => h.content q fun hmem => hq (Set.mem_insert_of_mem _ hmem)⟩
  · rw [h.file, Set.mem_insert_iff]
    constructor
    · exact fun hor => hor.imp_right .inr
    · rintro (hq | rfl | hq)
      · exact .inl hq
      · exact .inl hp
      · exact .inr hq
  · rw [h.directory]
    constructor
    · rintro (hq | ⟨p', hp', hprefix⟩)
      · exact .inl hq
      · exact .inr ⟨p', Set.mem_insert_of_mem _ hp', hprefix⟩
    · rintro (hq | ⟨p', hp', hprefix⟩)
      · exact .inl hq
      · rcases Set.mem_insert_iff.1 hp' with rfl | hp'
        · exact .inl (hsound.directories _ (hsound.parents _ hp) q hprefix)
        · exact .inr ⟨p', hp', hprefix⟩

theorem sound (h : t.Spread places t') (hsound : t.Sound) (hfits : t.Fits places) : t'.Sound := by
  refine ⟨fun p hp front hfront => (h.directory front).2 ?_, fun p hp => (h.directory _).2 ?_,
    fun p hp => ?_⟩
  · rcases (h.directory p).1 hp with hp | ⟨q, hq, hprefix⟩
    · exact .inl (hsound.directories p hp front hfront)
    · exact .inr ⟨q, hq, hfront.trans hprefix⟩
  · rcases (h.file p).1 hp with hp | hp
    · exact .inl (hsound.parents p hp)
    · exact .inr ⟨p, hp, List.prefix_refl _⟩
  · rw [Bool.eq_false_iff]
    intro hdir
    rcases (h.file p).1 hp with hfile | hp
    · rcases (h.directory p).1 hdir with hdir | ⟨q, hq, hprefix⟩
      · rw [hsound.apart p hfile] at hdir
        cases hdir
      · have hne : p ≠ [] := by
          rintro rfl
          have hroot := hsound.apart [] hfile
          simp [hasDirectory] at hroot
        have hfree := (hfits.admits q hq).above p ⟨hne, hprefix⟩
        rw [hfile] at hfree
        cases hfree
    · rcases (h.directory p).1 hdir with hdir | ⟨q, hq, hprefix⟩
      · rw [(hfits.admits p hp).place] at hdir
        cases hdir
      · exact hfits.level p hp q hq ⟨(hfits.admits p hp).ne_nil, hprefix⟩

/-- After some of the files, the next one finds its place as it was, when all of them fit. -/
theorem admits (h : t.Spread places t') (hfits : t.Fits places') (hsub : places ⊆ places')
    (hp : p ∈ places') : t'.Admits p := by
  have hfree := hfits.admits p hp
  refine ⟨fun q hq => ?_, ?_⟩
  · rw [Bool.eq_false_iff]
    intro hfile
    rcases (h.file q).1 hfile with hfile | hmem
    · rw [hfree.above q hq] at hfile
      cases hfile
    · exact hfits.level q (hsub hmem) p hp hq
  · rw [Bool.eq_false_iff]
    intro hdir
    rcases (h.directory p).1 hdir with hdir | ⟨q, hq, hprefix⟩
    · rw [hfree.place] at hdir
      cases hdir
    · exact hfits.level p hp q (hsub hq) ⟨hfree.ne_nil, hprefix⟩

/-- Where no file can be put, there is nothing new in the way after others were put. -/
theorem stuck (h : t.Spread places t') (hsound : t.Sound) (hadmits : ∀ q ∈ places, t.Admits q)
    (hp : ¬ t.Admits p) : (∀ q, IsAbove q p → t'.hasFile q = t.hasFile q) ∧
      t'.hasDirectory p = t.hasDirectory p := by
  -- In the way there is one file, or a directory in the place itself.
  have hway : t.hasDirectory p = true ∨ ∃ f, IsAbove f p ∧ t.hasFile f = true := by
    by_contra hnone
    obtain ⟨hdir, hfile⟩ := not_or.1 hnone
    refine hp ⟨fun q hq => ?_, Bool.eq_false_iff.2 hdir⟩
    exact Bool.eq_false_iff.2 fun hq' => hfile ⟨q, hq, hq'⟩
  have hfresh : ∀ q ∈ places, IsAbove q p → t.hasFile q = true := by
    intro q hq habove
    have hplace := (hadmits q hq).place
    rcases hway with hdir | ⟨f, hf, hfile⟩
    · have hover := hsound.directories p hdir q (habove.2.trans (List.dropLast_prefix _))
      rw [hplace] at hover
      cases hover
    · by_cases heq : f = q
      · rwa [← heq]
      · rcases List.prefix_or_prefix_of_prefix hf.2 habove.2 with hprefix | hprefix
        · have hfree := (hadmits q hq).above f (isAbove_of_isPrefix hprefix heq hf.1)
          rw [hfile] at hfree
          cases hfree
        · have hover := hsound.directories _ (hsound.parents f hfile) q
            (isAbove_of_isPrefix hprefix (Ne.symm heq) habove.1).2
          rw [hplace] at hover
          cases hover
  constructor
  · intro q habove
    rw [Bool.eq_iff_iff, h.file]
    exact ⟨fun hor => hor.elim id fun hq => hfresh q hq habove, .inl⟩
  · rw [Bool.eq_iff_iff, h.directory]
    refine ⟨fun hor => hor.elim id ?_, .inl⟩
    rintro ⟨q, hq, hprefix⟩
    rcases hway with hdir | ⟨f, hf, hfile⟩
    · exact hdir
    · have hover : IsAbove f q := ⟨hf.1, hf.2.trans ((List.dropLast_prefix _).trans hprefix)⟩
      have hfree := (hadmits q hq).above f hover
      rw [hfile] at hfree
      cases hfree

/-- What fits among the files that were put is added to them. -/
theorem fits (h : t.Spread places t') (hfits : t.Fits places) (hp : t'.Admits p) :
    t.Fits (insert p places) := by
  have hfree : t.Admits p := by
    refine ⟨fun q hq => ?_, ?_⟩
    · have hnone := hp.above q hq
      rw [Bool.eq_false_iff] at hnone ⊢
      exact fun hfile => hnone ((h.file q).2 (.inl hfile))
    · have hnone := hp.place
      rw [Bool.eq_false_iff] at hnone ⊢
      exact fun hdir => hnone ((h.directory p).2 (.inl hdir))
  have hbelow : ∀ q ∈ places, ¬ IsAbove p q := by
    rintro q hq ⟨-, hprefix⟩
    have hdir := (h.directory p).2 (.inr ⟨q, hq, hprefix⟩)
    rw [hp.place] at hdir
    cases hdir
  have habove : ∀ q ∈ places, ¬ IsAbove q p := by
    intro q hq hover
    have hfile := (h.file q).2 (.inr hq)
    rw [hp.above q hover] at hfile
    cases hfile
  refine ⟨fun q hq => ?_, fun q hq q' hq' => ?_⟩
  · rcases Set.mem_insert_iff.1 hq with rfl | hq
    · exact hfree
    · exact hfits.admits q hq
  · rcases Set.mem_insert_iff.1 hq with heq | hq <;> rcases Set.mem_insert_iff.1 hq' with heq' | hq'
    · exact heq ▸ heq' ▸ not_isAbove_self p
    · exact heq ▸ hbelow q' hq'
    · exact heq' ▸ habove q hq
    · exact hfits.level q hq q' hq'

end Spread

/-! What is found and read on the tree. -/

theorem Sound.hasFile_nil (h : t.Sound) : t.hasFile [] = false := by
  rw [Bool.eq_false_iff]
  intro hfile
  have hroot := h.apart [] hfile
  simp [hasDirectory] at hroot

theorem locate_of_hasFile (h : t.Sound) {path : Path} (hpath : path.IsNormal)
    (hfile : t.hasFile (placeOf path) = true) : t.locate path = .ok (placeOf path) := by
  refine locate_of_parents hpath (fun hnil => ?_) (h.directories _ (h.parents _ hfile))
  rw [hnil, h.hasFile_nil] at hfile
  cases hfile

theorem isFile_iff (h : t.Sound) {path : Path} (hpath : path.IsNormal) :
    t.isFile path = true ↔ t.hasFile (placeOf path) = true := by
  constructor
  · intro hfile
    unfold isFile at hfile
    cases hlocate : t.locate path with
    | error e => simp [hlocate] at hfile
    | ok place =>
      obtain rfl := locate_of_isNormal hpath hlocate
      simpa [hlocate] using hfile
  · intro hfile
    unfold isFile
    rw [locate_of_hasFile h hpath hfile]
    exact hfile

theorem locate_of_hasDirectory (h : t.Sound) {path : Path} (hpath : path.IsNormal)
    (hdir : t.hasDirectory (placeOf path) = true) : t.locate path = .ok (placeOf path) := by
  by_cases hnil : placeOf path = []
  · have hnames := components_of_isNormal hpath
    rw [hnil, List.map_nil] at hnames
    unfold locate
    rcases hnames with hnames | hnames <;>
      simp [hnames, hnil, follow, hasDirectory, bind, Except.bind, pure, Except.pure]
  · refine locate_of_parents hpath hnil fun front hfront => ?_
    exact h.directories _ hdir front (hfront.trans (List.dropLast_prefix _))

theorem isDirectory_iff (h : t.Sound) {path : Path} (hpath : path.IsNormal) :
    t.isDirectory path = true ↔ t.hasDirectory (placeOf path) = true := by
  constructor
  · intro hdir
    unfold isDirectory at hdir
    cases hlocate : t.locate path with
    | error e => simp [hlocate] at hdir
    | ok place =>
      obtain rfl := locate_of_isNormal hpath hlocate
      simpa [hlocate] using hdir
  · intro hdir
    unfold isDirectory
    rw [locate_of_hasDirectory h hpath hdir]
    exact hdir

/-- A file in another place is read as before. -/
theorem Spread.read_iff (h : t.Spread places t') (hsound : t.Sound) {path : Path}
    (hpath : path.IsNormal) (hplace : placeOf path ∉ places) {text : String} :
    t'.read path = .ok text ↔ t.read path = .ok text := by
  have hcontent := h.content _ hplace
  rw [read_eq_ok, read_eq_ok]
  constructor
  · rintro ⟨place, hlocate, htext⟩
    obtain rfl := locate_of_isNormal hpath hlocate
    rw [hcontent] at htext
    have hfile : t.hasFile (placeOf path) = true := by
      unfold hasFile
      rw [htext]
      rfl
    exact ⟨_, locate_of_hasFile hsound hpath hfile, htext⟩
  · rintro ⟨place, hlocate, htext⟩
    obtain rfl := locate_of_isNormal hpath hlocate
    exact ⟨_, locate_of_grows h.grows hlocate, hcontent.trans htext⟩

theorem Fits.subset (h : t.Fits places') (hsub : places ⊆ places') : t.Fits places :=
  ⟨fun p hp => h.admits p (hsub hp), fun p hp q hq => h.level p (hsub hp) q (hsub hq)⟩

theorem fits_empty (t : FileTree) : t.Fits ∅ := ⟨fun _ hp => hp.elim, fun _ hp => hp.elim⟩

end Bindery.FileTree
