import Bindery.FileTree
import Bindery.Proofs.Path.Extension
import Mathlib.Data.List.Nodup
import Mathlib.Data.List.Perm.Subperm
import Mathlib.Data.List.ProdSigma

/-! Writing and reading. A write leaves every other file as it is and takes no directory away, so
what could be read before can be read after. -/

namespace Bindery

namespace FileTree

variable {t t' : FileTree}

section SetFile

variable {p q : Place} {c : Content} {files : List (Place × Content)}

theorem lookup_setFile : (setFile p c files).lookup q = if q = p then some c else files.lookup q := by
  induction files with
  | nil => by_cases hq : q = p <;> simp [setFile, List.lookup_cons, hq, beq_eq_false_iff_ne.2]
  | cons file files ih =>
    obtain ⟨r, d⟩ := file
    rw [setFile]
    split
    · next h =>
      subst h
      rw [List.lookup_cons, List.lookup_cons]
      by_cases hq : q = r <;> simp [hq, beq_eq_false_iff_ne.2]
    · next h =>
      rw [List.lookup_cons, List.lookup_cons, ih]
      by_cases hq : q = r
      · subst hq
        simp [h]
      · simp [hq, beq_eq_false_iff_ne.2]

theorem mem_of_lookup (h : files.lookup p = some c) : p ∈ files.map Prod.fst := by
  induction files with
  | nil => simp at h
  | cons file files ih =>
    obtain ⟨r, d⟩ := file
    rw [List.lookup_cons] at h
    by_cases hr : p = r
    · exact hr ▸ List.mem_cons_self
    · simp only [beq_eq_false_iff_ne.2 hr] at h
      exact List.mem_cons_of_mem _ (ih h)

end SetFile

/-- Files and directories are there still. -/
structure Grows (t t' : FileTree) : Prop where
  directory : ∀ p, t.hasDirectory p = true → t'.hasDirectory p = true
  file : ∀ p, t.hasFile p = true → t'.hasFile p = true

theorem Grows.refl (t : FileTree) : t.Grows t := ⟨fun _ h => h, fun _ h => h⟩

theorem Grows.trans {t₁ t₂ t₃ : FileTree} (h : t₁.Grows t₂) (h' : t₂.Grows t₃) : t₁.Grows t₃ :=
  ⟨fun p hp => h'.directory p (h.directory p hp), fun p hp => h'.file p (h.file p hp)⟩

/-! Making directories. -/

theorem files_addDirectory (t : FileTree) (p : Place) : (t.addDirectory p).files = t.files := by
  unfold addDirectory
  split <;> rfl

theorem hasDirectory_addDirectory (t : FileTree) (p q : Place) :
    (t.addDirectory p).hasDirectory q = (t.hasDirectory q || q == p) := by
  unfold addDirectory
  split
  · next h =>
    by_cases hq : q = p
    · subst hq
      simp [h]
    · simp [hq]
  · simp only [hasDirectory, List.contains_cons]
    cases q.isEmpty <;> cases q == p <;> simp

theorem makeFrom_spec {p : Place} {rest : List String} (h : t.makeFrom p rest = .ok t') :
    t'.files = t.files ∧ (∀ q, t.hasDirectory q = true → t'.hasDirectory q = true) ∧
      ∀ front, front ≠ [] → front <+: rest → t'.hasDirectory (p ++ front) = true := by
  induction rest generalizing t p with
  | nil =>
    cases h
    refine ⟨rfl, fun _ h => h, fun front hne hfront => ?_⟩
    exact absurd (List.prefix_nil.1 hfront) hne
  | cons s rest ih =>
    rw [makeFrom] at h
    split at h
    · cases h
    · obtain ⟨hfiles, hdirs, hmade⟩ := ih h
      have hadded := hasDirectory_addDirectory t (p ++ [s])
      refine ⟨hfiles.trans (files_addDirectory t _), fun q hq => hdirs q ?_, fun front hne hfront => ?_⟩
      · rw [hadded, hq, Bool.true_or]
      · obtain ⟨x, xs, rfl⟩ := List.exists_cons_of_ne_nil hne
        obtain ⟨rfl, hxs⟩ := List.cons_prefix_cons.1 hfront
        rcases List.eq_nil_or_concat xs with rfl | ⟨ys, y, rfl⟩
        · exact hdirs _ (by simp [hadded])
        · have hsplit : p ++ x :: ys.concat y = (p ++ [x]) ++ ys.concat y := by simp
          rw [hsplit]
          exact hmade _ (by simp) hxs

/-! Writing a file. -/

theorem write_spec {p : Path} {c : Content} (h : t.write p c = .ok t') :
    (∀ q, t'.content? q = if q = placeOf p then some c else t.content? q) ∧
      (∀ q, t.hasDirectory q = true → t'.hasDirectory q = true) ∧
      ∀ front, front <+: (placeOf p).dropLast → t'.hasDirectory front = true := by
  unfold write at h
  dsimp only at h
  cases hmade : t.makeDirectories (placeOf p).dropLast with
  | error e => simp [hmade, bind, Except.bind] at h
  | ok made =>
    obtain ⟨hfiles, hdirs, hparents⟩ := makeFrom_spec hmade
    rw [hmade] at h
    simp only [bind, Except.bind] at h
    split at h
    · cases h
    · cases h
      refine ⟨fun q => ?_, hdirs, fun front hfront => ?_⟩
      · unfold content? put
        rw [lookup_setFile, hfiles]
      · cases front with
        | nil => rfl
        | cons s front => exact hparents (s :: front) (by simp) hfront

theorem grows_write {p : Path} {c : Content} (h : t.write p c = .ok t') : t.Grows t' := by
  obtain ⟨hcontent, hdirs, -⟩ := write_spec h
  refine ⟨hdirs, fun q hq => ?_⟩
  unfold hasFile at hq ⊢
  rw [hcontent]
  split
  · rfl
  · exact hq

/-! Finding a file. -/

theorem follow_of_grows (h : t.Grows t') {p place : Place} {cs : List Component}
    (hfollow : t.follow p cs = .ok place) : t'.follow p cs = .ok place := by
  induction cs generalizing p with
  | nil => exact hfollow
  | cons c cs ih =>
    cases c with
    | root => exact ih hfollow
    | here => exact ih hfollow
    | up | name =>
      simp only [follow] at hfollow ⊢
      cases hp : t.hasDirectory p with
      | false => simp [hp] at hfollow
      | true =>
        rw [hp] at hfollow
        rw [h.directory p hp]
        exact ih hfollow

theorem locate_of_grows (h : t.Grows t') {p : Path} {place : Place}
    (hlocate : t.locate p = .ok place) : t'.locate p = .ok place := by
  unfold locate at hlocate ⊢
  cases hfollow : t.follow [] p.components with
  | error e => simp [hfollow, bind, Except.bind] at hlocate
  | ok place' =>
    rw [follow_of_grows h hfollow]
    rw [hfollow] at hlocate
    simp only [bind, Except.bind] at hlocate ⊢
    cases hdir : t.hasDirectory place' with
    | true =>
      have hdir' := h.directory place' hdir
      simpa [hdir, hdir'] using hlocate
    | false =>
      cases hends : p.endsInDirectory with
      | true => simp [hdir, hends, throw, throwThe, MonadExceptOf.throw] at hlocate
      | false => simpa [hdir, hends] using hlocate

theorem isFile_of_grows (h : t.Grows t') {p : Path} (hp : t.isFile p = true) :
    t'.isFile p = true := by
  unfold isFile at hp ⊢
  cases hlocate : t.locate p with
  | error e => simp [hlocate] at hp
  | ok place =>
    rw [hlocate] at hp
    rw [locate_of_grows h hlocate]
    exact h.file place hp

/-! Files whose paths are names below the root. -/

theorem follow_names {p place : Place} {names : List String}
    (h : t.follow p (names.map .name) = .ok place) : place = p ++ names := by
  induction names generalizing p with
  | nil =>
    cases h
    rw [List.append_nil]
  | cons s names ih =>
    rw [List.map_cons, follow] at h
    split at h
    · rw [ih h, List.append_assoc]
      rfl
    · cases h

end FileTree

/-- A normal path that does not climb above the root. -/
structure Path.IsPlain (p : Path) : Prop where
  normal : p.IsNormal
  up_not_mem : .up ∉ p.components

namespace FileTree

variable {t t' : FileTree} {p q : Path}

theorem components_of_isPlain (hp : p.IsPlain) :
    p.components = .root :: (placeOf p).map .name := by
  obtain ⟨steps, hsteps, hcomponents⟩ := Path.exists_steps hp.normal.absolute
  have hup : .up ∉ steps := fun h => hp.up_not_mem (hcomponents ▸ List.mem_cons_of_mem _ h)
  unfold placeOf
  rw [hcomponents, List.filterMap_cons_none rfl, List.cons_inj_right]
  clear hcomponents
  induction steps with
  | nil => rfl
  | cons c steps ih =>
    have hrest := ih (fun d hd => hsteps d (List.mem_cons_of_mem _ hd))
      fun h => hup (List.mem_cons_of_mem _ h)
    cases c with
    | name s => exact congrArg (.name s :: ·) hrest
    | up => exact absurd List.mem_cons_self hup
    | root => exact (hsteps .root List.mem_cons_self).elim
    | here => exact (hsteps .here List.mem_cons_self).elim

/-- A normal path names its place, maybe after one step up from the root. -/
theorem components_of_isNormal (hp : p.IsNormal) :
    p.components = .root :: (placeOf p).map .name ∨
      p.components = .root :: .up :: (placeOf p).map .name := by
  obtain ⟨names, hnames⟩ := hp.exists_names
  have hplace : placeOf p = names := by
    unfold placeOf
    rcases hnames with hnames | hnames <;> rw [hnames] <;> simp [List.filterMap_map]
  rwa [hplace]

theorem eq_of_placeOf (hp : p.IsPlain) (hq : q.IsPlain) (h : placeOf p = placeOf q) : p = q := by
  apply hp.normal.eq_of_components hq.normal
  rw [components_of_isPlain hp, components_of_isPlain hq, h]

theorem locate_of_isNormal (hp : p.IsNormal) {place : Place} (h : t.locate p = .ok place) :
    place = placeOf p := by
  have hsteps : t.follow [] p.components = t.follow [] ((placeOf p).map .name) := by
    rcases components_of_isNormal hp with hnames | hnames <;>
      rw [hnames] <;> simp [follow, hasDirectory]
  unfold locate at h
  rw [hsteps] at h
  cases hfollow : t.follow [] ((placeOf p).map .name) with
  | error e => simp [hfollow, bind, Except.bind] at h
  | ok place' =>
    have hplace := follow_names hfollow
    simp only [hfollow, bind, Except.bind] at h
    rw [List.nil_append] at hplace
    rw [← hplace]
    cases hbad : p.endsInDirectory && !t.hasDirectory place' with
    | true => simp [hbad, throw, throwThe, MonadExceptOf.throw] at h
    | false =>
      rw [hbad] at h
      exact (Except.ok.inj h).symm

theorem locate_of_isPlain (hp : p.IsPlain) {place : Place} (h : t.locate p = .ok place) :
    place = placeOf p :=
  locate_of_isNormal hp.normal h

theorem read_eq_ok {text : String} : t.read p = .ok text ↔
    ∃ place, t.locate p = .ok place ∧ t.content? place = some (.text text) := by
  unfold read
  cases t.locate p with
  | error e => simp [bind, Except.bind]
  | ok place =>
    simp only [bind, Except.bind, Except.ok.injEq, exists_eq_left']
    cases t.content? place with
    | none => simp [throw, throwThe, MonadExceptOf.throw]
    | some c => cases c <;> simp [throw, throwThe, MonadExceptOf.throw, pure, Except.pure]

/-- A file elsewhere is read as before. -/
theorem read_of_write {c : Content} {text : String} (hp : p.IsPlain)
    (hread : t.read p = .ok text) (hwrite : t.write q c = .ok t') (hne : placeOf q ≠ placeOf p) :
    t'.read p = .ok text := by
  obtain ⟨place, hlocate, hcontent⟩ := read_eq_ok.1 hread
  refine read_eq_ok.2 ⟨place, locate_of_grows (grows_write hwrite) hlocate, ?_⟩
  rw [(write_spec hwrite).1, if_neg]
  · exact hcontent
  · rw [locate_of_isPlain hp hlocate]
    exact fun h => hne h.symm

/-- There are no more files than the tree holds. -/
theorem length_le_of_readable {ps : List Path} (hnodup : ps.Nodup)
    (hps : ∀ p ∈ ps, p.IsPlain ∧ ∃ text, t.read p = .ok text) : ps.length ≤ t.files.length := by
  have hplaces : (ps.map placeOf).Nodup := by
    refine List.Nodup.map_on (fun p hp q hq h => ?_) hnodup
    exact eq_of_placeOf (hps p hp).1 (hps q hq).1 h
  have hsubset : ps.map placeOf ⊆ t.files.map Prod.fst := by
    intro place hplace
    obtain ⟨p, hp, rfl⟩ := List.mem_map.1 hplace
    obtain ⟨hplain, text, hread⟩ := hps p hp
    obtain ⟨place, hlocate, hcontent⟩ := read_eq_ok.1 hread
    rw [locate_of_isPlain hplain hlocate] at hcontent
    exact mem_of_lookup hcontent
  have hle := (List.Nodup.subperm hplaces hsubset).length_le
  rwa [List.length_map, List.length_map] at hle

theorem locate_root (h : p.components = [.root]) : t.locate p = .ok [] := by
  unfold locate
  rw [h]
  simp [follow, hasDirectory, bind, Except.bind, pure, Except.pure]

/-- A file that was read lies in a directory, when there is none in the place of the root. -/
theorem exists_parent_of_read {text : String} (hfree : t.hasFile [] = false) (hp : p.IsNormal)
    (h : t.read p = .ok text) : ∃ dir, p.parent? = some dir ∧ dir.IsNormal := by
  cases hparent : p.parent? with
  | some dir => exact ⟨dir, rfl, hp.parent hparent⟩
  | none =>
    obtain ⟨place, hlocate, hcontent⟩ := read_eq_ok.1 h
    rw [locate_root (hp.components_eq_of_parent hparent)] at hlocate
    obtain rfl := Except.ok.inj hlocate
    simp [hasFile, hcontent] at hfree

theorem hasFile_of_read {text : String} (hp : p.IsNormal) (h : t.read p = .ok text) :
    t.hasFile (placeOf p) = true := by
  obtain ⟨place, hlocate, hcontent⟩ := read_eq_ok.1 h
  obtain rfl := locate_of_isNormal hp hlocate
  unfold hasFile
  rw [hcontent]
  rfl

/-- A place has at most two normal names. -/
theorem length_le_of_placeOf_mem {ps : List Path} {places : List Place} (hnodup : ps.Nodup)
    (hps : ∀ p ∈ ps, p.IsNormal ∧ placeOf p ∈ places) : ps.length ≤ 2 * places.length := by
  let name (p : Path) : Place × Bool := (placeOf p, p.components.contains .up)
  have hname : (ps.map name).Nodup := by
    refine List.Nodup.map_on (fun p hp q hq h => ?_) hnodup
    obtain ⟨hplace, hup⟩ := Prod.mk.inj h
    refine (hps p hp).1.eq_of_components (hps q hq).1 ?_
    rcases components_of_isNormal (hps p hp).1 with hp' | hp' <;>
      rcases components_of_isNormal (hps q hq).1 with hq' | hq' <;>
      rw [hp', hq'] at hup ⊢ <;> simp_all
  have hsubset : ps.map name ⊆ places ×ˢ [true, false] := by
    intro x hx
    obtain ⟨p, hp, rfl⟩ := List.mem_map.1 hx
    exact List.pair_mem_product.2 ⟨(hps p hp).2, by cases p.components.contains .up <;> simp⟩
  have hle := (List.Nodup.subperm hname hsubset).length_le
  rw [List.length_map, List.length_product] at hle
  simpa [Nat.mul_comm] using hle

/-! A file that was written is there. -/

theorem placeOf_ne_nil {c : Content} (h : t.write p c = .ok t') : placeOf p ≠ [] := by
  intro hnil
  unfold write at h
  rw [hnil] at h
  simp [makeDirectories, makeFrom, hasDirectory, bind, Except.bind, throw, throwThe,
    MonadExceptOf.throw] at h

theorem hasFile_nil_of_write {c : Content} (h : t.write p c = .ok t') (hnil : t.hasFile [] = false) :
    t'.hasFile [] = false := by
  unfold hasFile at hnil ⊢
  rw [(write_spec h).1, if_neg (placeOf_ne_nil h).symm]
  exact hnil

/-- A copy is a write. -/
theorem exists_write_of_copy {source : Path} (h : t.copy source p = .ok t') :
    ∃ c, t.write p c = .ok t' := by
  unfold copy at h
  cases hlocate : t.locate source with
  | error e => simp [hlocate, bind, Except.bind] at h
  | ok place =>
    simp only [hlocate, bind, Except.bind] at h
    split at h
    · exact ⟨_, h⟩
    · cases h

/-- Names are followed where all but the last of them are directories. -/
theorem follow_names_eq (place : Place) (names : List String)
    (h : ∀ front, front <+: names.dropLast → t.hasDirectory (place ++ front) = true) :
    t.follow place (names.map .name) = .ok (place ++ names) := by
  induction names generalizing place with
  | nil => rw [List.append_nil, List.map_nil, follow]
  | cons s names ih =>
    have hplace : t.hasDirectory place = true := by simpa using h [] List.nil_prefix
    rw [List.map_cons, follow, if_pos hplace]
    cases names with
    | nil => rfl
    | cons s' names =>
      have hrest := ih (place ++ [s]) fun front hfront => by
        have hall := h (s :: front) (List.cons_prefix_cons.2 ⟨rfl, hfront⟩)
        rwa [List.append_assoc]
      rw [List.append_assoc] at hrest
      exact hrest

theorem follow_components (hp : p.IsNormal) :
    t.follow [] p.components = t.follow [] ((placeOf p).map .name) := by
  rcases components_of_isNormal hp with h | h
  · rw [h]
    rfl
  · rw [h]
    rfl

theorem endsInDirectory_of_placeOf (hp : p.IsNormal) (hne : placeOf p ≠ []) :
    p.endsInDirectory = false := by
  have hnames := components_of_isNormal hp
  rcases List.eq_nil_or_concat (placeOf p) with hnil | ⟨front, s, hplace⟩
  · exact absurd hnil hne
  · rw [hplace, List.concat_eq_append, List.map_append] at hnames
    rcases hnames with hnames | hnames
    · exact hp.endsInDirectory_eq hnames
    · rw [← List.cons_append] at hnames
      exact hp.endsInDirectory_eq hnames

/-- A path with a name leads to its place, when the directories on the way are there. -/
theorem locate_of_parents (hp : p.IsNormal) (hne : placeOf p ≠ [])
    (hdirs : ∀ front, front <+: (placeOf p).dropLast → t.hasDirectory front = true) :
    t.locate p = .ok (placeOf p) := by
  unfold locate
  rw [follow_components hp, follow_names_eq [] _ hdirs, endsInDirectory_of_placeOf hp hne]
  rfl

/-- A written file is found at its path. -/
theorem isFile_of_write {c : Content} (hp : p.IsNormal) (h : t.write p c = .ok t') :
    t'.isFile p = true := by
  obtain ⟨hcontent, -, hdirectories⟩ := write_spec h
  have hfile : t'.hasFile (placeOf p) = true := by
    unfold hasFile
    rw [hcontent, if_pos rfl]
    rfl
  unfold isFile
  rw [locate_of_parents hp (placeOf_ne_nil h) hdirectories]
  exact hfile

end FileTree
end Bindery
