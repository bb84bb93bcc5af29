import Bindery.Proofs.Path.Extension

/-! The steps of the way from one directory to another: first up, then down by names. Where a way leads
from another one is told by how high it climbs and by the names behind, and the way to a page differs
from the way to its document in the last name. -/

namespace Bindery.Path

theorem walk_names (stack : List Component) (names : List String) :
    walk stack (names.map .name) = (names.map Component.name).reverse ++ stack := by
  induction names generalizing stack with
  | nil => rfl
  | cons s names ih =>
    rw [List.map_cons, walk_cons, List.reverse_cons, List.append_assoc]
    exact ih (.name s :: stack)

/-- What is left of names behind their beginning is names. -/
theorem exists_names_of_append {front rest : List Component} {names : List String}
    (h : front ++ rest = names.map .name) : ∃ names' : List String, rest = names'.map .name := by
  obtain ⟨-, names', -, -, hrest⟩ := List.map_eq_append_iff.1 h.symm
  exact ⟨names', hrest.symm⟩

/-- A normal path with a step up lies above the root of the file system. -/
theorem IsNormal.exists_of_up_mem {p : Path} (h : p.IsNormal) (hup : .up ∈ p.components) :
    ∃ names : List String, p.components = .root :: .up :: names.map .name := by
  obtain ⟨names, hnames | hnames⟩ := h.exists_names
  · rw [hnames] at hup
    simp at hup
  · exact ⟨names, hnames⟩

/-- The way down from a directory goes by names, but for a step up that lies behind the root. -/
theorem exists_names_of_within {base target : Path} (hbase : base.isAbsolute = true)
    (htarget : target.IsNormal) {rest : List Component}
    (h : base.components ++ rest = target.components)
    (hup : base.components = [.root] → .up ∉ target.components) :
    ∃ names : List String, rest = names.map .name := by
  obtain ⟨bs, -, hcomponents⟩ := exists_steps hbase
  obtain ⟨names, hnames | hnames⟩ := htarget.exists_names
  · rw [hcomponents, hnames, List.cons_append] at h
    exact exists_names_of_append (List.cons.inj h).2
  · rw [hcomponents, hnames] at hup
    cases bs with
    | nil => simp at hup
    | cons c bs =>
      rw [hcomponents, hnames, List.cons_append, List.cons_append] at h
      exact exists_names_of_append (List.cons.inj (List.cons.inj h).2).2

/-- Steps from a normal directory are taken on the stack of its components. -/
theorem components_resolve_ofSteps {base : Path} (hbase : base.IsNormal) {steps : List Component}
    (hsteps : ∀ c ∈ steps, c.IsStep) :
    (base.resolve (ofSteps steps)).components = (walk base.components.reverse steps).reverse := by
  obtain ⟨bs, hbs, hcomponents⟩ := exists_steps hbase.absolute
  have hpushes := hbase.eq_ofComponents.1
  have hstack : ∀ c ∈ bs.reverse, c.IsStep := fun c hc => hbs c (List.mem_reverse.1 hc)
  obtain ⟨stack, hall, hwalk⟩ := walk_rooted hstack hsteps
  have hwalk' : walk base.components.reverse steps = stack ++ [.root] := by
    rw [hcomponents, List.reverse_cons]
    exact hwalk
  have hfrom : walk [] (base.components ++ (ofSteps steps).steps) = stack ++ [.root] := by
    rw [steps_ofSteps hsteps, walk_append, hpushes, List.append_nil, hwalk']
  have hwritten : Written (.root :: stack.reverse) :=
    .absolute fun c hc => hall c (List.mem_reverse.1 hc)
  rw [resolve_eq hbase.absolute (not_isAbsolute_ofSteps hsteps), hfrom, hwalk',
    List.reverse_append]
  exact components_ofComponents hwritten

theorem components_resolve_names {base : Path} (hbase : base.IsNormal) {names : List String}
    (hsteps : ∀ c ∈ names.map Component.name, c.IsStep) :
    (base.resolve (ofSteps (names.map .name))).components = base.components ++ names.map .name := by
  rw [components_resolve_ofSteps hbase hsteps, walk_names, List.reverse_append,
    List.reverse_reverse, List.reverse_reverse]

/-- Names lead into the directory they start from. -/
theorem isWithin_resolve_names {base : Path} (hbase : base.IsNormal) {names : List String}
    (hsteps : ∀ c ∈ names.map Component.name, c.IsStep) :
    base.isWithin (base.resolve (ofSteps (names.map .name))) = true := by
  unfold isWithin
  rw [components_resolve_names hbase hsteps]
  exact List.isPrefixOf_iff_prefix.2 (List.prefix_append _ _)

/-! Ways that climb. -/

/-- The components of the directory so many levels above `p`. A step up from the root of the file system
stays in the path, and the next one takes it back. -/
def above (p : Path) (climbs : Nat) : List Component :=
  if climbs < p.components.length then p.components.take (p.components.length - climbs)
  else if (climbs - p.components.length) % 2 = 0 then [.root, .up] else [.root]

theorem above_zero {p : Path} (h : p.isAbsolute = true) : p.above 0 = p.components := by
  obtain ⟨cs, hcs⟩ := isAbsolute_iff_components.1 h
  rw [above, hcs]
  simp

theorem normalizeStep_up {stack : List Component} (c : Component) (h : stack ≠ []) :
    normalizeStep (c :: stack) .up = stack := by
  obtain ⟨x, xs, rfl⟩ := List.exists_cons_of_ne_nil h
  cases c <;> rfl

theorem normalizeStep_above {p : Path} (h : p.isAbsolute = true) (climbs : Nat) :
    normalizeStep (p.above climbs).reverse .up = (p.above (climbs + 1)).reverse := by
  obtain ⟨cs, hcs⟩ := isAbsolute_iff_components.1 h
  have hlength : 0 < p.components.length := by simp [hcs]
  unfold above
  rcases Nat.lt_trichotomy (climbs + 1) p.components.length with hlt | heq | hgt
  · -- There is a directory to take back.
    have hbelow : climbs < p.components.length := Nat.lt_of_succ_lt hlt
    have hlast : p.components.length - (climbs + 1) < p.components.length := by omega
    have hsucc : p.components.length - climbs = p.components.length - (climbs + 1) + 1 := by omega
    have hne : (p.components.take (p.components.length - (climbs + 1))).reverse ≠ [] := by
      apply List.ne_nil_of_length_pos
      rw [List.length_reverse, List.length_take]
      omega
    rw [if_pos hbelow, if_pos hlt, hsucc, ← List.take_append_getElem hlast, List.reverse_append]
    exact normalizeStep_up _ hne
  · -- Only the root is left, and the step stays behind it.
    have hone : p.components.length - climbs = 1 := by omega
    rw [if_pos (heq ▸ Nat.lt_succ_self climbs), if_neg (Nat.not_lt.2 heq.ge), hone, ← heq, hcs,
      Nat.sub_self]
    rfl
  · -- From here on each second step takes back the one before.
    have hle : p.components.length ≤ climbs := Nat.le_of_lt_succ hgt
    have hparity : climbs + 1 - p.components.length = climbs - p.components.length + 1 := by omega
    rw [if_neg (Nat.not_lt.2 hle), if_neg (Nat.not_lt.2 hgt.le), hparity]
    rcases Nat.mod_two_eq_zero_or_one (climbs - p.components.length) with heven | hodd
    · rw [if_pos heven, if_neg (by omega)]
      rfl
    · rw [if_neg (by omega), if_pos (by omega)]
      rfl

/-- Steps up lead to the directory above. -/
theorem walk_replicate_up {p : Path} (h : p.isAbsolute = true) (climbs : Nat) :
    walk p.components.reverse (List.replicate climbs .up) = (p.above climbs).reverse := by
  induction climbs with
  | zero => rw [above_zero h, List.replicate_zero, walk_nil]
  | succ climbs ih =>
    rw [List.replicate_succ', walk_append, ih]
    exact normalizeStep_above h climbs

/-- A way that climbs and goes down by names. -/
def climbing (climbs : Nat) (names : List String) : List Component :=
  List.replicate climbs .up ++ names.map .name

theorem components_resolve_climbing {base : Path} (hbase : base.IsNormal) {climbs : Nat}
    {names : List String} (hsteps : ∀ c ∈ climbing climbs names, c.IsStep) :
    (base.resolve (ofSteps (climbing climbs names))).components =
      base.above climbs ++ names.map .name := by
  rw [components_resolve_ofSteps hbase hsteps, climbing, walk_append,
    walk_replicate_up hbase.absolute, walk_names, List.reverse_append, List.reverse_reverse,
    List.reverse_reverse]

/-- A step up and names lead out of a directory, unless it is the root or they lead back to it. -/
theorem isWithin_resolve_up {base : Path} (hbase : base.IsNormal) {names : List String}
    (hsteps : ∀ c ∈ Component.up :: names.map .name, c.IsStep) :
    base.isWithin (base.resolve (ofSteps (.up :: names.map .name))) = false ↔
      base.components ≠ [.root] ∧ (names.map Component.name).head? ≠ base.components.getLast? := by
  obtain ⟨bs, -, hcomponents⟩ := exists_steps hbase.absolute
  have hclimb : (base.resolve (ofSteps (.up :: names.map .name))).components =
      base.above 1 ++ names.map .name := @components_resolve_climbing base hbase 1 names hsteps
  unfold isWithin
  rw [hclimb, above, hcomponents]
  rcases List.eq_nil_or_concat bs with rfl | ⟨front, last, rfl⟩
  · simp
  · rw [List.concat_eq_append, ← List.cons_append]
    have habove : 1 < (Component.root :: front ++ [last]).length := by simp
    have hparent : (Component.root :: front ++ [last]).take
        ((Component.root :: front ++ [last]).length - 1) = Component.root :: front := by simp
    have hnames : ((Component.root :: front ++ [last]).isPrefixOf
        (Component.root :: front ++ names.map .name) = false) ↔
          (names.map Component.name).head? ≠ some last := by
      rw [Bool.eq_false_iff, ne_eq, List.isPrefixOf_iff_prefix, List.prefix_append_right_inj,
        not_iff_not]
      cases names.map Component.name with
      | nil => simp
      | cons c cs => simp [eq_comm]
    rw [if_pos habove, hparent, hnames, List.getLast?_concat]
    simp

/-- Every way to a normal path climbs first and goes down by names then. -/
theorem exists_climbing {base target : Path} (hbase : base.isAbsolute = true)
    (htarget : target.IsNormal) : ∃ climbs names,
    (∀ c ∈ climbing climbs names, c.IsStep) ∧
      base.relative target = ofSteps (climbing climbs names) := by
  obtain ⟨common, back, forth, hforth, -, hcomponents, hway⟩ :=
    relative_eq hbase htarget.absolute
  have hsteps : ∀ c ∈ (back.map fun _ => Component.up) ++ forth, c.IsStep := isStep_of_mem_way hforth
  rw [List.map_const'] at hsteps hway
  have hdown : ∀ names : List String, forth = names.map .name → ∃ climbs names,
      (∀ c ∈ climbing climbs names, c.IsStep) ∧
        base.relative target = ofSteps (climbing climbs names) := by
    rintro names rfl
    exact ⟨back.length, names, hsteps, hway⟩
  obtain ⟨names, hnames | hnames⟩ := htarget.exists_names
  · rw [hnames] at hcomponents
    obtain ⟨names', hnames'⟩ := exists_names_of_append (List.cons.inj hcomponents).2.symm
    exact hdown names' hnames'
  · rw [hnames] at hcomponents
    cases common with
    | nil =>
      -- The step up is one more to climb.
      obtain rfl : .up :: names.map .name = forth := (List.cons.inj hcomponents).2
      refine ⟨back.length + 1, names, ?_, ?_⟩
      · rw [climbing, List.replicate_succ', List.append_assoc]
        exact hsteps
      · rw [climbing, List.replicate_succ', List.append_assoc]
        exact hway
    | cons c common =>
      have htail := (List.cons.inj (List.cons.inj hcomponents).2).2
      obtain ⟨names', hnames'⟩ := exists_names_of_append htail.symm
      exact hdown names' hnames'

/-! A way with another extension. -/

theorem exists_front_ofSteps {steps : List Component} (h : ∀ c ∈ steps, c.IsStep) :
    ∃ front : List Char, ∀ s : String,
      (ofSteps (steps ++ [.name s])).text.toList = front ++ s.toList := by
  obtain ⟨front, hfront⟩ := intercalate_concat (steps.map fun c => c.text.toList)
  refine ⟨front, fun s => ?_⟩
  have hslash : "/".toList = ['/'] := rfl
  have hsome : (steps ++ [Component.name s]).isEmpty = false := by simp
  have hroot : ∀ c ∈ steps ++ [Component.name s], c ≠ .root := by
    intro c hc
    rcases List.mem_append.1 hc with hc | hc
    · exact (h c hc).ne_root
    · rw [List.mem_singleton.1 hc]
      nofun
  have htext := hfront s.toList
  rw [ofSteps, hsome, if_neg nofun, ofComponents_eq_intercalate hroot, String.toList_intercalate,
    hslash, List.map_map, List.map_append]
  exact htext

theorem withExtension_ofSteps {steps : List Component} {s : String} (ext : String)
    (h : ∀ c ∈ steps ++ [.name s], c.IsStep) : (ofSteps (steps ++ [.name s])).withExtension ext =
      ofSteps (steps ++ [.name (String.ofList (stem s) ++ "." ++ ext)]) := by
  have hs : (Component.name s).IsStep := h _ (by simp)
  obtain ⟨front, hfront⟩ := exists_front_ofSteps fun c hc => h c (List.mem_append_left _ hc)
  have hsome : (steps ++ [Component.name s]).isEmpty = false := by simp
  have hcomponents : (ofSteps (steps ++ [.name s])).components = steps ++ [.name s] := by
    rw [components_ofSteps h, hsome, if_neg nofun]
  apply eq_of_toList
  rw [hfront]
  exact toList_withExtension ext hs (hfront s) (fileName?_eq hcomponents)

/-- A path that ends in no name has no extension to replace. -/
theorem withExtension_eq_self {p : Path} (ext : String) (h : p.fileName? = none) :
    p.withExtension ext = p := by
  unfold withExtension
  rw [h]

/-! The way to a page. -/

variable {base target : Path}

/-- The extension of a path below a directory changes as that of the way to it does. -/
theorem relative_withExtension (hbase : base.isAbsolute = true) (htarget : target.IsNormal)
    {front : List Component} {s : String}
    (h : target.components = base.components ++ (front ++ [.name s])) :
    ∃ t, (target.withExtension "html").components = base.components ++ (front ++ [.name t]) ∧
      (base.relative target).withExtension "html" =
        base.relative (target.withExtension "html") := by
  obtain ⟨bs, hbs, hcomponents⟩ := exists_steps hbase
  obtain ⟨hsteps, hway⟩ := relative_of_append hbase h
  have hall : ∀ c ∈ bs ++ front ++ [.name s], c.IsStep := by
    rw [List.append_assoc]
    exact List.forall_mem_append.2 ⟨hbs, hsteps⟩
  have htarget_eq : target = rooted (bs ++ front ++ [.name s]) := by
    rw [htarget.eq_ofComponents.2, h, hcomponents, rooted, List.append_assoc]
    rfl
  have hpage : (target.withExtension "html").components =
      base.components ++ (front ++ [.name (String.ofList (stem s) ++ "." ++ "html")]) := by
    rw [htarget_eq, withExtension_rooted "html" hall, components_rooted (isStep_page hall),
      hcomponents, List.append_assoc]
    rfl
  refine ⟨_, hpage, ?_⟩
  rw [hway, withExtension_ofSteps "html" hsteps, (relative_of_append hbase hpage).2]

/-- A longer list goes on from another one whatever it ends with. -/
theorem exists_append_concat_iff {front rest : List Component} {c : Component} :
    (∃ more, more ≠ [] ∧ front ++ more = rest ++ [c]) ↔ front <+: rest := by
  constructor
  · rintro ⟨more, hmore, heq⟩
    obtain ⟨before, last, rfl⟩ := (List.eq_nil_or_concat more).resolve_left hmore
    rw [List.concat_eq_append, ← List.append_assoc] at heq
    exact ⟨before, (List.append_inj' heq rfl).1⟩
  · rintro ⟨more, rfl⟩
    exact ⟨more ++ [c], by simp, (List.append_assoc _ _ _).symm⟩

theorem IsNormal.below_iff (hbase : base.IsNormal) (htarget : target.IsNormal) :
    (base.isWithin target = true ∧ target ≠ base) ↔
      ∃ rest, rest ≠ [] ∧ base.components ++ rest = target.components := by
  constructor
  · rintro ⟨hwithin, hne⟩
    obtain ⟨rest, hrest⟩ := List.isPrefixOf_iff_prefix.1 hwithin
    refine ⟨rest, ?_, hrest⟩
    rintro rfl
    rw [List.append_nil] at hrest
    exact hne (htarget.eq_of_components hbase hrest.symm)
  · rintro ⟨rest, hne, hrest⟩
    refine ⟨List.isPrefixOf_iff_prefix.2 ⟨rest, hrest⟩, ?_⟩
    rintro rfl
    exact hne (List.append_right_eq_self.1 hrest)

theorem fileName?_climbing (climbs : Nat) : (ofSteps (climbing climbs [])).fileName? = none := by
  cases climbs with
  | zero => decide
  | succ climbs =>
    have hsteps : ∀ c ∈ List.replicate (climbs + 1) Component.up, c.IsStep := by
      intro c hc
      rw [List.eq_of_mem_replicate hc]
      trivial
    have hcomponents : (ofSteps (climbing (climbs + 1) [])).components =
        List.replicate climbs .up ++ [.up] := by
      rw [climbing, List.map_nil, List.append_nil, components_ofSteps hsteps, ← List.replicate_succ']
      rfl
    rw [fileName?, hcomponents, List.getLast?_concat]

/-- The way to the page climbs as the way to the entry does, and differs from it in the last name. -/
theorem withExtension_climbing {climbs : Nat} {names : List String}
    (hsteps : ∀ c ∈ climbing climbs names, c.IsStep) : ∃ names',
      (ofSteps (climbing climbs names)).withExtension "html" = ofSteps (climbing climbs names') ∧
        (∀ c ∈ climbing climbs names', c.IsStep) ∧
        (names' = names ∨ ∃ front s t, names = front ++ [s] ∧ names' = front ++ [t]) := by
  rcases List.eq_nil_or_concat names with rfl | ⟨front, s, rfl⟩
  · exact ⟨[], withExtension_eq_self "html" (fileName?_climbing climbs), hsteps, .inl rfl⟩
  · rw [List.concat_eq_append] at hsteps ⊢
    have hsplit : ∀ t, climbing climbs (front ++ [t]) = climbing climbs front ++ [.name t] := by
      intro t
      rw [climbing, climbing, List.map_append, List.append_assoc]
      rfl
    rw [hsplit] at hsteps ⊢
    refine ⟨front ++ [String.ofList (stem s) ++ "." ++ "html"], ?_, ?_,
      .inr ⟨front, s, _, rfl, rfl⟩⟩
    · rw [hsplit, withExtension_ofSteps "html" hsteps]
    · rw [hsplit]
      exact isStep_page hsteps

/-- A page lies below the directory that the way to it starts from when the names of the way lead back
there from the height it climbs to. -/
theorem below_climbing_iff (hbase : base.IsNormal) {climbs : Nat} {names : List String}
    (hsteps : ∀ c ∈ climbing climbs names, c.IsStep)
    (htarget : target = base.resolve ((ofSteps (climbing climbs names)).withExtension "html")) :
    (base.isWithin target = true ∧ target ≠ base) ↔
      ∃ rest, rest ≠ [] ∧ base.components ++ rest = base.above climbs ++ names.map .name := by
  obtain ⟨names', hway, hsteps', hnames⟩ := withExtension_climbing hsteps
  have hcomponents : target.components = base.above climbs ++ names'.map .name := by
    rw [htarget, hway, components_resolve_climbing hbase hsteps']
  have hnormal : target.IsNormal := htarget ▸ isNormal_resolve_of_absolute hbase.absolute _
  rw [hbase.below_iff hnormal, hcomponents]
  rcases hnames with rfl | ⟨front, s, t, rfl, rfl⟩
  · rfl
  · -- Another last name neither hides the directory nor shows it.
    rw [List.map_append, List.map_append, ← List.append_assoc, ← List.append_assoc]
    exact exists_append_concat_iff.trans exists_append_concat_iff.symm

end Bindery.Path
