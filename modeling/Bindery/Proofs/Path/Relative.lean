import Bindery.Proofs.Path.Normalize

/-! The way from one absolute normal path to another, as it is written in a page, leads there when
it is resolved where it starts. -/

namespace Bindery.Path

/-- The steps of a relative path. -/
def steps (p : Path) : List Component := p.pieces.filterMap component?

theorem isStep_of_mem_steps {p : Path} : ∀ c ∈ p.steps, c.IsStep := fun _ =>
  isStep_of_mem_filterMap fun _ => Text.sep_not_mem_splitOn

theorem text_ne_empty {p : Path} (h : p.isAbsolute = true) : p.text ≠ "" := by
  obtain ⟨cs, hcs⟩ := isAbsolute_iff.1 h
  intro hempty
  rw [hempty] at hcs
  cases hcs

theorem resolve_eq {base target : Path} (hbase : base.isAbsolute = true)
    (htarget : target.isAbsolute = false) :
    base.resolve target = ofComponents (walk [] (base.components ++ target.steps)).reverse := by
  rw [resolve, Path.normalize_eq, components_join (text_ne_empty hbase) htarget]
  rfl

theorem isNormal_resolve {base target : Path} (hbase : base.isAbsolute = true)
    (htarget : target.isAbsolute = false) : (base.resolve target).IsNormal :=
  isNormal_walk hbase isStep_of_mem_steps (resolve_eq hbase htarget)

theorem isNormal_normalize {p : Path} (h : p.isAbsolute = true) : p.normalize.IsNormal := by
  have hnone : ∀ c ∈ ([] : List Component), c.IsStep := by simp
  refine isNormal_walk h hnone ?_
  rw [List.append_nil]
  rfl

theorem IsNormal.eq_ofComponents {p : Path} (h : p.IsNormal) :
    Pushes [] p.components ∧ p = ofComponents p.components := by
  obtain ⟨steps, hsteps, hcomponents⟩ := exists_steps h.absolute
  have hnone : ∀ c ∈ ([] : List Component), c.IsStep := by simp
  obtain ⟨stack, hstack, hwalk⟩ := walk_rooted hnone hsteps
  have hwalk' : walk [] p.components = stack ++ [.root] := by
    rw [hcomponents]
    exact hwalk
  have hp : p = rooted stack.reverse := by
    rw [← h.normalize_eq, Path.normalize_eq, hwalk']
    simp [rooted]
  have hread : p.components = .root :: stack.reverse := by
    rw [hp]
    exact components_rooted fun c hc => hstack c (List.mem_reverse.1 hc)
  constructor
  · rw [Pushes, hwalk', hread]
    simp
  · rw [hread]
    exact hp

theorem IsNormal.eq_of_components {p q : Path} (hp : p.IsNormal) (hq : q.IsNormal)
    (h : p.components = q.components) : p = q := by
  rw [hp.eq_ofComponents.2, hq.eq_ofComponents.2, h]

/-! The way between two paths. -/

/-- Steps up and down, or a dot where there are none. -/
def ofSteps (steps : List Component) : Path := if steps.isEmpty then ⟨"."⟩ else ofComponents steps

theorem components_ofSteps {steps : List Component} (h : ∀ c ∈ steps, c.IsStep) :
    (ofSteps steps).components = if steps.isEmpty then [.here] else steps := by
  unfold ofSteps
  split
  · decide
  · exact components_ofComponents (.relative h)

theorem not_isAbsolute_ofSteps {steps : List Component} (h : ∀ c ∈ steps, c.IsStep) :
    (ofSteps steps).isAbsolute = false := by
  rw [Bool.eq_false_iff]
  intro habsolute
  obtain ⟨cs, hcs⟩ := isAbsolute_iff_components.1 habsolute
  rw [components_ofSteps h] at hcs
  split at hcs
  · cases hcs
  · exact h .root (hcs ▸ List.mem_cons_self)

theorem steps_ofSteps {cs : List Component} (h : ∀ c ∈ cs, c.IsStep) : (ofSteps cs).steps = cs := by
  cases cs with
  | nil => decide
  | cons c cs =>
    have hcomponents : (ofSteps (c :: cs)).components = c :: cs := components_ofSteps h
    rcases components_of_relative (not_isAbsolute_ofSteps h) with heq | heq
    · exact heq.symm.trans hcomponents
    · rw [hcomponents] at heq
      exact absurd (List.cons.inj heq).1 (h c List.mem_cons_self).ne_here

theorem ofComponents_eq_intercalate {cs : List Component} (h : ∀ c ∈ cs, c ≠ .root) :
    ofComponents cs = ⟨"/".intercalate (cs.map Component.text)⟩ := by
  cases cs with
  | nil => rfl
  | cons c cs =>
    cases c with
    | root => exact absurd rfl (h .root List.mem_cons_self)
    | here | up | name => rfl

/-- In a page the way is written as it is. -/
theorem url_ofSteps {cs : List Component} (h : ∀ c ∈ cs, c.IsStep) :
    (⟨(ofSteps cs).url⟩ : Path) = ofSteps cs := by
  cases cs with
  | nil => decide
  | cons c cs =>
    have hcomponents : (ofSteps (c :: cs)).components = c :: cs := components_ofSteps h
    have hroot : ∀ d ∈ c :: cs, d ≠ .root := fun d hd => (h d hd).ne_root
    have htext : ((c :: cs).map fun d => if d = .root then "" else d.text) =
        (c :: cs).map Component.text :=
      List.map_congr_left fun d hd => if_neg (hroot d hd)
    unfold url
    rw [hcomponents, htext]
    exact (ofComponents_eq_intercalate hroot).symm

theorem stripCommon_spec (as bs : List Component) : ∃ common,
    as = common ++ (stripCommon as bs).1 ∧ bs = common ++ (stripCommon as bs).2 := by
  induction as generalizing bs with
  | nil => exact ⟨[], rfl, by cases bs <;> rfl⟩
  | cons a as ih =>
    cases bs with
    | nil => exact ⟨[], rfl, rfl⟩
    | cons b bs =>
      rw [stripCommon]
      split
      · next heq =>
        obtain ⟨common, has, hbs⟩ := ih bs
        exact ⟨a :: common, congrArg (a :: ·) has, heq ▸ congrArg (a :: ·) hbs⟩
      · exact ⟨[], rfl, rfl⟩

theorem steps_of_append_eq {common back steps : List Component} (h : steps = common ++ back)
    (hsteps : ∀ c ∈ steps, c.IsStep) : (∀ c ∈ common, c.IsStep) ∧ ∀ c ∈ back, c.IsStep := by
  subst h
  exact ⟨fun c hc => hsteps c (List.mem_append_left _ hc),
    fun c hc => hsteps c (List.mem_append_right _ hc)⟩

/-- The way leads up from what is not common and down to the target. -/
theorem relative_eq {base target : Path} (hbase : base.isAbsolute = true)
    (htarget : target.isAbsolute = true) : ∃ common back forth : List Component,
    (∀ c ∈ forth, c.IsStep) ∧ base.components = .root :: (common ++ back) ∧
    target.components = .root :: (common ++ forth) ∧
    base.relative target = ofSteps ((back.map fun _ => .up) ++ forth) := by
  obtain ⟨as, has, hbase⟩ := exists_steps hbase
  obtain ⟨bs, hbs, htarget⟩ := exists_steps htarget
  obtain ⟨common, hback, hforth⟩ := stripCommon_spec as bs
  have hstrip : stripCommon (.root :: as) (.root :: bs) = stripCommon as bs := if_pos rfl
  refine ⟨common, (stripCommon as bs).1, (stripCommon as bs).2, ?_, ?_, ?_, ?_⟩
  · exact (steps_of_append_eq hforth hbs).2
  · rw [hbase, ← hback]
  · rw [htarget, ← hforth]
  · have hups := (steps_of_append_eq hback has).2
    have hdowns := (steps_of_append_eq hforth hbs).2
    have hkept : (stripCommon as bs).1.filter (fun c => c != .root && c != .here) =
        (stripCommon as bs).1 := by
      refine List.filter_eq_self.2 fun c hc => ?_
      simp [(hups c hc).ne_root, (hups c hc).ne_here]
    have hall : (stripCommon as bs).2.filter (· != .here) = (stripCommon as bs).2 := by
      refine List.filter_eq_self.2 fun c hc => ?_
      simp [(hdowns c hc).ne_here]
    have hhead : ((stripCommon as bs).2.head? == some .root) = false := by
      rw [beq_eq_false_iff_ne]
      intro hhead
      exact (hdowns .root (List.mem_of_head? hhead)).ne_root rfl
    unfold relative ofSteps
    simp only [hbase, htarget, hstrip, hkept, hall, hhead, Bool.false_eq_true, if_false]

theorem isStep_of_mem_way {back forth : List Component} (hforth : ∀ c ∈ forth, c.IsStep) :
    ∀ c ∈ (back.map fun _ => Component.up) ++ forth, c.IsStep := by
  intro c hc
  rcases List.mem_append.1 hc with hc | hc
  · obtain ⟨_, -, rfl⟩ := List.mem_map.1 hc
    trivial
  · exact hforth c hc

/-- Resolving the way from `base` to `target` at `base` leads to `target`. -/
theorem resolve_relative {base target : Path} (hbase : base.IsNormal) (htarget : target.IsNormal) :
    base.resolve (base.relative target) = target := by
  obtain ⟨common, back, forth, hforth, hb, ht, hway⟩ := relative_eq hbase.absolute htarget.absolute
  have hsteps : ∀ c ∈ (back.map fun _ => Component.up) ++ forth, c.IsStep := isStep_of_mem_way hforth
  have hup : walk [] base.components = back.reverse ++ (common.reverse ++ [.root]) := by
    rw [hbase.eq_ofComponents.1, hb]
    simp
  have hback : walk (walk [] base.components) (back.map fun _ => .up) = common.reverse ++ [.root] := by
    have hsame : (back.map fun _ => Component.up) = back.reverse.map fun _ => .up := by
      simp [List.map_const']
    rw [hup, hsame, walk_ups _ (by simp)]
  have hdown : Pushes (common.reverse ++ [.root]) forth := by
    have hpushes := htarget.eq_ofComponents.1
    rw [ht, ← List.cons_append] at hpushes
    simpa using hpushes.append.2
  rw [hway, resolve_eq hbase.absolute (not_isAbsolute_ofSteps hsteps), steps_ofSteps hsteps,
    walk_append, walk_append, hback, hdown]
  simpa [ht] using htarget.eq_ofComponents.2.symm

theorem relative_eq_ofSteps {base target : Path} (hbase : base.isAbsolute = true)
    (htarget : target.isAbsolute = true) :
    ∃ cs, (∀ c ∈ cs, c.IsStep) ∧ base.relative target = ofSteps cs := by
  obtain ⟨-, back, forth, hforth, -, -, hway⟩ := relative_eq hbase htarget
  exact ⟨_, isStep_of_mem_way hforth, hway⟩

theorem not_isAbsolute_relative {base target : Path} (hbase : base.isAbsolute = true)
    (htarget : target.isAbsolute = true) : (base.relative target).isAbsolute = false := by
  obtain ⟨cs, hcs, hway⟩ := relative_eq_ofSteps hbase htarget
  rw [hway]
  exact not_isAbsolute_ofSteps hcs

/-- The way keeps its text when it is written in a page. -/
theorem url_relative {base target : Path} (hbase : base.isAbsolute = true)
    (htarget : target.isAbsolute = true) :
    (base.relative target).url = (base.relative target).text := by
  obtain ⟨cs, hcs, hway⟩ := relative_eq_ofSteps hbase htarget
  rw [hway]
  exact congrArg Path.text (url_ofSteps hcs)

theorem stripCommon_append (as bs : List Component) : stripCommon as (as ++ bs) = ([], bs) := by
  induction as with
  | nil => cases bs <;> rfl
  | cons a as ih => exact (if_pos rfl).trans ih

/-- The way down from a directory. -/
theorem relative_of_append {base target : Path} {rest : List Component}
    (hbase : base.isAbsolute = true) (h : target.components = base.components ++ rest) :
    (∀ c ∈ rest, c.IsStep) ∧ base.relative target = ofSteps rest := by
  have htarget : target.isAbsolute = true := by
    obtain ⟨cs, hcs⟩ := isAbsolute_iff_components.1 hbase
    exact isAbsolute_iff_components.2 ⟨cs ++ rest, by rw [h, hcs]; rfl⟩
  obtain ⟨as, has, hbase⟩ := exists_steps hbase
  obtain ⟨bs, hbs, hcomponents⟩ := exists_steps htarget
  have hrest : ∀ c ∈ rest, c.IsStep := by
    intro c hc
    rw [hcomponents, hbase, List.cons_append] at h
    exact hbs c ((List.cons.inj h).2 ▸ List.mem_append_right _ hc)
  refine ⟨hrest, ?_⟩
  have hall : rest.filter (· != .here) = rest :=
    List.filter_eq_self.2 fun c hc => by simp [(hrest c hc).ne_here]
  have hhead : (rest.head? == some .root) = false := by
    rw [beq_eq_false_iff_ne]
    intro hhead
    exact (hrest .root (List.mem_of_head? hhead)).ne_root rfl
  unfold relative ofSteps
  rw [h, stripCommon_append]
  simp [hall, hhead]

/-- The way from a directory to itself leads nowhere. -/
theorem resolve_relative_self {base p : Path} (hbase : base.isAbsolute = true) (hp : p.IsNormal) :
    p.resolve (base.relative base) = p := by
  have hnone := (relative_of_append hbase (List.append_nil base.components).symm).2
  have hnone' := (relative_of_append hp.absolute (List.append_nil p.components).symm).2
  rw [hnone, ← hnone']
  exact resolve_relative hp hp

/-- A way that ends in a name leads to a path that ends in it. -/
theorem components_resolve_concat {base target : Path} (hbase : base.isAbsolute = true)
    (htarget : target.isAbsolute = false) {rest : List Component} {s : String}
    (h : target.steps = rest ++ [.name s]) :
    ∃ front, (base.resolve target).components = front ++ [.name s] := by
  obtain ⟨bs, hbs, hcomponents⟩ := exists_steps hbase
  have hsteps : ∀ c ∈ rest ++ [.name s], c.IsStep := h ▸ isStep_of_mem_steps
  have hall : ∀ c ∈ bs ++ rest, c.IsStep := by
    intro c hc
    rcases List.mem_append.1 hc with hc | hc
    · exact hbs c hc
    · exact hsteps c (List.mem_append_left _ hc)
  have hnone : ∀ c ∈ ([] : List Component), c.IsStep := by simp
  obtain ⟨stack, hstack, hwalk⟩ := walk_rooted hnone hall
  have hwalk' : walk [] (base.components ++ target.steps) = .name s :: (stack ++ [.root]) := by
    have hsplit : base.components ++ target.steps = (.root :: (bs ++ rest)) ++ [.name s] := by
      rw [hcomponents, h]
      simp
    have hfront : walk [] (.root :: (bs ++ rest)) = stack ++ [.root] := hwalk
    rw [hsplit, walk_append, hfront]
    rfl
  have hwritten : Written (.root :: (stack.reverse ++ [.name s])) := by
    refine .absolute fun c hc => ?_
    rcases List.mem_append.1 hc with hc | hc
    · exact hstack c (List.mem_reverse.1 hc)
    · exact hsteps c (List.mem_append_right _ hc)
  refine ⟨.root :: stack.reverse, ?_⟩
  rw [resolve_eq hbase htarget, hwalk']
  simpa using components_ofComponents hwritten

/-! A dot in front of the way, and the directory of a file. -/

theorem pieces_dotted (p : Path) : (⟨"./" ++ p.text⟩ : Path).pieces = ['.'] :: p.pieces := by
  have hdot : "./".toList = ['.', '/'] := rfl
  rw [pieces_eq_splitOn, pieces_eq_splitOn, String.toList_append, hdot]
  exact List.splitOn_append_cons_self ['.'] p.text.toList

theorem not_isAbsolute_dotted (p : Path) : (⟨"./" ++ p.text⟩ : Path).isAbsolute = false :=
  not_isAbsolute_of_first (pieces_dotted p) (by decide)

theorem resolve_dotted {base target : Path} (hbase : base.isAbsolute = true)
    (htarget : target.isAbsolute = false) :
    base.resolve ⟨"./" ++ target.text⟩ = base.resolve target := by
  have hsteps : (⟨"./" ++ target.text⟩ : Path).steps = target.steps := by
    rw [steps, pieces_dotted]
    rfl
  rw [resolve_eq hbase (not_isAbsolute_dotted target), resolve_eq hbase htarget, hsteps]

theorem isNormal_resolve_of_absolute {base : Path} (hbase : base.isAbsolute = true)
    (target : Path) : (base.resolve target).IsNormal := by
  cases htarget : target.isAbsolute with
  | true =>
    rw [resolve, join, if_pos htarget]
    exact isNormal_normalize htarget
  | false => exact isNormal_resolve hbase htarget

theorem IsNormal.parent {p dir : Path} (h : p.IsNormal) (hdir : p.parent? = some dir) :
    dir.IsNormal := by
  obtain ⟨steps, hsteps, hcomponents⟩ := exists_steps h.absolute
  have hpushes := h.eq_ofComponents.1
  rw [hcomponents] at hpushes
  unfold parent? at hdir
  rw [hcomponents] at hdir
  rcases List.eq_nil_or_concat steps with rfl | ⟨front, c, rfl⟩
  · cases hdir
  · have hsplit : Component.root :: (front ++ [c]) = (.root :: front) ++ [c] := rfl
    rw [List.concat_eq_append] at hsteps hpushes hdir
    rw [hsplit] at hpushes hdir
    have hfront : dir = rooted front := by
      rw [List.reverse_append, List.reverse_cons] at hdir
      simpa [rooted] using hdir.symm
    rw [hfront]
    exact isNormal_rooted (fun d hd => hsteps d (List.mem_append_left _ hd)) hpushes.append.1

/-- Only the root has no parent. -/
theorem IsNormal.components_eq_of_parent {p : Path} (h : p.IsNormal) (hparent : p.parent? = none) :
    p.components = [.root] := by
  obtain ⟨steps, hsteps, hcomponents⟩ := exists_steps h.absolute
  unfold parent? at hparent
  rw [hcomponents] at hparent ⊢
  rcases List.eq_nil_or_concat steps with rfl | ⟨front, c, rfl⟩
  · rfl
  · rw [List.concat_eq_append, ← List.cons_append, List.reverse_append] at hparent
    cases c <;> simp at hparent

/-- The steps of a normal path are names, but for one step up in front of them. -/
theorem IsNormal.exists_names {p : Path} (h : p.IsNormal) : ∃ names : List String,
    p.components = .root :: names.map .name ∨ p.components = .root :: .up :: names.map .name := by
  obtain ⟨steps, hsteps, hcomponents⟩ := exists_steps h.absolute
  have hpushes := h.eq_ofComponents.1
  rw [hcomponents] at hpushes ⊢
  clear hcomponents
  induction steps using List.reverseRecOn with
  | nil => exact ⟨[], .inl rfl⟩
  | append_singleton front c ih =>
    rw [← List.cons_append] at hpushes
    obtain ⟨hfront, hlast⟩ := hpushes.append
    obtain ⟨names, hnames⟩ := ih (fun d hd => hsteps d (List.mem_append_left _ hd)) hfront
    cases c with
    | name s =>
      refine ⟨names ++ [s], hnames.imp (fun hnames => ?_) fun hnames => ?_⟩
      · rw [← List.cons_append, hnames, List.map_append]
        rfl
      · rw [← List.cons_append, hnames, List.map_append]
        rfl
    | up =>
      -- A step up stays only where there is nothing to take back.
      cases hrev : front.reverse with
      | nil =>
        obtain rfl := List.reverse_eq_nil_iff.1 hrev
        exact ⟨[], .inr rfl⟩
      | cons d ds =>
        rw [List.reverse_cons, hrev] at hlast
        have hlength := congrArg List.length hlast
        simp [walk_cons, normalizeStep] at hlength
    | root => exact (hsteps .root (List.mem_append_right _ List.mem_cons_self)).elim
    | here => exact (hsteps .here (List.mem_append_right _ List.mem_cons_self)).elim

end Bindery.Path
