import Bindery.Proofs.Path.Relative

/-! Normalization as a map to canonical paths. What it writes is read back as the stack it ended with,
and that is a stack which it only pushes, so to normalize a second time changes nothing. -/

namespace Bindery.Path

theorem isStep_of_mem_walk {stack cs : List Component} (hstack : ∀ c ∈ stack, c.IsStep)
    (hcs : ∀ c ∈ cs, c.IsStep) : ∀ c ∈ walk stack cs, c.IsStep := by
  induction cs generalizing stack with
  | nil => exact hstack
  | cons c cs ih =>
    have hc := hcs c List.mem_cons_self
    have hnext : ∀ d ∈ normalizeStep stack c, d.IsStep := by
      cases c with
      | root => exact hc.elim
      | here => exact hc.elim
      | name s => exact List.forall_mem_cons.2 ⟨hc, hstack⟩
      | up =>
        cases stack with
        | nil => exact List.forall_mem_cons.2 ⟨hc, hstack⟩
        | cons d stack =>
          obtain ⟨hd, hrest⟩ := List.forall_mem_cons.1 hstack
          cases d with
          | root => exact hd.elim
          | here => exact hd.elim
          | name s => exact hrest
          | up => exact hrest
    exact ih hnext fun d hd => hcs d (List.mem_cons_of_mem _ hd)

/-- The stack of a relative path holds steps only. -/
theorem isStep_of_mem_walk_relative {p : Path} (h : p.isAbsolute = false) :
    ∀ c ∈ walk [] p.components, c.IsStep := by
  have hsteps := isStep_of_mem_walk (List.forall_mem_nil _) (isStep_of_mem_steps (p := p))
  rcases components_of_relative h with hcomponents | hcomponents
  · rwa [hcomponents]
  · rw [hcomponents]
    exact hsteps

theorem written_walk (p : Path) : Written (walk [] p.components).reverse := by
  cases h : p.isAbsolute with
  | true =>
    obtain ⟨steps, hsteps, hcomponents⟩ := exists_steps h
    obtain ⟨stack, hstack, hwalk⟩ := walk_rooted (List.forall_mem_nil _) hsteps
    have hwalk' : walk [] p.components = stack ++ [.root] := by
      rw [hcomponents]
      exact hwalk
    rw [hwalk', List.reverse_append]
    exact .absolute fun c hc => hstack c (List.mem_reverse.1 hc)
  | false =>
    exact .relative fun c hc => isStep_of_mem_walk_relative h c (List.mem_reverse.1 hc)

theorem components_normalize (p : Path) :
    p.normalize.components = (walk [] p.components).reverse := by
  rw [normalize_eq]
  exact components_ofComponents (written_walk p)

/-- To walk along a normalized path comes to the stack that it was written from. -/
theorem walk_components_normalize (p : Path) :
    walk [] p.normalize.components = walk [] p.components := by
  have hempty : Stable [] := rfl
  have hstable : Pushes [] (walk [] p.components).reverse := stable_walk hempty p.components
  rw [components_normalize, hstable, List.append_nil, List.reverse_reverse]

theorem normalize_normalize (p : Path) : p.normalize.normalize = p.normalize := by
  rw [normalize_eq p.normalize, walk_components_normalize, normalize_eq]

/-- Normalizing makes no path absolute. -/
theorem isAbsolute_of_normalize {p : Path} (h : p.normalize.isAbsolute = true) :
    p.isAbsolute = true := by
  rw [← Bool.not_eq_false]
  intro hrelative
  obtain ⟨cs, hcs⟩ := isAbsolute_iff_components.1 h
  rw [components_normalize] at hcs
  have hroot : Component.root ∈ walk [] p.components :=
    List.mem_reverse.1 (hcs ▸ List.mem_cons_self)
  exact (isStep_of_mem_walk_relative hrelative .root hroot).ne_root rfl

theorem isAbsolute_of_isWithin {base p : Path} (hbase : base.isAbsolute = true)
    (h : base.isWithin p = true) : p.isAbsolute = true := by
  obtain ⟨rest, hrest⟩ := List.isPrefixOf_iff_prefix.1 h
  obtain ⟨steps, hsteps⟩ := isAbsolute_iff_components.1 hbase
  refine isAbsolute_iff_components.2 ⟨steps ++ rest, ?_⟩
  rw [← hrest, hsteps]
  rfl

end Bindery.Path
