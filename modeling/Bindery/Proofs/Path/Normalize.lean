import Bindery.Proofs.Path.Components

/-! Normal forms of paths. Normalization runs over the components with a stack; a list that it only
pushes is normal, its beginnings are normal too, and every result of normalization is such a list.
The way from one absolute normal path to another leads there. -/

namespace Bindery.Path

/-- The stack after a list of components. -/
def walk (stack : List Component) (cs : List Component) : List Component :=
  cs.foldl normalizeStep stack

@[simp] theorem walk_nil (stack : List Component) : walk stack [] = stack := rfl

theorem walk_cons (stack : List Component) (c : Component) (cs : List Component) :
    walk stack (c :: cs) = walk (normalizeStep stack c) cs := rfl

theorem walk_append (stack cs ds : List Component) :
    walk stack (cs ++ ds) = walk (walk stack cs) ds := List.foldl_append

theorem normalize_eq (p : Path) : p.normalize = ofComponents (walk [] p.components).reverse := rfl

/-! A stack that came about by pushing alone. -/

theorem normalizeStep_cases (stack : List Component) (c : Component) :
    normalizeStep stack c = c :: stack ∨ (normalizeStep stack c).length ≤ stack.length := by
  cases c with
  | here => exact .inr (Nat.le_refl _)
  | name s => exact .inl rfl
  | root =>
    cases stack with
    | nil => exact .inl rfl
    | cons x xs => exact .inr (by simp [normalizeStep])
  | up =>
    match stack with
    | [] => exact .inl rfl
    | [.root] => exact .inl rfl
    | [.here] | [.up] | [.name _] => exact .inr (by simp [normalizeStep])
    | x :: y :: xs => exact .inr (by cases x <;> simp [normalizeStep])

theorem length_walk_le (stack cs : List Component) :
    (walk stack cs).length ≤ stack.length + cs.length := by
  induction cs generalizing stack with
  | nil => exact Nat.le_refl _
  | cons c cs ih =>
    have hstep : (normalizeStep stack c).length ≤ stack.length + 1 := by
      rcases normalizeStep_cases stack c with h | h
      · rw [h, List.length_cons]
      · exact Nat.le_succ_of_le h
    have hrest := ih (normalizeStep stack c)
    rw [walk_cons, List.length_cons]
    omega

/-- Every component is pushed. -/
def Pushes (stack cs : List Component) : Prop := walk stack cs = cs.reverse ++ stack

/-- A walk that ends as high as it can has pushed every component. -/
theorem pushes_of_length {stack cs : List Component}
    (h : stack.length + cs.length ≤ (walk stack cs).length) : Pushes stack cs := by
  induction cs generalizing stack with
  | nil => rfl
  | cons c cs ih =>
    rw [walk_cons, List.length_cons] at h
    rcases normalizeStep_cases stack c with hpush | hshort
    · have hheight : (c :: stack).length + cs.length ≤ (walk (c :: stack) cs).length := by
        rw [hpush] at h
        rw [List.length_cons]
        omega
      have hrest := ih hheight
      rw [Pushes, walk_cons, hpush, hrest, List.reverse_cons, List.append_assoc]
      rfl
    · have hle := length_walk_le (normalizeStep stack c) cs
      omega

theorem Pushes.append {stack cs ds : List Component} (h : Pushes stack (cs ++ ds)) :
    Pushes stack cs ∧ Pushes (cs.reverse ++ stack) ds := by
  have hlength : (walk stack (cs ++ ds)).length = stack.length + (cs.length + ds.length) := by
    rw [h]
    simp
    omega
  rw [walk_append] at hlength
  have hfront := length_walk_le stack cs
  have hback := length_walk_le (walk stack cs) ds
  have hpushes : Pushes stack cs := pushes_of_length (by omega)
  refine ⟨hpushes, ?_⟩
  rw [hpushes] at hlength
  exact pushes_of_length (by rw [hlength]; simp; omega)

/-- Steps up take back what was pushed onto a stack. -/
theorem walk_ups (back : List Component) {stack : List Component} (hstack : stack ≠ []) :
    walk (back ++ stack) (back.map fun _ => .up) = stack := by
  induction back with
  | nil => rfl
  | cons c back ih =>
    obtain ⟨x, xs, hx⟩ := List.exists_cons_of_ne_nil
      (show back ++ stack ≠ [] from fun h => hstack (List.append_eq_nil_iff.1 h).2)
    have hpop : normalizeStep (c :: (back ++ stack)) .up = back ++ stack := by
      rw [hx]
      cases c <;> rfl
    rw [List.map_cons, walk_cons, List.cons_append, hpop, ih]

/-! Stacks of normalization. -/

/-- Each component of the stack is pushed onto those below it. -/
def Stable (stack : List Component) : Prop := Pushes [] stack.reverse

theorem stable_cons {c : Component} {stack : List Component} :
    Stable (c :: stack) ↔ Stable stack ∧ normalizeStep stack c = c :: stack := by
  unfold Stable
  rw [List.reverse_cons]
  constructor
  · intro h
    obtain ⟨hstack, hc⟩ := h.append
    refine ⟨hstack, ?_⟩
    rw [List.reverse_reverse, List.append_nil] at hc
    exact hc
  · rintro ⟨hstack, hc⟩
    rw [Pushes, walk_append, hstack, List.reverse_reverse, List.append_nil, walk_cons, hc]
    simp

theorem stable_normalizeStep {stack : List Component} (h : Stable stack) (c : Component) :
    Stable (normalizeStep stack c) := by
  rcases normalizeStep_cases stack c with hpush | -
  · rw [hpush]
    exact stable_cons.2 ⟨h, hpush⟩
  · cases c with
    | here => exact h
    | name s => exact stable_cons.2 ⟨h, rfl⟩
    | root => rfl
    | up =>
      match stack with
      | [] => rfl
      | [.root] => rfl
      | [.here] | [.up] | [.name _] => rfl
      | x :: y :: xs =>
        have hpop : normalizeStep (x :: y :: xs) .up = y :: xs := by cases x <;> rfl
        rw [hpop]
        exact (stable_cons.1 h).1

theorem stable_walk {stack : List Component} (h : Stable stack) (cs : List Component) :
    Stable (walk stack cs) := by
  induction cs generalizing stack with
  | nil => exact h
  | cons c cs ih => exact ih (stable_normalizeStep h c)

/-! Absolute paths. Below the stack lies the root, and all above it are steps. -/

theorem normalizeStep_rooted {steps : List Component} (h : ∀ c ∈ steps, c.IsStep) {c : Component}
    (hc : c.IsStep) : ∃ steps', (∀ d ∈ steps', d.IsStep) ∧
      normalizeStep (steps ++ [.root]) c = steps' ++ [.root] := by
  cases c with
  | root => exact hc.elim
  | here => exact hc.elim
  | name s =>
    refine ⟨.name s :: steps, fun d hd => ?_, rfl⟩
    rcases List.mem_cons.1 hd with rfl | hd
    · exact hc
    · exact h d hd
  | up =>
    cases steps with
    | nil => exact ⟨[.up], by simp [Component.IsStep], rfl⟩
    | cons x xs =>
      refine ⟨xs, fun d hd => h d (List.mem_cons_of_mem _ hd), ?_⟩
      obtain ⟨y, ys, hy⟩ := List.exists_cons_of_ne_nil (show xs ++ [.root] ≠ [] by simp)
      rw [List.cons_append, hy]
      cases x <;> rfl

theorem walk_rooted {steps cs : List Component} (h : ∀ c ∈ steps, c.IsStep)
    (hcs : ∀ c ∈ cs, c.IsStep) : ∃ steps', (∀ d ∈ steps', d.IsStep) ∧
      walk (steps ++ [.root]) cs = steps' ++ [.root] := by
  induction cs generalizing steps with
  | nil => exact ⟨steps, h, rfl⟩
  | cons c cs ih =>
    obtain ⟨steps₁, h₁, hstep⟩ := normalizeStep_rooted h (hcs c List.mem_cons_self)
    rw [walk_cons, hstep]
    exact ih h₁ fun d hd => hcs d (List.mem_cons_of_mem _ hd)

/-- Absolute and without anything to normalize. -/
structure IsNormal (p : Path) : Prop where
  absolute : p.isAbsolute = true
  normalize_eq : p.normalize = p

/-- The components of a list of steps from the root. -/
def rooted (steps : List Component) : Path := ofComponents (.root :: steps)

theorem components_rooted {steps : List Component} (h : ∀ c ∈ steps, c.IsStep) :
    (rooted steps).components = .root :: steps := components_ofComponents (.absolute h)

theorem exists_steps {p : Path} (h : p.isAbsolute = true) :
    ∃ steps, (∀ c ∈ steps, c.IsStep) ∧ p.components = .root :: steps := by
  obtain ⟨cs, hcs⟩ := isAbsolute_iff_components.1 h
  have hwritten := written_components p
  rw [hcs] at hwritten
  cases hwritten with
  | absolute hsteps => exact ⟨cs, hsteps, hcs⟩
  | relative hsteps => exact (hsteps .root List.mem_cons_self).elim

/-- A list of steps that are pushed from the root on makes a normal path. -/
theorem isNormal_rooted {steps : List Component} (h : ∀ c ∈ steps, c.IsStep)
    (hpushes : Pushes [] (.root :: steps)) : (rooted steps).IsNormal := by
  have hcomponents := components_rooted h
  refine ⟨isAbsolute_iff_components.2 ⟨steps, hcomponents⟩, ?_⟩
  rw [Path.normalize_eq, hcomponents, hpushes, List.append_nil, List.reverse_reverse]
  rfl

/-- What a walk from the root comes to is normal. -/
theorem isNormal_walk {p q : Path} {cs : List Component} (hp : p.isAbsolute = true)
    (hcs : ∀ c ∈ cs, c.IsStep) (hq : q = ofComponents (walk [] (p.components ++ cs)).reverse) :
    q.IsNormal := by
  obtain ⟨steps, hsteps, hcomponents⟩ := exists_steps hp
  have hall : ∀ c ∈ steps ++ cs, c.IsStep := List.forall_mem_append.2 ⟨hsteps, hcs⟩
  have hnone : ∀ c ∈ ([] : List Component), c.IsStep := by simp
  obtain ⟨stack, hstack, hwalk⟩ := walk_rooted hnone hall
  have hwalk' : walk [] (p.components ++ cs) = stack ++ [.root] := by
    rw [hcomponents]
    exact hwalk
  have hempty : Stable [] := rfl
  have hstable : Stable (stack ++ [.root]) := hwalk' ▸ stable_walk hempty _
  have hnormal : (rooted stack.reverse).IsNormal := by
    apply isNormal_rooted
    · intro c hc
      exact hstack c (List.mem_reverse.1 hc)
    · simpa [Stable] using hstable
  rw [hq, hwalk']
  simpa [rooted] using hnormal

end Bindery.Path
