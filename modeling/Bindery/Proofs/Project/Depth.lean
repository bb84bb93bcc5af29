import Bindery.Project.Bundle

/-! The depth that a run is given bounds it and does nothing else: where it was not used up, the run
goes the same way with any greater depth. -/

namespace Bindery

variable {α β : Type}

/-- `w` does what `w'` does, unless it fails for its depth. -/
def Work.Refines (w w' : Work α) : Prop :=
  ∀ s, (w.run.run s).1 = .error .tooDeep ∨ w.run.run s = w'.run.run s

namespace Making

/-- `x` does what `y` does, unless it fails for its depth. -/
def Refines (x y : Making α) : Prop :=
  ∀ b s, ((x.run.run b).run s).1.1 = .error .tooDeep ∨ (x.run.run b).run s = (y.run.run b).run s

variable {x y z : Making α} {f g : α → Making β}

theorem Refines.refl (x : Making α) : x.Refines x := fun _ _ => .inr rfl

theorem Refines.trans (h : x.Refines y) (h' : y.Refines z) : x.Refines z := by
  intro b s
  rcases h b s with hdeep | heq
  · exact .inl hdeep
  · exact heq ▸ h' b s

theorem run_bind (x : Making α) (f : α → Making β) (b : Bundle) (s : Bench) :
    ((x >>= f).run.run b).run s =
      ((ExceptT.bindCont f ((x.run.run b).run s).1.1 : StateT Bundle (StateM Bench) _)
        ((x.run.run b).run s).1.2).run ((x.run.run b).run s).2 := rfl

theorem Refines.bind (h : x.Refines y) (hf : ∀ a, (f a).Refines (g a)) :
    (x >>= f).Refines (y >>= g) := by
  intro b s
  rw [run_bind x f, run_bind y g]
  rcases h b s with hdeep | heq
  · rw [hdeep]
    exact .inl rfl
  · rw [← heq]
    rcases (x.run.run b).run s with ⟨⟨r, b'⟩, s'⟩
    cases r with
    | ok a => exact hf a b' s'
    | error e => exact .inr rfl

theorem Refines.within {b : Bundle} (h : x.Refines y) : (within b x).Refines (within b y) := by
  intro s
  have hrun : ∀ x : Making α, (Making.within b x).run.run s =
      (((x.run.run b).run s).1.1, ((x.run.run b).run s).2) := fun _ => rfl
  rw [hrun x, hrun y]
  rcases h b s with hdeep | heq
  · exact .inl hdeep
  · exact .inr (by rw [heq])

theorem Refines.lift {w w' : Work α} (h : w.Refines w') :
    (liftM w : Making α).Refines (liftM w') := by
  intro b s
  have hrun : ∀ w : Work α, ((liftM w : Making α).run.run b).run s =
      (((w.run.run s).1, b), (w.run.run s).2) := fun _ => rfl
  rw [hrun w, hrun w']
  rcases h s with hdeep | heq
  · exact .inl hdeep
  · exact .inr (by rw [heq])

theorem Refines.forM {f g : α → Making Unit} (hf : ∀ a, (f a).Refines (g a)) (l : List α) :
    (l.forM f).Refines (l.forM g) := by
  induction l with
  | nil => exact .refl _
  | cons a l ih =>
    rw [List.forM_eq_forM, List.forM_cons, List.forM_cons]
    exact (hf a).bind fun _ => ih

end Making

namespace Bundle

variable {inner inner' : Making Generated}

theorem refines_follow (h : inner.Refines inner') (link : Link) :
    (follow inner link).Refines (follow inner' link) := by
  unfold follow
  refine .bind (.refl _) fun session => ?_
  split
  · exact .refl _
  · refine .bind (.refl _) fun _ => .bind (.refl _) fun _ => .bind (.refl _) fun b => ?_
    have hcompile := h.bind fun g => Making.Refines.refl (do emit (← Making.bundle) g)
    exact .bind (.refl _) fun nested => .bind (.lift hcompile.within) fun _ => .refl _

theorem refines_followCell (h : inner.Refines inner') (plan : Relocation) (d : Path) (c : CellId) :
    (followCell inner plan d c).Refines (followCell inner' plan d c) := by
  unfold followCell
  refine .bind (.refl _) fun link => ?_
  cases link with
  | none => exact .refl _
  | some link => exact refines_follow h link

theorem refines_followAll (h : inner.Refines inner') (plan : Relocation) (d : Document) :
    (followAll inner plan d).Refines (followAll inner' plan d) := by
  have hcell : ∀ slot : Token × CellId, (followCell inner plan d.source slot.2).Refines
      (followCell inner' plan d.source slot.2) := fun slot => refines_followCell h plan d.source slot.2
  unfold followAll
  exact .bind (.refl _) fun session => .forM hcell _

theorem refines_pass (h : inner.Refines inner') (plan : Relocation) (i : Nat) (d : Document) :
    (pass inner plan i d).Refines (pass inner' plan i d) := by
  have hall := refines_followAll h plan d
  unfold pass
  refine .bind (.refl _) fun _ => .bind (.refl _) fun _ => .bind (.refl _) fun _ => ?_
  exact hall.bind fun _ => .refl _

theorem refines_setPage (h : inner.Refines inner') : (setPage inner).Refines (setPage inner') := by
  have hpass : ∀ (plan : Relocation) (x : Document × Nat),
      (pass inner plan x.2 x.1).Refines (pass inner' plan x.2 x.1) :=
    fun plan x => refines_pass h plan x.2 x.1
  unfold setPage
  refine .bind (.refl _) fun b => .bind (.refl _) fun layout => ?_
  exact .bind (.forM (hpass _) _) fun _ => .refl _

/-- A greater depth does the same. -/
theorem refines_generateWithin {depth depth' : Nat} (h : depth ≤ depth') :
    (generateWithin depth).Refines (generateWithin depth') := by
  induction depth generalizing depth' with
  | zero => exact fun _ _ => .inl rfl
  | succ depth ih =>
    obtain ⟨more, rfl⟩ := Nat.exists_eq_add_of_le h
    rw [Nat.add_right_comm]
    exact refines_setPage (ih (Nat.le_add_right depth more))

/-! A run is given the depth of its bench. -/

open Making (bundle)

theorem run_deep (f : Nat → Making α) (b : Bundle) (s : Bench) :
    ((do
      let b ← bundle
      f ((← (get : Work Bench)).depth b.brief.mapping) : Making α).run.run b).run s =
      ((f (s.depth b.brief.mapping)).run.run b).run s := rfl

theorem run_generate (b : Bundle) (s : Bench) : (generate.run.run b).run s =
    ((generateWithin (s.depth b.brief.mapping)).run.run b).run s := by
  unfold generate
  exact run_deep generateWithin b s

/-- Writing a bundle within a depth. -/
def writeWithin (depth : Nat) : Making WriteReport := do
  let g ← generateWithin depth
  emit (← bundle) g

theorem refines_writeWithin {depth depth' : Nat} (h : depth ≤ depth') :
    (writeWithin depth).Refines (writeWithin depth') :=
  (refines_generateWithin h).bind fun _ => .refl _

theorem run_write (b : Bundle) (s : Bench) : (write.run.run b).run s =
    ((writeWithin (s.depth b.brief.mapping)).run.run b).run s := by
  unfold write writeWithin
  rw [Making.run_bind, Making.run_bind, run_generate]

end Bundle
end Bindery
