import Bindery.Proofs.Project.Run

/-! What work leaves behind, whichever way it ends. A failure keeps what was done before it, so here
the bench is looked at after a failure as well as after an answer. -/

namespace Bindery

variable {α β : Type}

namespace Work

/-- From `s` the work ends in an answer and a bench with `Q`, or in a failure and a bench with
`E`. -/
def Exits (w : Work α) (s : Bench) (Q : α → Bench → Prop) (E : Failure → Bench → Prop) : Prop :=
  match w.run.run s with
  | (.ok a, s') => Q a s'
  | (.error e, s') => E e s'

variable {w : Work α} {s : Bench} {Q Q' : α → Bench → Prop} {E E' : Failure → Bench → Prop}

theorem Exits.mono (h : w.Exits s Q E) (hQ : ∀ a s', Q a s' → Q' a s')
    (hE : ∀ e s', E e s' → E' e s') : w.Exits s Q' E' := by
  unfold Exits at h ⊢
  split
  · next a s' heq =>
    rw [heq] at h
    exact hQ a s' h
  · next e s' heq =>
    rw [heq] at h
    exact hE e s' h

theorem Exits.ok {a : α} {s' : Bench} (h : w.Exits s Q E) (hrun : w.run.run s = (.ok a, s')) :
    Q a s' := by
  unfold Exits at h
  rwa [hrun] at h

/-- What holds however the work ends. -/
theorem Exits.any {r : Except Failure α} {s' : Bench} {P : Bench → Prop}
    (h : w.Exits s (fun _ => P) fun _ => P) (hrun : w.run.run s = (r, s')) : P s' := by
  unfold Exits at h
  rw [hrun] at h
  cases r <;> exact h

/-- What is known of the end of a piece of work may be assumed there. -/
theorem Exits.assuming {P : α → Bench → Prop} {E₀ : Failure → Bench → Prop} (h : w.Exits s P E₀)
    (h' : w.Exits s (fun a s' => P a s' → Q a s') E) : w.Exits s Q E := by
  unfold Exits at h h' ⊢
  split
  · next a s' heq =>
    rw [heq] at h h'
    exact h' h
  · next e s' heq =>
    rw [heq] at h'
    exact h'

/-- An answer is the one that the work gives. -/
theorem Exits.of_run (h : w.Exits s Q E) :
    w.Exits s (fun a s' => w.run.run s = (.ok a, s') ∧ Q a s') E := by
  unfold Exits at h ⊢
  split
  · next a s' heq =>
    rw [heq] at h
    exact ⟨heq, h⟩
  · next e s' heq =>
    rw [heq] at h
    exact h

@[simp] theorem exits_pure {a : α} : (pure a : Work α).Exits s Q E ↔ Q a s := Iff.rfl

@[simp] theorem exits_throw {e : Failure} : (throw e : Work α).Exits s Q E ↔ E e s := Iff.rfl

@[simp] theorem exits_bind {f : α → Work β} {Q : β → Bench → Prop} :
    (w >>= f).Exits s Q E ↔ w.Exits s (fun a s' => (f a).Exits s' Q E) E := by
  unfold Exits
  change (match (ExceptT.bindCont f (w.run.run s).1 : StateM Bench _) (w.run.run s).2 with
    | (.ok a, s') => Q a s'
    | (.error e, s') => E e s') ↔ _
  cases w.run.run s with
  | mk r s' => cases r <;> exact Iff.rfl

@[simp] theorem exits_get {Q : Bench → Bench → Prop} : (get : Work Bench).Exits s Q E ↔ Q s s :=
  Iff.rfl

@[simp] theorem exits_modify {f : Bench → Bench} {Q : Unit → Bench → Prop} :
    (modify f : Work Unit).Exits s Q E ↔ Q () (f s) := Iff.rfl

@[simp] theorem exits_session {Q : Session → Bench → Prop} :
    session.Exits s Q E ↔ Q s.session s := Iff.rfl

@[simp] theorem exits_modifySession {f : Session → Session} {Q : Unit → Bench → Prop} :
    (modifySession f).Exits s Q E ↔ Q () { s with session := f s.session } := Iff.rfl

@[simp] theorem exits_modifyStore {f : Store → Store} {Q : Unit → Bench → Prop} :
    (modifyStore f).Exits s Q E ↔
      Q () { s with session := { s.session with store := f s.session.store } } := Iff.rfl

@[simp] theorem exits_ask {paths : List Path} {Q : Unit → Bench → Prop} :
    (ask paths).Exits s Q E ↔ Q () { s with asked := s.asked ++ paths } := Iff.rfl

@[simp] theorem exits_put {e : Event} {Q : Unit → Bench → Prop} :
    (put e).Exits s Q E ↔ Q () { s with session := { s.session with
      events := s.session.events ++ [e] } } := Iff.rfl

@[simp] theorem exits_log {level : Level} {line : String} {Q : Unit → Bench → Prop} :
    (log level line).Exits s Q E ↔ Q () { s with session := { s.session with
      events := s.session.events ++ [.logged level line] } } := Iff.rfl

@[simp] theorem exits_record {page : WrittenPage} {Q : Unit → Bench → Prop} :
    (record page).Exits s Q E ↔ Q () { s with session := { s.session with
      pages := s.session.pages ++ [page] } } := Iff.rfl

@[simp] theorem exits_noteLinked {source : Path} {Q : Unit → Bench → Prop} :
    (noteLinked source).Exits s Q E ↔ Q () { s with session := { s.session with
      linked := s.session.linked ++ [source] } } := Iff.rfl

@[simp] theorem exits_ofExcept {ε : Type} {wrap : ε → Failure} {r : Except ε α} :
    (ofExcept wrap r).Exits s Q E ↔ match r with
      | .ok a => Q a s
      | .error e => E (wrap e) s := by
  cases r <;> exact Iff.rfl

/-- What holds before and after each of several pieces of work holds after all of them. -/
theorem exits_forM {f : α → Work Unit} {l : List α} {I : Bench → Prop}
    (hf : ∀ a ∈ l, ∀ s, I s → (f a).Exits s (fun _ s' => I s') E) (hs : I s) :
    (l.forM f).Exits s (fun _ s' => I s') E := by
  induction l generalizing s with
  | nil => exact hs
  | cons a l ih =>
    rw [List.forM_eq_forM, List.forM_cons, exits_bind]
    refine (hf a List.mem_cons_self s hs).mono (fun _ s' hs' => ?_) fun _ _ h => h
    exact ih (fun b hb => hf b (List.mem_cons_of_mem _ hb)) hs'

theorem exits_filterMapM {f : α → Work (Option β)} {l : List α} {I : Bench → Prop}
    (hf : ∀ a s, I s → (f a).Exits s (fun _ s' => I s') E) (hs : I s) :
    (l.filterMapM f).Exits s (fun _ s' => I s') E := by
  induction l generalizing s with
  | nil => exact hs
  | cons a l ih =>
    rw [List.filterMapM_cons, exits_bind]
    refine (hf a s hs).mono (fun r s' hs' => ?_) fun _ _ h => h
    cases r with
    | none => exact ih hs'
    | some b =>
      rw [exits_bind]
      exact (ih hs').mono (fun _ _ h => h) fun _ _ h => h

end Work

namespace Making

/-- From `b` and `s` the work ends in an answer, or in a failure, with the bundle and the bench as
`Q` or `E` say. -/
def Exits (w : Making α) (b : Bundle) (s : Bench) (Q : α → Bundle → Bench → Prop)
    (E : Failure → Bundle → Bench → Prop) : Prop :=
  match (w.run.run b).run s with
  | ((.ok a, b'), s') => Q a b' s'
  | ((.error e, b'), s') => E e b' s'

variable {w : Making α} {b : Bundle} {s : Bench} {Q Q' : α → Bundle → Bench → Prop}
  {E E' : Failure → Bundle → Bench → Prop}

theorem Exits.mono (h : w.Exits b s Q E) (hQ : ∀ a b' s', Q a b' s' → Q' a b' s')
    (hE : ∀ e b' s', E e b' s' → E' e b' s') : w.Exits b s Q' E' := by
  unfold Exits at h ⊢
  split
  · next a b' s' heq =>
    rw [heq] at h
    exact hQ a b' s' h
  · next e b' s' heq =>
    rw [heq] at h
    exact hE e b' s' h

theorem Exits.ok {a : α} {b' : Bundle} {s' : Bench} (h : w.Exits b s Q E)
    (hrun : (w.run.run b).run s = ((.ok a, b'), s')) : Q a b' s' := by
  unfold Exits at h
  rwa [hrun] at h

theorem Exits.error {e : Failure} {b' : Bundle} {s' : Bench} (h : w.Exits b s Q E)
    (hrun : (w.run.run b).run s = ((.error e, b'), s')) : E e b' s' := by
  unfold Exits at h
  rwa [hrun] at h

/-- Two things that hold of the end of a piece of work hold together. -/
theorem Exits.and (h : w.Exits b s Q E) (h' : w.Exits b s Q' E') :
    w.Exits b s (fun a b' s' => Q a b' s' ∧ Q' a b' s') fun e b' s' => E e b' s' ∧ E' e b' s' := by
  unfold Exits at h h' ⊢
  split
  · next a b' s' heq =>
    rw [heq] at h h'
    exact ⟨h, h'⟩
  · next e b' s' heq =>
    rw [heq] at h h'
    exact ⟨h, h'⟩

/-- An answer is the one that the work gives. -/
theorem Exits.of_run (h : w.Exits b s Q E) :
    w.Exits b s (fun a b' s' => (w.run.run b).run s = ((.ok a, b'), s') ∧ Q a b' s') E := by
  unfold Exits at h ⊢
  split
  · next a b' s' heq =>
    rw [heq] at h
    exact ⟨heq, h⟩
  · next e b' s' heq =>
    rw [heq] at h
    exact h

/-- What holds however the work ends. -/
theorem Exits.any {r : Except Failure α} {b' : Bundle} {s' : Bench} {P : Bundle → Bench → Prop}
    (h : w.Exits b s (fun _ => P) fun _ => P) (hrun : (w.run.run b).run s = ((r, b'), s')) :
    P b' s' := by
  unfold Exits at h
  rw [hrun] at h
  cases r <;> exact h

@[simp] theorem exits_pure {a : α} : (pure a : Making α).Exits b s Q E ↔ Q a b s := Iff.rfl

@[simp] theorem exits_throw {e : Failure} : (throw e : Making α).Exits b s Q E ↔ E e b s := Iff.rfl

@[simp] theorem exits_bind {f : α → Making β} {Q : β → Bundle → Bench → Prop} :
    (w >>= f).Exits b s Q E ↔ w.Exits b s (fun a b' s' => (f a).Exits b' s' Q E) E := by
  unfold Exits
  change (match ((ExceptT.bindCont f ((w.run.run b).run s).1.1 : StateT Bundle (StateM Bench) _)
      ((w.run.run b).run s).1.2).run ((w.run.run b).run s).2 with
    | ((.ok a, b'), s') => Q a b' s'
    | ((.error e, b'), s') => E e b' s') ↔ _
  cases (w.run.run b).run s with
  | mk r s' =>
    obtain ⟨r, b'⟩ := r
    cases r <;> exact Iff.rfl

/-- Work goes on from where its first part came to. -/
theorem exits_bind_of_run {f : α → Making β} {Q : β → Bundle → Bench → Prop} {a : α} {b' : Bundle}
    {s' : Bench} (hrun : (w.run.run b).run s = ((.ok a, b'), s')) :
    (w >>= f).Exits b s Q E ↔ (f a).Exits b' s' Q E := by
  rw [exits_bind, Exits, hrun]

@[simp] theorem exits_lift {w : Work α} : (liftM w : Making α).Exits b s Q E ↔
    w.Exits s (fun a s' => Q a b s') (fun e s' => E e b s') := by
  have hrun : ((liftM w : Making α).run.run b).run s = (((w.run.run s).1, b), (w.run.run s).2) := rfl
  unfold Exits Work.Exits
  rw [hrun]
  cases w.run.run s with
  | mk r s' => cases r <;> exact Iff.rfl

@[simp] theorem exits_bundle {Q : Bundle → Bundle → Bench → Prop} :
    bundle.Exits b s Q E ↔ Q b b s := Iff.rfl

@[simp] theorem exits_modifyBundle {f : Bundle → Bundle} {Q : Unit → Bundle → Bench → Prop} :
    (modifyBundle f).Exits b s Q E ↔ Q () (f b) s := Iff.rfl

@[simp] theorem exits_within {b : Bundle} {Q : α → Bench → Prop} {E : Failure → Bench → Prop} :
    (within b w).Exits s Q E ↔
      w.Exits b s (fun a _ s' => Q a s') (fun e _ s' => E e s') := by
  have hrun : (within b w).run.run s = (((w.run.run b).run s).1.1, ((w.run.run b).run s).2) := rfl
  unfold Exits Work.Exits
  rw [hrun]
  cases (w.run.run b).run s with
  | mk r s' =>
    obtain ⟨r, b'⟩ := r
    cases r <;> exact Iff.rfl

theorem exits_forM {f : α → Making Unit} {l : List α} {I : Bundle → Bench → Prop}
    (hf : ∀ a ∈ l, ∀ b s, I b s → (f a).Exits b s (fun _ b' s' => I b' s') E) (hs : I b s) :
    (l.forM f).Exits b s (fun _ b' s' => I b' s') E := by
  induction l generalizing b s with
  | nil => exact hs
  | cons a l ih =>
    rw [List.forM_eq_forM, List.forM_cons, exits_bind]
    refine (hf a List.mem_cons_self b s hs).mono (fun _ b' s' hs' => ?_) fun _ _ _ h => h
    exact ih (fun c hc => hf c (List.mem_cons_of_mem _ hc)) hs'

end Making
end Bindery
