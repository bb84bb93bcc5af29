import Bindery.Project.Bundle
import Mathlib.Logic.Basic

/-! Where a piece of work comes to an end: in an answer, with what was done to the bench and to the
bundle, or in a failure. The ends of composed work follow from the ends of its parts. -/

namespace Bindery

variable {α β : Type}

namespace Work

/-- From `s` the work ends in an answer and a bench with `Q`, or in a failure with `E`. -/
def Ends (w : Work α) (s : Bench) (Q : α → Bench → Prop) (E : Failure → Prop) : Prop :=
  match w.run.run s with
  | (.ok a, s') => Q a s'
  | (.error e, _) => E e

variable {w : Work α} {s : Bench} {Q Q' : α → Bench → Prop} {E E' : Failure → Prop}

theorem Ends.mono (h : w.Ends s Q E) (hQ : ∀ a s', Q a s' → Q' a s') (hE : ∀ e, E e → E' e) :
    w.Ends s Q' E' := by
  unfold Ends at h ⊢
  split
  · next a s' heq =>
    rw [heq] at h
    exact hQ a s' h
  · next e _ heq =>
    rw [heq] at h
    exact hE e h

@[simp] theorem ends_pure {a : α} : (pure a : Work α).Ends s Q E ↔ Q a s := Iff.rfl

@[simp] theorem ends_throw {e : Failure} : (throw e : Work α).Ends s Q E ↔ E e := Iff.rfl

@[simp] theorem ends_bind {f : α → Work β} {Q : β → Bench → Prop} :
    (w >>= f).Ends s Q E ↔ w.Ends s (fun a s' => (f a).Ends s' Q E) E := by
  unfold Ends
  change (match (ExceptT.bindCont f (w.run.run s).1 : StateM Bench _) (w.run.run s).2 with
    | (.ok a, s') => Q a s'
    | (.error e, _) => E e) ↔ _
  cases w.run.run s with
  | mk r s' => cases r <;> exact Iff.rfl

@[simp] theorem ends_map {f : α → β} {Q : β → Bench → Prop} :
    (f <$> w).Ends s Q E ↔ w.Ends s (fun a s' => Q (f a) s') E := by
  rw [map_eq_pure_bind, ends_bind]
  exact Iff.rfl

@[simp] theorem ends_get {Q : Bench → Bench → Prop} : (get : Work Bench).Ends s Q E ↔ Q s s :=
  Iff.rfl

@[simp] theorem ends_modify {f : Bench → Bench} {Q : Unit → Bench → Prop} :
    (modify f : Work Unit).Ends s Q E ↔ Q () (f s) := Iff.rfl

@[simp] theorem ends_session {Q : Session → Bench → Prop} :
    session.Ends s Q E ↔ Q s.session s := Iff.rfl

@[simp] theorem ends_modifySession {f : Session → Session} {Q : Unit → Bench → Prop} :
    (modifySession f).Ends s Q E ↔ Q () { s with session := f s.session } := Iff.rfl

@[simp] theorem ends_modifyStore {f : Store → Store} {Q : Unit → Bench → Prop} :
    (modifyStore f).Ends s Q E ↔
      Q () { s with session := { s.session with store := f s.session.store } } := Iff.rfl

@[simp] theorem ends_ask {paths : List Path} {Q : Unit → Bench → Prop} :
    (ask paths).Ends s Q E ↔ Q () { s with asked := s.asked ++ paths } := Iff.rfl

@[simp] theorem ends_record {page : WrittenPage} {Q : Unit → Bench → Prop} :
    (record page).Ends s Q E ↔ Q () { s with session := { s.session with
      pages := s.session.pages ++ [page] } } := Iff.rfl

@[simp] theorem ends_noteLinked {source : Path} {Q : Unit → Bench → Prop} :
    (noteLinked source).Ends s Q E ↔ Q () { s with session := { s.session with
      linked := s.session.linked ++ [source] } } := Iff.rfl

@[simp] theorem ends_log {level : Level} {line : String} {Q : Unit → Bench → Prop} :
    (log level line).Ends s Q E ↔ Q () { s with session := { s.session with
      events := s.session.events ++ [.logged level line] } } := Iff.rfl

@[simp] theorem ends_ofExcept {ε : Type} {wrap : ε → Failure} {r : Except ε α} :
    (ofExcept wrap r).Ends s Q E ↔ match r with
      | .ok a => Q a s
      | .error e => E (wrap e) := by
  cases r <;> exact Iff.rfl

end Work

namespace Making

/-- From `b` and `s` the work ends in an answer, a bundle and a bench with `Q`, or in a failure
with `E`. -/
def Ends (w : Making α) (b : Bundle) (s : Bench) (Q : α → Bundle → Bench → Prop)
    (E : Failure → Prop) : Prop :=
  match (w.run.run b).run s with
  | ((.ok a, b'), s') => Q a b' s'
  | ((.error e, _), _) => E e

variable {w : Making α} {b : Bundle} {s : Bench} {Q Q' : α → Bundle → Bench → Prop}
  {E E' : Failure → Prop}

theorem Ends.mono (h : w.Ends b s Q E) (hQ : ∀ a b' s', Q a b' s' → Q' a b' s')
    (hE : ∀ e, E e → E' e) : w.Ends b s Q' E' := by
  unfold Ends at h ⊢
  split
  · next a b' s' heq =>
    rw [heq] at h
    exact hQ a b' s' h
  · next e _ _ heq =>
    rw [heq] at h
    exact hE e h

@[simp] theorem ends_pure {a : α} : (pure a : Making α).Ends b s Q E ↔ Q a b s := Iff.rfl

@[simp] theorem ends_throw {e : Failure} : (throw e : Making α).Ends b s Q E ↔ E e := Iff.rfl

@[simp] theorem ends_bind {f : α → Making β} {Q : β → Bundle → Bench → Prop} :
    (w >>= f).Ends b s Q E ↔ w.Ends b s (fun a b' s' => (f a).Ends b' s' Q E) E := by
  unfold Ends
  change (match ((ExceptT.bindCont f ((w.run.run b).run s).1.1 : StateT Bundle (StateM Bench) _)
      ((w.run.run b).run s).1.2).run ((w.run.run b).run s).2 with
    | ((.ok a, b'), s') => Q a b' s'
    | ((.error e, _), _) => E e) ↔ _
  cases (w.run.run b).run s with
  | mk r s' =>
    obtain ⟨r, b'⟩ := r
    cases r <;> exact Iff.rfl

@[simp] theorem ends_map {f : α → β} {Q : β → Bundle → Bench → Prop} :
    (f <$> w).Ends b s Q E ↔ w.Ends b s (fun a b' s' => Q (f a) b' s') E := by
  rw [map_eq_pure_bind, ends_bind]
  exact Iff.rfl

@[simp] theorem ends_lift {w : Work α} :
    (liftM w : Making α).Ends b s Q E ↔ w.Ends s (fun a s' => Q a b s') E := by
  have hrun : ((liftM w : Making α).run.run b).run s = (((w.run.run s).1, b), (w.run.run s).2) := rfl
  unfold Ends Work.Ends
  rw [hrun]
  cases w.run.run s with
  | mk r s' => cases r <;> exact Iff.rfl

@[simp] theorem ends_bundle {Q : Bundle → Bundle → Bench → Prop} :
    bundle.Ends b s Q E ↔ Q b b s := Iff.rfl

@[simp] theorem ends_modifyBundle {f : Bundle → Bundle} {Q : Unit → Bundle → Bench → Prop} :
    (modifyBundle f).Ends b s Q E ↔ Q () (f b) s := Iff.rfl

@[simp] theorem ends_within {b : Bundle} {Q : α → Bench → Prop} :
    (within b w).Ends s Q E ↔ w.Ends b s (fun a _ s' => Q a s') E := by
  have hrun : (within b w).run.run s = (((w.run.run b).run s).1.1, ((w.run.run b).run s).2) := rfl
  unfold Ends Work.Ends
  rw [hrun]
  cases (w.run.run b).run s with
  | mk r s' =>
    obtain ⟨r, b'⟩ := r
    cases r <;> exact Iff.rfl

end Making
end Bindery
