import Mathlib.Data.List.Induction

/-! Lists read without repetition: every item at the place of its first appearance, and for every
key the value that was given to it last. -/

namespace Bindery

section

variable {α β : Type} [BEq α] [LawfulBEq α]

theorem eraseDups_concat [DecidableEq α] (l : List α) (a : α) :
    (l ++ [a]).eraseDups = if a ∈ l.eraseDups then l.eraseDups else l.eraseDups ++ [a] := by
  rw [List.eraseDups_append]
  simp only [List.mem_eraseDups]
  split
  · next h => simp [List.removeAll, h]
  · next h => simp [List.removeAll, h, List.eraseDups_cons]

theorem nodup_eraseDups [DecidableEq α] (l : List α) : l.eraseDups.Nodup := by
  induction l using List.reverseRecOn with
  | nil => exact List.nodup_nil
  | append_singleton l a ih =>
    rw [eraseDups_concat]
    split
    · exact ih
    · next h =>
      refine List.nodup_append.2 ⟨ih, by simp, ?_⟩
      rintro b hb c hc rfl
      exact h (List.mem_singleton.1 hc ▸ hb)

/-- The value that a key was given last. -/
def lastValue? (pairs : List (α × β)) (key : α) : Option β := pairs.reverse.lookup key

theorem lastValue?_concat [DecidableEq α] (pairs : List (α × β)) (pair : α × β) (key : α) :
    lastValue? (pairs ++ [pair]) key =
      if key = pair.1 then some pair.2 else lastValue? pairs key := by
  unfold lastValue?
  rw [List.reverse_append, List.reverse_singleton, List.singleton_append, List.lookup_cons]
  by_cases h : key = pair.1
  · rw [if_pos h, beq_iff_eq.2 h]
  · rw [if_neg h, beq_eq_false_iff_ne.2 h]

end

end Bindery
