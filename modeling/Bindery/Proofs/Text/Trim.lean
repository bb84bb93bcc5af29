import Bindery.Text.Basic
import Mathlib.Data.List.Basic
import Mathlib.Data.List.TakeWhile

/-! Blanks around a text. Trimming cuts a text into blanks, a core that has none at its ends, and
blanks, and every such cut is the one that trimming finds. -/

namespace Bindery.Text

variable {p : Char → Bool} {cs u v : List Char}

theorem takeWhile_append_of_stop (hu : ∀ c ∈ u, p c = true) (hv : ∀ c ∈ v.head?, p c = false) :
    (u ++ v).takeWhile p = u := by
  rw [List.takeWhile_append_of_pos hu]
  cases v with
  | nil => simp
  | cons c v => simp [hv c rfl]

theorem dropWhile_append_of_stop (hu : ∀ c ∈ u, p c = true) (hv : ∀ c ∈ v.head?, p c = false) :
    (u ++ v).dropWhile p = v := by
  rw [List.dropWhile_append_of_pos hu]
  cases v with
  | nil => simp
  | cons c v => simp [hv c rfl]

/-- A text with a character in it is cut at the first one. -/
theorem exists_cut {d : Char} (h : (cs.takeWhile (· != d)).length < cs.length) :
    ∃ rest, cs = cs.takeWhile (· != d) ++ d :: rest := by
  have hsplit := List.takeWhile_append_dropWhile (p := (· != d)) (l := cs)
  have hstop := List.head?_dropWhile_not (· != d) cs
  cases hdrop : cs.dropWhile (· != d) with
  | nil =>
    rw [hdrop, List.append_nil] at hsplit
    rw [hsplit] at h
    exact absurd h (Nat.lt_irrefl _)
  | cons e rest =>
    rw [hdrop] at hstop
    have he : e = d := by simpa using hstop
    rw [hdrop, he] at hsplit
    exact ⟨rest, hsplit.symm⟩

theorem takeWhile_bne {d : Char} (h : d ∉ u) (v : List Char) :
    (u ++ d :: v).takeWhile (· != d) = u := by
  refine takeWhile_append_of_stop (fun c hc => ?_) (by simp)
  rw [bne_iff_ne]
  rintro rfl
  exact h hc

theorem dropEndWhile_cons (c : Char) : dropEndWhile p (c :: cs) =
    if (dropEndWhile p cs).isEmpty && p c then [] else c :: dropEndWhile p cs := rfl

theorem dropEndWhile_eq_nil (h : ∀ c ∈ cs, p c = true) : dropEndWhile p cs = [] := by
  induction cs with
  | nil => rfl
  | cons c cs ih =>
    have hrest := ih fun d hd => h d (List.mem_cons_of_mem _ hd)
    rw [dropEndWhile_cons, hrest, h c List.mem_cons_self]
    rfl

theorem dropEndWhile_append (hv : ∀ c ∈ v, p c = true) (hu : ∀ c ∈ u.getLast?, p c = false) :
    dropEndWhile p (u ++ v) = u := by
  induction u with
  | nil => exact dropEndWhile_eq_nil hv
  | cons c u ih =>
    have hrest : dropEndWhile p (u ++ v) = u := by
      refine ih fun d hd => hu d ?_
      rw [List.getLast?_cons, Option.mem_def.1 hd]
      simp
    rw [List.cons_append, dropEndWhile_cons, hrest]
    cases u with
    | nil => simp [hu c rfl]
    | cons d u => simp

theorem exists_dropEndWhile (p : Char → Bool) (cs : List Char) :
    ∃ v, cs = dropEndWhile p cs ++ v ∧ (∀ c ∈ v, p c = true) ∧
      ∀ c ∈ (dropEndWhile p cs).getLast?, p c = false := by
  induction cs with
  | nil => exact ⟨[], rfl, by simp, by simp [dropEndWhile]⟩
  | cons c cs ih =>
    obtain ⟨v, hcs, hv, hlast⟩ := ih
    rw [dropEndWhile_cons]
    by_cases hgone : ((dropEndWhile p cs).isEmpty && p c) = true
    · rw [if_pos hgone]
      rw [Bool.and_eq_true, List.isEmpty_iff] at hgone
      rw [hgone.1, List.nil_append] at hcs
      refine ⟨c :: v, by rw [hcs]; rfl, ?_, by simp⟩
      intro d hd
      rcases List.mem_cons.1 hd with rfl | hd
      · exact hgone.2
      · exact hv d hd
    · rw [if_neg hgone]
      refine ⟨v, congrArg (c :: ·) hcs, hv, ?_⟩
      rw [Bool.and_eq_true, List.isEmpty_iff, not_and] at hgone
      intro d hd
      cases hcore : dropEndWhile p cs with
      | nil =>
        rw [hcore, List.getLast?_singleton, Option.mem_some_iff] at hd
        exact hd ▸ Bool.eq_false_iff.2 (hgone hcore)
      | cons e rest =>
        rw [hcore, List.getLast?_cons_cons, ← hcore] at hd
        exact hlast d hd

/-- A text without a blank at either end. -/
structure Trimmed (core : List Char) : Prop where
  head : ∀ c ∈ core.head?, isBlank c = false
  last : ∀ c ∈ core.getLast?, isBlank c = false

theorem trimmed_of_forall (h : ∀ c ∈ cs, isBlank c = false) : Trimmed cs where
  head c hc := h c (List.mem_of_mem_head? hc)
  last c hc := h c (List.mem_of_mem_getLast? hc)

theorem trim_surrounded {core : List Char} (hu : ∀ c ∈ u, isBlank c = true)
    (hcore : Trimmed core) (hv : ∀ c ∈ v, isBlank c = true) : trim (u ++ core ++ v) = core := by
  unfold trim trimStart trimEnd
  cases core with
  | nil =>
    rw [List.append_nil, List.dropWhile_append_of_pos hu]
    exact dropEndWhile_eq_nil fun c hc => hv c ((List.dropWhile_sublist _).subset hc)
  | cons c core =>
    have hstart : (u ++ (c :: core ++ v)).dropWhile isBlank = c :: core ++ v :=
      dropWhile_append_of_stop hu hcore.head
    rw [List.append_assoc, hstart]
    exact dropEndWhile_append hv hcore.last

/-- What stands around the core of a text. -/
theorem exists_trim (cs : List Char) :
    ∃ v, cs = cs.takeWhile isBlank ++ trim cs ++ v ∧ (∀ c ∈ v, isBlank c = true) ∧
      Trimmed (trim cs) := by
  obtain ⟨v, hstart, hv, hlast⟩ := exists_dropEndWhile isBlank (cs.dropWhile isBlank)
  refine ⟨v, ?_, hv, ?_, hlast⟩
  · conv_lhs => rw [← List.takeWhile_append_dropWhile (p := isBlank) (l := cs), hstart]
    rw [List.append_assoc]
    rfl
  · intro c hc
    have hhead : c ∈ (cs.dropWhile isBlank).head? := by
      rw [hstart, List.head?_append]
      exact Option.mem_def.2 (Option.or_eq_some_iff.2 (Or.inl hc))
    have hstop := List.head?_dropWhile_not isBlank cs
    rw [Option.mem_def.1 hhead] at hstop
    simpa using hstop

theorem trimEnd_append (hv : ∀ c ∈ v, isBlank c = true) : trimEnd (u ++ v) = trimEnd u := by
  obtain ⟨w, hu, hw, hlast⟩ := exists_dropEndWhile isBlank u
  conv_lhs => rw [hu, List.append_assoc]
  refine dropEndWhile_append (fun c hc => ?_) hlast
  rcases List.mem_append.1 hc with hc | hc
  · exact hw c hc
  · exact hv c hc

theorem trimEnd_concat {c : Char} (h : isBlank c = false) (u : List Char)
    (hv : ∀ c ∈ v, isBlank c = true) : trimEnd (u ++ c :: v) = u ++ [c] := by
  have hlast : ∀ d ∈ (u ++ [c]).getLast?, isBlank d = false := by
    rw [List.getLast?_concat]
    rintro d ⟨⟩
    exact h
  have htext : u ++ c :: v = (u ++ [c]) ++ v := by simp
  rw [htext]
  exact dropEndWhile_append hv hlast

theorem trimEnd_trimEnd (cs : List Char) : trimEnd (trimEnd cs) = trimEnd cs := by
  obtain ⟨v, hcs, hv, -⟩ := exists_dropEndWhile isBlank cs
  have h := trimEnd_append (u := trimEnd cs) hv
  exact h.symm.trans (congrArg trimEnd hcs.symm)

theorem trimStart_append {c : Char} (h : isBlank c = false) (u v : List Char) :
    trimStart (u ++ c :: v) = trimStart u ++ c :: v := by
  induction u with
  | nil => exact List.dropWhile_cons_of_neg (by simp [h])
  | cons d u ih =>
    unfold trimStart at ih ⊢
    rw [List.cons_append, List.dropWhile_cons, List.dropWhile_cons]
    split
    · exact ih
    · rfl

theorem trim_append (hv : ∀ c ∈ v, isBlank c = true) : trim (u ++ v) = trim u := by
  obtain ⟨back, hu, hback, hcore⟩ := exists_trim u
  have hlead : ∀ c ∈ u.takeWhile isBlank, isBlank c = true := fun c => List.mem_takeWhile_imp
  conv_lhs => rw [hu, List.append_assoc]
  refine trim_surrounded hlead hcore fun c hc => ?_
  rcases List.mem_append.1 hc with hc | hc
  · exact hback c hc
  · exact hv c hc

theorem length_trimEnd_le (cs : List Char) : (trimEnd cs).length ≤ cs.length := by
  obtain ⟨v, hcs, -⟩ := exists_dropEndWhile isBlank cs
  have hlength := congrArg List.length hcs
  rw [List.length_append] at hlength
  exact hlength ▸ Nat.le_add_right _ _

theorem length_trim_lt {c : Char} (h : isBlank c = false) (u v : List Char) :
    (trim u).length < (trim (u ++ c :: v)).length := by
  obtain ⟨back, hv, hback, hlast⟩ := exists_dropEndWhile isBlank v
  have hend : ∀ d ∈ (trimStart u ++ c :: trimEnd v).getLast?, isBlank d = false := by
    rw [List.getLast?_append_of_ne_nil _ (List.cons_ne_nil _ _)]
    intro d hd
    cases hcore : trimEnd v with
    | nil =>
      rw [hcore, List.getLast?_singleton] at hd
      exact Option.some.inj hd ▸ h
    | cons e core =>
      rw [hcore, List.getLast?_cons_cons, ← hcore] at hd
      exact hlast d hd
  have htrim : trim (u ++ c :: v) = trimStart u ++ c :: trimEnd v := by
    have hcut : trimStart u ++ c :: v = (trimStart u ++ c :: trimEnd v) ++ back := by
      conv_lhs => rw [hv]
      rw [List.append_assoc]
      rfl
    rw [trim, trimStart_append h, hcut]
    exact dropEndWhile_append hback hend
  have hle := length_trimEnd_le (trimStart u)
  rw [htrim, List.length_append, List.length_cons]
  exact Nat.lt_of_le_of_lt hle (by omega)

end Bindery.Text
