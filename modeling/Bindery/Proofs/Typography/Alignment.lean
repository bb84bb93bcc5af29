import Bindery.Proofs.Text.Replace
import Bindery.Proofs.Typography.Place

/-! What typographic punctuation writes, beside what it reads. The two agree character by character but
for the runs that are written as one sign, so nothing comes about that was not there, and what is written
has nothing left that stirs in the open. Educating a second time therefore changes nothing, and markup
may be passed over when no run can begin in it. -/

namespace Bindery.Html.Typography

/-- The second text is the first one with some of its runs respelled. -/
inductive Restyled : List Char → List Char → Prop where
  | nil : Restyled [] []
  | keep (c : Char) {cs out : List Char} (h : Restyled cs out) : Restyled (c :: cs) (c :: out)
  | restyle {run cs out : List Char} {mark : Char} (hrun : Respells run mark)
    (h : Restyled cs out) : Restyled (run ++ cs) (mark :: out)

section Aligned

variable {cs out w : List Char}

theorem restyled_walk (s : State) (cs : List Char) : Restyled cs (walk 0 s cs) := by
  induction s, cs using walk_induction with
  | nil s => exact .nil
  | cons s c cs ih =>
    rw [walk_eq]
    rcases s.spell_cases c cs with ⟨hspell, -⟩ | ⟨run, mark, rest, -, hrun, hcs, hspell⟩
    · rw [hspell] at ih ⊢
      exact .keep c ih
    · obtain ⟨d, more, rfl⟩ := List.exists_cons_of_ne_nil hrun.ne_nil
      obtain ⟨rfl, hmore⟩ := List.cons.inj (hcs.trans (List.cons_append ..))
      rw [hspell] at ih ⊢
      rw [hcs]
      refine .restyle hrun ?_
      simpa [hmore] using ih

theorem Restyled.prefix_of (h : Restyled cs out) (hw : ∀ c ∈ w, c ∉ marks) (hbegins : w <+: out) :
    w <+: cs := by
  induction h generalizing w with
  | nil => exact hbegins
  | keep c h ih =>
    cases w with
    | nil => exact List.nil_prefix
    | cons d w =>
      obtain ⟨rfl, hrest⟩ := List.cons_prefix_cons.1 hbegins
      exact List.cons_prefix_cons.2 ⟨rfl, ih (fun e he => hw e (List.mem_cons_of_mem _ he)) hrest⟩
  | restyle hrun h ih =>
    cases w with
    | nil => exact List.nil_prefix
    | cons d w =>
      -- the word would begin with the sign
      obtain ⟨rfl, -⟩ := List.cons_prefix_cons.1 hbegins
      exact absurd hrun.mem_marks (hw d List.mem_cons_self)

end Aligned

theorem atRest_walk (s : State) (cs : List Char) : s.place.AtRest (walk 0 s cs) := by
  induction s, cs using walk_induction with
  | nil s => exact Place.atRest_nil
  | cons s c cs ih =>
    rw [walk_eq, Place.atRest_cons]
    rcases s.spell_cases c cs with ⟨hspell, hstill⟩ | ⟨run, mark, rest, hopen, hrun, hcs, hspell⟩
    · rw [hspell] at ih ⊢
      refine ⟨fun hopen => ?_, ih⟩
      -- a run that begins in what is written begins in what is read
      rintro ⟨run, hrun, hbegins⟩
      have hsame := Restyled.keep c (restyled_walk (s.move c c) cs)
      have hunmarked : ∀ c ∈ run, c ∉ marks := fun c hc =>
        not_mem_marks_of_mem_strokes (mem_strokes_of_mem_runs run hrun c hc)
      exact hstill hopen ⟨run, hrun, hsame.prefix_of hunmarked hbegins⟩
    · obtain ⟨d, more, rfl⟩ := List.exists_cons_of_ne_nil hrun.ne_nil
      obtain ⟨rfl, -⟩ := List.cons.inj (hcs.trans (List.cons_append ..))
      have hmark : mark ≠ '<' := fun heq => absurd (heq ▸ hrun.mem_marks) (by decide)
      rw [hspell] at ih ⊢
      -- behind the sign the walk stands in the open, as it does behind the run
      refine ⟨fun _ => not_stirs_of_mem_marks hrun.mem_marks _, ?_⟩
      rw [Place.step_of_ne hopen.tag hmark]
      rwa [State.place_move, (hrun.step hopen).1] at ih

theorem atRest_of_not_needsWalk {html : List Char} (h : needsWalk html = false) (p : Place) :
    p.AtRest html := by
  rw [needsWalk, Bool.or_eq_false_iff, ← Bool.not_eq_true (Text.hasInfix _ _), Text.hasInfix_iff] at h
  obtain ⟨hmarks, hdots⟩ := h
  have hnone : ∀ c ∈ html, c ≠ '\x22' ∧ c ≠ '\x27' ∧ c ≠ '-' := by
    simpa [and_assoc] using hmarks
  rintro u v rfl - ⟨run, hrun, hbegins⟩
  have hwithin : run <:+: u ++ v := hbegins.isInfix.trans (List.suffix_append u v).isInfix
  simp only [runs, List.mem_cons, List.not_mem_nil, or_false] at hrun
  rcases hrun with rfl | rfl | rfl | rfl
  · exact (hnone '-' (hwithin.subset List.mem_cons_self)).2.2 rfl
  · exact hdots hwithin
  · exact (hnone '\x22' (hwithin.subset List.mem_cons_self)).1 rfl
  · exact (hnone '\x27' (hwithin.subset List.mem_cons_self)).2.1 rfl

theorem walk_of_not_needsWalk {html : List Char} (h : needsWalk html = false) (s : State) :
    walk 0 s html = html := walk_eq_self_iff.2 (atRest_of_not_needsWalk h s.place)

theorem educateMarkup_eq_walk (html : List Char) : educateMarkup html = walk 0 {} html := by
  unfold educateMarkup
  split
  · rfl
  · next h => exact (walk_of_not_needsWalk (by simpa using h) {}).symm

theorem educateMarkup_eq_self_iff {html : List Char} :
    educateMarkup html = html ↔ Place.AtRest {} html := by
  rw [educateMarkup_eq_walk]
  exact walk_eq_self_iff

/-- Markup in which no run can begin is written as it is by the walk as well, and educated markup stays
as it is when it is educated once more. -/
theorem educateMarkup_settles (html : List Char) :
    (needsWalk html = false → walk 0 {} html = html) ∧
    Place.AtRest {} (educateMarkup html) ∧
    educateMarkup (educateMarkup html) = educateMarkup html := by
  have hrest : Place.AtRest {} (educateMarkup html) := by
    rw [educateMarkup_eq_walk]
    exact atRest_walk {} html
  exact ⟨fun h => walk_of_not_needsWalk h {}, hrest, educateMarkup_eq_self_iff.2 hrest⟩

theorem educateMarkup_settles_dots : needsWalk "<p>a..b</p>".toList = false ∧
    walk 0 {} "<p>a..b</p>".toList = "<p>a..b</p>".toList := by
  have hpassed : needsWalk "<p>a..b</p>".toList = false := by decide
  exact ⟨hpassed, (educateMarkup_settles "<p>a..b</p>".toList).1 hpassed⟩

end Bindery.Html.Typography
