import Bindery.Heading
import Bindery.Proofs.Text.Trim

/-! The marker that closes a heading's text. It opens where `{#` stands for the last time. -/

namespace Bindery

namespace Heading

variable {cs before body : List Char}

theorem splitMarker_cons (c : Char) (cs : List Char) :
    splitMarker (c :: cs) = match splitMarker cs with
      | some (before, body) => some (c :: before, body)
      | none => match c, cs with
        | '{', '#' :: body => some ([], body)
        | _, _ => none := rfl

theorem splitMarker_append_of_some (h : splitMarker cs = some (before, body)) (u : List Char) :
    splitMarker (u ++ cs) = some (u ++ before, body) := by
  induction u with
  | nil => exact h
  | cons c u ih => rw [List.cons_append, splitMarker_cons, ih, List.cons_append]

/-- The last marker is behind all that stands before it. -/
theorem splitMarker_append (h : splitMarker body = none) (before : List Char) :
    splitMarker (before ++ '{' :: '#' :: body) = some (before, body) := by
  have hhash : splitMarker ('#' :: body) = none := by
    rw [splitMarker_cons, h]
    rfl
  have hopen : splitMarker ('{' :: '#' :: body) = some ([], body) := by
    rw [splitMarker_cons, hhash]
    rfl
  have hfound := splitMarker_append_of_some hopen before
  rwa [List.append_nil] at hfound

theorem of_splitMarker (h : splitMarker cs = some (before, body)) :
    cs = before ++ '{' :: '#' :: body ∧ splitMarker body = none := by
  induction cs generalizing before with
  | nil => cases h
  | cons c cs ih =>
    rw [splitMarker_cons] at h
    cases hcs : splitMarker cs with
    | some found =>
      rw [hcs] at h
      cases h
      obtain ⟨hcs, hbody⟩ := ih hcs
      exact ⟨congrArg (c :: ·) hcs, hbody⟩
    | none =>
      rw [hcs] at h
      dsimp only at h
      split at h
      · cases h
        rw [splitMarker_cons] at hcs
        refine ⟨rfl, ?_⟩
        cases hbody : splitMarker body with
        | none => rfl
        | some found => simp [hbody] at hcs
      · cases h

theorem splitMarker_eq_none_iff : splitMarker cs = none ↔ ¬"\x7b#".toList <:+: cs := by
  constructor
  · rintro h ⟨before, after, rfl⟩
    rw [List.append_assoc] at h
    cases hafter : splitMarker after with
    | none => exact absurd (h.symm.trans (splitMarker_append hafter before)) (by simp)
    | some found =>
      exact absurd (h.symm.trans (splitMarker_append_of_some
        (splitMarker_append_of_some hafter "\x7b#".toList) before)) (by simp)
  · intro h
    cases hcs : splitMarker cs with
    | none => rfl
    | some found =>
      refine absurd ⟨found.1, found.2, ?_⟩ h
      rw [List.append_assoc]
      exact (of_splitMarker hcs).1.symm

theorem extractMarker_eq (text : List Char) : extractMarker text =
    if (Text.trimEnd text).getLast? = some '}' then
      match splitMarker (Text.trimEnd text) with
      | some (before, body) =>
        if body.dropLast.isEmpty || body.dropLast.contains '}' then (text, none)
        else (Text.trimEnd before, some (Text.trim body.dropLast))
      | none => (text, none)
    else (text, none) := rfl

theorem extractMarker_of_none {text : List Char} (h : (extractMarker text).2 = none) :
    extractMarker text = (text, none) := by
  unfold extractMarker at h ⊢
  grind

/-- The text, but for blanks behind it, is `before` and a marker that holds `inner`. -/
structure Marked (text before inner : List Char) : Prop where
  core_eq : Text.trimEnd text = before ++ '{' :: '#' :: (inner ++ ['}'])
  ne_nil : inner ≠ []
  unclosed : '}' ∉ inner
  last : ¬"\x7b#".toList <:+: inner

/-- The end of a marker opens none. -/
theorem splitMarker_closed (inner : List Char) :
    splitMarker (inner ++ ['}']) = none ↔ splitMarker inner = none := by
  rw [splitMarker_eq_none_iff, splitMarker_eq_none_iff, List.infix_concat_iff, not_or,
    and_iff_right_iff_imp]
  rintro - ⟨front, hfront⟩
  have hlast := congrArg List.getLast? hfront
  simp at hlast

theorem Marked.split {text inner : List Char} (h : Marked text before inner) :
    splitMarker (Text.trimEnd text) = some (before, inner ++ ['}']) := by
  rw [h.core_eq]
  exact splitMarker_append
    ((splitMarker_closed inner).2 (splitMarker_eq_none_iff.2 h.last)) before

/-- There is one way to read a text as marked. -/
theorem Marked.unique {text inner before' inner' : List Char} (h : Marked text before inner)
    (h' : Marked text before' inner') : before' = before ∧ inner' = inner := by
  have hsplit := h'.split.symm.trans h.split
  rw [Option.some.injEq, Prod.mk.injEq] at hsplit
  exact hsplit.imp_right List.append_cancel_right

theorem Marked.extract {text inner : List Char} (h : Marked text before inner) :
    extractMarker text = (Text.trimEnd before, some (Text.trim inner)) := by
  have hcore : Text.trimEnd text = (before ++ '{' :: '#' :: inner) ++ ['}'] := by
    rw [h.core_eq]
    simp
  have hlast : (Text.trimEnd text).getLast? = some '}' := by
    rw [hcore, List.getLast?_concat]
  rw [extractMarker_eq, if_pos hlast, h.split]
  simp [h.ne_nil, h.unclosed]

/-- Where a text ends with a brace, so does what stands behind the marker's opening. -/
theorem exists_closed (h : (before ++ '{' :: '#' :: body).getLast? = some '}') :
    ∃ inner, body = inner ++ ['}'] := by
  rcases List.eq_nil_or_concat body with rfl | ⟨inner, c, rfl⟩
  · simp at h
  · have hconcat : before ++ '{' :: '#' :: inner.concat c = (before ++ '{' :: '#' :: inner) ++ [c] := by
      simp
    rw [hconcat, List.getLast?_concat, Option.some.injEq] at h
    exact ⟨inner, by rw [List.concat_eq_append, h]⟩

/-- A marker is taken off a marked text alone. -/
theorem exists_marked {text : List Char} (h : (extractMarker text).2 ≠ none) :
    ∃ before inner, Marked text before inner := by
  rw [extractMarker_eq] at h
  by_cases hlast : (Text.trimEnd text).getLast? = some '}'
  · rw [if_pos hlast] at h
    cases hsplit : splitMarker (Text.trimEnd text) with
    | none => simp [hsplit] at h
    | some found =>
      obtain ⟨before, body⟩ := found
      obtain ⟨hcore, hbody⟩ := of_splitMarker hsplit
      rw [hcore] at hlast
      obtain ⟨inner, rfl⟩ := exists_closed hlast
      rw [splitMarker_closed, splitMarker_eq_none_iff] at hbody
      have hinner : inner ≠ [] ∧ '}' ∉ inner := by
        rw [← not_or]
        intro hrefused
        rw [hsplit] at h
        simp [hrefused] at h
      exact ⟨before, inner, hcore, hinner.1, hinner.2, hbody⟩
  · simp [if_neg hlast] at h

/-- A marker that is taken off a text opens where `{#` stands last, and the text ends with it. -/
theorem of_extractMarker {text : List Char} (h : (extractMarker text).2 ≠ none) :
    ∃ before inner, Text.trimEnd text = before ++ '{' :: '#' :: (inner ++ ['}']) ∧
      splitMarker (inner ++ ['}']) = none ∧ (extractMarker text).1 = Text.trimEnd before := by
  obtain ⟨before, inner, hmarked⟩ := exists_marked h
  refine ⟨before, inner, hmarked.core_eq, ?_, congrArg Prod.fst hmarked.extract⟩
  exact (splitMarker_closed inner).2 (splitMarker_eq_none_iff.2 hmarked.last)

/-- A marker is taken off exactly the marked texts, each of which is marked in one way, and every
other text stays as it is. -/
theorem extractMarker_reads (text : List Char) :
    ((extractMarker text).2 ≠ none ↔ ∃ before inner, Marked text before inner) ∧
    (∀ before inner, Marked text before inner →
      (∀ before' inner', Marked text before' inner' → before' = before ∧ inner' = inner) ∧
      extractMarker text = (Text.trimEnd before, some (Text.trim inner))) ∧
    ((¬∃ before inner, Marked text before inner) → extractMarker text = (text, none)) := by
  refine ⟨⟨exists_marked, ?_⟩, fun before inner h => ⟨fun _ _ => h.unique, h.extract⟩, fun h => ?_⟩
  · rintro ⟨before, inner, h⟩
    rw [h.extract]
    simp
  · exact extractMarker_of_none (not_not.1 fun hsome => h (exists_marked hsome))

theorem extractMarker_reads_reopened :
    (Marked "a \x7b#b \x7b# c \x7d \n".toList "a \x7b#b ".toList " c ".toList ∧
      extractMarker "a \x7b#b \x7b# c \x7d \n".toList = ("a \x7b#b".toList, some "c".toList)) ∧
    (¬∃ before inner, Marked "a \x7b#\x7d ".toList before inner) ∧
      extractMarker "a \x7b#\x7d ".toList = ("a \x7b#\x7d ".toList, none) := by
  have h : Marked "a \x7b#b \x7b# c \x7d \n".toList "a \x7b#b ".toList " c ".toList :=
    ⟨by decide, by decide, by decide, by decide⟩
  have hempty : ¬∃ before inner, Marked "a \x7b#\x7d ".toList before inner := fun hmarked =>
    absurd ((extractMarker_reads _).1.2 hmarked) (by decide)
  refine ⟨⟨h, ?_⟩, hempty, (extractMarker_reads _).2.2 hempty⟩
  exact ((extractMarker_reads _).2.1 _ _ h).2.trans (by decide)

end Heading

end Bindery
