import Bindery.Text.Basic
import Mathlib.Data.List.Infix

/-! Replacing the occurrences of a word in a text that is cut into pieces. When no occurrence begins
in a piece, the piece stays as it is and the rest is replaced by itself. -/

namespace Bindery.Text

theorem hasInfix_iff {word cs : List Char} : hasInfix word cs = true ↔ word <:+: cs := by
  induction cs with
  | nil => simp [hasInfix]
  | cons c cs ih => simp [hasInfix, ih, List.infix_cons_iff]

/-- No occurrence of `word` begins in `a` when `b` follows. -/
def StartsNowhere (word a b : List Char) : Prop := ∀ s, s ≠ [] → s <:+ a → ¬ word <+: s ++ b

theorem startsNowhere_nil_left (word b : List Char) : StartsNowhere word [] b :=
  fun _ hs hsuffix => absurd (List.suffix_nil.1 hsuffix) hs

theorem startsNowhere_cons {word a b : List Char} {c : Char} :
    StartsNowhere word (c :: a) b ↔ ¬ word <+: c :: (a ++ b) ∧ StartsNowhere word a b := by
  constructor
  · intro h
    refine ⟨h (c :: a) (List.cons_ne_nil c a) (List.suffix_refl _), fun s hs hsuffix => ?_⟩
    exact h s hs (hsuffix.trans (List.suffix_cons c a))
  · rintro ⟨hhere, hrest⟩ s hs hsuffix
    rcases List.suffix_cons_iff.1 hsuffix with rfl | hsuffix
    · exact hhere
    · exact hrest s hs hsuffix

theorem startsNowhere_append {word a b c : List Char} :
    StartsNowhere word (a ++ b) c ↔ StartsNowhere word a (b ++ c) ∧ StartsNowhere word b c := by
  induction a with
  | nil => simp [startsNowhere_nil_left]
  | cons x a ih => simp only [List.cons_append, startsNowhere_cons, ih, List.append_assoc, and_assoc]

theorem infix_of_startsNowhere {word a b : List Char} (h : StartsNowhere word a b)
    (hin : word <:+: a ++ b) : word <:+: b := by
  induction a with
  | nil => exact hin
  | cons c a ih =>
    rw [startsNowhere_cons] at h
    rw [List.cons_append, List.infix_cons_iff] at hin
    exact ih h.2 (hin.resolve_left h.1)

theorem not_infix_of_startsNowhere {word a : List Char} (hword : word ≠ [])
    (h : StartsNowhere word a []) : ¬ word <:+: a := fun hin =>
  hword (List.infix_nil.1 (infix_of_startsNowhere h (by rwa [List.append_nil])))

/-- An occurrence that begins in a piece without one ends behind it, so it holds the last character
of the piece and the first one after it. -/
theorem straddles {word a b s : List Char} (hfree : ¬ word <:+: a) (hs : s <:+ a)
    (hword : word <+: s ++ b) : ∃ t, t ≠ [] ∧ t <+: b ∧ word = s ++ t := by
  obtain ⟨rest, hrest⟩ := hword
  rcases List.append_eq_append_iff.1 hrest with ⟨t, rfl, -⟩ | ⟨t, rfl, hb⟩
  · exact absurd ((List.prefix_append word t).isInfix.trans hs.isInfix) hfree
  · refine ⟨t, ?_, ⟨rest, hb.symm⟩, rfl⟩
    rintro rfl
    rw [List.append_nil] at hfree
    exact hfree hs.isInfix

/-- The character behind the piece is none of the word's. -/
theorem startsNowhere_of_head {word a b : List Char} (hfree : ¬ word <:+: a)
    (hb : ∀ c ∈ b.head?, c ∉ word) : StartsNowhere word a b := by
  intro s _ hs hword
  obtain ⟨t, ht, ⟨rest, rfl⟩, rfl⟩ := straddles hfree hs hword
  obtain ⟨c, t, rfl⟩ := List.exists_cons_of_ne_nil ht
  exact hb c (by simp) (by simp)

/-- The last character of the piece is none of the word's. -/
theorem startsNowhere_of_getLast {word a b : List Char} (hfree : ¬ word <:+: a)
    (ha : ∀ c ∈ a.getLast?, c ∉ word) : StartsNowhere word a b := by
  intro s hne hs hword
  obtain ⟨t, -, -, rfl⟩ := straddles hfree hs hword
  obtain ⟨front, rfl⟩ := hs
  refine ha (s.getLast hne) ?_ (List.mem_append_left _ (List.getLast_mem hne))
  rw [List.getLast?_append_of_ne_nil _ hne, List.getLast?_eq_some_getLast hne, Option.mem_some_iff]

theorem replaceFrom_append {word new a b : List Char} (h : StartsNowhere word a b) :
    replaceFrom word new 0 (a ++ b) = a ++ replaceFrom word new 0 b := by
  induction a with
  | nil => rfl
  | cons c a ih =>
    rw [startsNowhere_cons] at h
    have hhere : ¬ word.isPrefixOf (c :: (a ++ b)) = true := by
      rw [List.isPrefixOf_iff_prefix]
      exact h.1
    rw [List.cons_append, replaceFrom, if_neg hhere, ih h.2, List.cons_append]

theorem replaceFrom_skip (word new a b : List Char) :
    replaceFrom word new a.length (a ++ b) = replaceFrom word new 0 b := by
  induction a with
  | nil => rfl
  | cons c a ih => simpa only [List.length_cons, List.cons_append, replaceFrom] using ih

theorem replaceFrom_self {word : List Char} (hword : word ≠ []) (new b : List Char) :
    replaceFrom word new 0 (word ++ b) = new ++ replaceFrom word new 0 b := by
  obtain ⟨c, w, rfl⟩ := List.exists_cons_of_ne_nil hword
  have hhere : (c :: w).isPrefixOf (c :: (w ++ b)) = true := by
    rw [List.isPrefixOf_iff_prefix]
    exact ⟨b, rfl⟩
  rw [List.cons_append, replaceFrom, if_pos hhere]
  simpa using replaceFrom_skip (c :: w) new w b

theorem replaceAll_eq_replaceFrom {word : List Char} (hword : word ≠ []) (new cs : List Char) :
    replaceAll word new cs = replaceFrom word new 0 cs := by
  obtain ⟨c, w, rfl⟩ := List.exists_cons_of_ne_nil hword
  rfl

theorem replaceAll_of_not_infix {word : List Char} (hword : word ≠ []) (new : List Char)
    {cs : List Char} (h : ¬ word <:+: cs) : replaceAll word new cs = cs := by
  have hstart : StartsNowhere word cs [] := startsNowhere_of_head h (by simp)
  have hreplace : replaceFrom word new 0 (cs ++ []) = cs ++ [] := replaceFrom_append hstart
  rw [List.append_nil] at hreplace
  rw [replaceAll_eq_replaceFrom hword, hreplace]

theorem prefix_append_cons {word u v : List Char} {c : Char} (hc : c ∉ word) :
    word <+: u ++ c :: v ↔ word <+: u := by
  refine ⟨fun h => ?_, fun h => h.trans (List.prefix_append u _)⟩
  obtain ⟨rest, hrest⟩ := h
  rcases List.append_eq_append_iff.1 hrest with ⟨w, hu, -⟩ | ⟨w, hword, hw⟩
  · exact ⟨w, hu.symm⟩
  · cases w with
    | nil => exact ⟨[], by rw [hword, List.append_nil, List.append_nil]⟩
    | cons d w =>
      rw [List.cons_append, List.cons.injEq] at hw
      exact absurd (by rw [hword, hw.1]; simp) hc

/-- A character that is none of the word's parts the text into two that are replaced apart. -/
theorem replaceFrom_append_cons {word : List Char} (hword : word ≠ []) (new : List Char) {c : Char}
    (hc : c ∉ word) {skip : Nat} {u : List Char} (hskip : skip ≤ u.length) (v : List Char) :
    replaceFrom word new skip (u ++ c :: v) =
      replaceFrom word new skip u ++ c :: replaceFrom word new 0 v := by
  induction u generalizing skip with
  | nil =>
    have hzero : skip = 0 := Nat.le_zero.1 hskip
    have hhere : ¬word.isPrefixOf (c :: v) = true := by
      rw [List.isPrefixOf_iff_prefix]
      intro h
      exact hword (List.prefix_nil.1 ((prefix_append_cons (u := []) hc).1 h))
    have hstep : replaceFrom word new 0 (c :: v) = c :: replaceFrom word new 0 v := by
      rw [replaceFrom, if_neg hhere]
    rw [hzero, List.nil_append, hstep]
    rfl
  | cons d u ih =>
    cases skip with
    | succ skip =>
      rw [List.cons_append, replaceFrom, replaceFrom]
      exact ih (Nat.le_of_succ_le_succ hskip)
    | zero =>
      have hsame : word.isPrefixOf (d :: (u ++ c :: v)) = word.isPrefixOf (d :: u) := by
        rw [Bool.eq_iff_iff, List.isPrefixOf_iff_prefix, List.isPrefixOf_iff_prefix,
          ← List.cons_append, prefix_append_cons hc]
      rw [List.cons_append, replaceFrom, replaceFrom, hsame]
      split
      · rename_i hprefix
        have hlength := (List.isPrefixOf_iff_prefix.1 hprefix).length_le
        rw [List.length_cons] at hlength
        rw [ih (by omega), List.append_assoc]
      · rw [ih (Nat.zero_le _), List.cons_append]

theorem replaceAll_append_cons {word : List Char} (hword : word ≠ []) (new : List Char) {c : Char}
    (hc : c ∉ word) (u v : List Char) :
    replaceAll word new (u ++ c :: v) = replaceAll word new u ++ c :: replaceAll word new v := by
  rw [replaceAll_eq_replaceFrom hword, replaceAll_eq_replaceFrom hword,
    replaceAll_eq_replaceFrom hword, replaceFrom_append_cons hword new hc (Nat.zero_le _)]

end Bindery.Text
