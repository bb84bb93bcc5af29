import Bindery.Listing
import Bindery.Proofs.Text.Replace

/-! A listing shows a text in rows, with numbers and rules around them. What is in the listing and
cannot be a part of its frame stands in the text. -/

namespace Bindery

namespace Text

variable {word a b : List Char}

/-- No word begins among characters that it has none of. -/
theorem infix_of_disjoint (hword : word ≠ []) (ha : ∀ c ∈ a, c ∉ word)
    (hin : word <:+: a ++ b) : word <:+: b := by
  refine infix_of_startsNowhere (startsNowhere_of_getLast (fun hin => ?_) fun c hc => ?_) hin
  · obtain ⟨c, w, rfl⟩ := List.exists_cons_of_ne_nil hword
    exact ha c (hin.subset List.mem_cons_self) List.mem_cons_self
  · exact ha c (List.mem_of_mem_getLast? hc)

/-- A word stands on one side of a character that it does not have. -/
theorem infix_or_infix {c : Char} (hword : word ≠ []) (hc : c ∉ word)
    (hin : word <:+: a ++ c :: b) : word <:+: a ∨ word <:+: b := by
  by_cases ha : word <:+: a
  · exact .inl ha
  · have hrest := infix_of_startsNowhere (startsNowhere_of_head ha fun d hd => ?_) hin
    · have hbehind : word <:+: [c] ++ b := hrest
      exact .inr (infix_of_disjoint hword (fun d hd => List.mem_singleton.1 hd ▸ hc) hbehind)
    · exact Option.some.inj hd ▸ hc

/-- A word in a row of texts, none of which it can run out of, is in one of them or behind all. -/
theorem infix_flatMap {α : Type} {f g : α → List Char}
    (hf : ∀ a rest, word <:+: f a ++ rest → word <:+: g a ∨ word <:+: rest) {l : List α}
    (hin : word <:+: l.flatMap f ++ b) : (∃ a ∈ l, word <:+: g a) ∨ word <:+: b := by
  induction l with
  | nil => exact .inr hin
  | cons a l ih =>
    rw [List.flatMap_cons, List.append_assoc] at hin
    rcases hf a _ hin with ha | hrest
    · exact .inl ⟨a, List.mem_cons_self, ha⟩
    · rcases ih hrest with ⟨x, hx, hin⟩ | hbehind
      · exact .inl ⟨x, List.mem_cons_of_mem _ hx, hin⟩
      · exact .inr hbehind

theorem infix_of_mem_splitOn {sep : Char → Bool} {piece cs : List Char}
    (h : piece ∈ splitOn sep cs) : piece <:+: cs := by
  suffices hall : (∀ piece ∈ splitOn sep cs, piece <:+: cs) ∧
      ∀ piece ∈ (splitOn sep cs).head?, piece <+: cs from hall.1 piece h
  clear h
  induction cs with
  | nil => simp [splitOn]
  | cons c cs ih =>
    obtain ⟨hin, hfront⟩ := ih
    have hbehind : ∀ piece ∈ splitOn sep cs, piece <:+: c :: cs := fun piece hpiece =>
      (hin piece hpiece).trans (List.infix_cons (List.infix_refl cs))
    unfold splitOn
    split
    · simpa using hbehind
    · cases hcs : splitOn sep cs with
      | nil => exact absurd hcs (splitOn_ne_nil sep cs)
      | cons first more =>
        rw [hcs] at hfront hbehind
        have hfirst : c :: first <+: c :: cs := (List.prefix_cons_inj c).2 (hfront first rfl)
        refine ⟨fun piece hpiece => ?_, fun piece hpiece => ?_⟩
        · rcases List.mem_cons.1 hpiece with rfl | hpiece
          · exact hfirst.isInfix
          · exact hbehind piece (List.mem_cons_of_mem _ hpiece)
        · exact Option.some.inj hpiece ▸ hfirst

end Text

namespace Listing

open Text

/-- The line above a listing. -/
def heading : List Char := "\nPrint content to stdout".toList

/-- A word that the frame of a listing has no part of. -/
structure Foreign (word : List Char) : Prop where
  ne_nil : word ≠ []
  plain : ∀ c ∈ word, c.isDigit = false ∧ c ∉ [' ', '.', '\n', '=']
  heading : ¬ word <:+: heading

variable {word rest : List Char} {width digits number : Nat}

theorem Foreign.not_mem (h : Foreign word) {c : Char} (hc : c ∈ [' ', '.', '\n', '=']) : c ∉ word :=
  fun hmem => (h.plain c hmem).2 hc

theorem Foreign.not_mem_replicate (h : Foreign word) {d : Char} (hd : d ∈ [' ', '.', '\n', '='])
    (n : Nat) : ∀ c ∈ List.replicate n d, c ∉ word :=
  fun _ hc => List.eq_of_mem_replicate hc ▸ h.not_mem hd

theorem infix_of_mem_splitRow {row piece cs : List Char} {used : Nat}
    (h : piece ∈ splitRow width row used cs) : piece <:+: row.reverse ++ cs := by
  induction cs generalizing row used with
  | nil => simp_all [splitRow]
  | cons c cs ih =>
    unfold splitRow at h
    split at h
    · rcases List.mem_cons.1 h with rfl | h
      · exact (List.prefix_append _ _).isInfix
      · exact (ih h).trans (List.suffix_append row.reverse (c :: cs)).isInfix
    · simpa using ih h

theorem mem_numberText {n : Nat} {c : Char} (h : c ∈ numberText n) : c.isDigit = true := by
  refine Nat.isDigit_of_mem_toDigits (by decide) (Nat.le_refl 10) (n := n) ?_
  simpa [numberText, toString, Nat.repr] using h

/-- A row shows what is between the frame and its end. -/
theorem Foreign.infix_row (hword : Foreign word) {frame row : List Char}
    (hframe : ∀ c ∈ frame, c ∉ word) (h : word <:+: frame ++ (row ++ '\n' :: rest)) :
    word <:+: row ∨ word <:+: rest :=
  infix_or_infix hword.ne_nil (hword.not_mem (by decide)) (infix_of_disjoint hword.ne_nil hframe h)

theorem Foreign.infix_rows (hword : Foreign word) {more : List (List Char)}
    (h : word <:+: (more.flatMap fun row => List.replicate (digits + 2) ' ' ++ row ++ ['\n']) ++ rest) :
    (∃ row ∈ more, word <:+: row) ∨ word <:+: rest := by
  refine infix_flatMap (fun row rest h => ?_) h
  simp only [List.append_assoc, List.singleton_append] at h
  exact hword.infix_row (hword.not_mem_replicate (by decide) _) h

theorem Foreign.infix_printLine (hword : Foreign word) {line : List Char}
    (h : word <:+: printLine width digits number line ++ rest) :
    word <:+: line ∨ word <:+: rest := by
  have hrows : ∀ row ∈ rows width line, word <:+: row → word <:+: line := fun row hrow hin =>
    hin.trans (infix_of_mem_splitRow hrow)
  unfold printLine at h
  cases hline : rows width line with
  | nil =>
    rw [hline] at h
    exact .inr h
  | cons first more =>
    rw [hline] at h hrows
    have hframe : ∀ c ∈ padLeft digits (numberText number) ++ ". ".toList, c ∉ word := by
      intro c hc
      simp only [padLeft, List.mem_append] at hc
      rcases hc with (hblank | hdigit) | hdot
      · exact hword.not_mem_replicate (by decide) _ c hblank
      · intro hmem
        exact Bool.false_ne_true ((hword.plain c hmem).1.symm.trans (mem_numberText hdigit))
      · have hmem : c = '.' ∨ c = ' ' := by simpa using hdot
        rcases hmem with rfl | rfl <;> exact hword.not_mem (by decide)
    simp only [List.append_assoc, List.singleton_append] at h hframe
    rw [← List.append_assoc] at h
    rcases hword.infix_row hframe h with hfirst | h
    · exact .inl (hrows first List.mem_cons_self hfirst)
    · simp only [← List.append_assoc] at h
      rcases hword.infix_rows h with ⟨row, hmem, hrow⟩ | hbehind
      · exact .inl (hrows row (List.mem_cons_of_mem _ hmem) hrow)
      · exact .inr hbehind

theorem infix_of_mem_printedLines {line code : List Char} (h : line ∈ printedLines code) :
    line <:+: code := by
  have hmem : line ∈ lines code := by
    unfold printedLines at h
    dsimp only at h
    split at h
    · exact List.mem_of_mem_dropLast h
    · exact h
  exact infix_of_mem_splitOn hmem

/-- What is in the listing of a text and no part of its frame is in the text. -/
theorem Foreign.infix_of_infix_render (hword : Foreign word) {code : List Char}
    (h : word <:+: render width code) : word <:+: code := by
  have hrule : ∀ n rest, word <:+: List.replicate n '=' ++ '\n' :: rest → word <:+: rest := by
    intro n rest h
    have hempty : word <:+: [] ∨ word <:+: rest :=
      hword.infix_row (hword.not_mem_replicate (by decide) n) h
    exact hempty.resolve_left fun hin => hword.ne_nil (List.infix_nil.1 hin)
  have hheading : "\nPrint content to stdout\n".toList = Listing.heading ++ ['\n'] := by decide
  unfold render at h
  dsimp only at h
  rw [hheading] at h
  simp only [List.append_assoc, List.singleton_append] at h
  rcases infix_or_infix hword.ne_nil (hword.not_mem (by decide)) h with hin | h
  · exact absurd hin hword.heading
  · rcases infix_flatMap (fun _ _ => hword.infix_printLine) (hrule _ _ h) with ⟨x, hx, hline⟩ | htail
    · exact hline.trans (infix_of_mem_printedLines (List.fst_mem_of_mem_zipIdx hx))
    · exact absurd (List.infix_nil.1 (hrule _ _ htail)) hword.ne_nil

end Listing
end Bindery
