import Bindery.Listing
import Bindery.Proofs.Path.Components
import Bindery.Proofs.Text.Trim
import Mathlib.Data.List.SplitBy
import Mathlib.Data.String.Basic

/-! Reading a listing back. Its rows are cut behind their numbers, and those without a number are
joined to the row before them, which gives the lines of the text. Each line was broken only where the
next character had no place. -/

namespace Bindery

namespace Text

theorem join_eq_intercalate (sep : List Char) (pieces : List (List Char)) :
    join sep pieces = sep.intercalate pieces := by
  induction pieces with
  | nil => rfl
  | cons piece pieces ih =>
    cases pieces with
    | nil => exact List.intercalate_singleton.symm
    | cons next pieces =>
      rw [List.intercalate_cons_cons, ← ih]
      rfl

theorem lines_eq_splitOn (cs : List Char) : lines cs = cs.splitOn '\n' := by
  rw [lines, splitOn_eq_splitOnP, List.splitOn_eq_splitOnP]

theorem join_lines (cs : List Char) : join ['\n'] (lines cs) = cs := by
  rw [lines_eq_splitOn, join_eq_intercalate, List.intercalate_splitOn]

theorem lines_of_not_mem {line : List Char} (h : '\n' ∉ line) : lines line = [line] := by
  rw [lines_eq_splitOn, List.splitOn_eq_singleton h]

theorem lines_append (front back : List Char) :
    lines (front ++ '\n' :: back) = lines front ++ lines back := by
  simp only [lines_eq_splitOn]
  exact List.splitOn_append_cons_self front back

theorem not_mem_of_mem_lines {line cs : List Char} (h : line ∈ lines cs) : '\n' ∉ line := by
  intro hmem
  exact absurd (sep_not_mem_splitOn h '\n' hmem) (by decide)

theorem lines_flatMap {rows : List (List Char)} (h : ∀ row ∈ rows, '\n' ∉ row)
    (rest : List Char) :
    lines ((rows.flatMap fun row => row ++ ['\n']) ++ rest) = rows ++ lines rest := by
  induction rows with
  | nil => rfl
  | cons row rows ih =>
    obtain ⟨hrow, hrows⟩ := List.forall_mem_cons.1 h
    rw [List.flatMap_cons, List.append_assoc, List.append_assoc, List.singleton_append,
      lines_append, lines_of_not_mem hrow, ih hrows]
    rfl

/-- The text without one line feed at its end. -/
def unended (cs : List Char) : List Char := if cs.getLast? = some '\n' then cs.dropLast else cs

theorem exists_last_line (cs : List Char) :
    '\n' ∉ cs ∨ ∃ front last, cs = front ++ '\n' :: last ∧ '\n' ∉ last := by
  -- What is left when the last line is dropped is empty or ends with the last line feed.
  obtain ⟨last, hcs, hlast, hend⟩ := exists_dropEndWhile (· != '\n') cs
  have hnone : '\n' ∉ last := fun hmem => absurd (hlast '\n' hmem) (by decide)
  cases hkept : (dropEndWhile (· != '\n') cs).getLast? with
  | none =>
    rw [List.getLast?_eq_none_iff.1 hkept, List.nil_append] at hcs
    exact .inl (hcs ▸ hnone)
  | some c =>
    obtain ⟨front, hfront⟩ := List.getLast?_eq_some_iff.1 hkept
    have hc : c = '\n' := by simpa using hend c hkept
    refine .inr ⟨front, last, ?_, hnone⟩
    conv_lhs => rw [hcs, hfront, hc]
    simp

end Text

namespace Listing

open Text

variable {width digits number used : Nat} {row line cs : List Char}

/-- The lines of a text; a line feed at its end opens no other line. -/
def codeLines (code : List Char) : List (List Char) := lines (unended code)

theorem printedLines_eq (code : List Char) : printedLines code = codeLines code := by
  unfold printedLines codeLines unended
  dsimp only
  rcases exists_last_line code with hnone | ⟨front, last, rfl, hnone⟩
  · have hlast : code.getLast? ≠ some '\n' := fun h => hnone (List.mem_of_getLast? h)
    rw [if_neg hlast, lines_of_not_mem hnone]
    rfl
  · have hfront : 0 < (lines front).length :=
      List.length_pos_of_ne_nil (splitOn_ne_nil (· == '\n') front)
    rw [lines_append, lines_of_not_mem hnone]
    by_cases hempty : last = []
    · -- The line behind a final line feed is not printed.
      subst hempty
      simp [hfront]
    · have hlast : (front ++ '\n' :: last).getLast? ≠ some '\n' := by
        rw [List.getLast?_append_of_ne_nil _ (List.cons_ne_nil _ _), ← List.singleton_append,
          List.getLast?_append_of_ne_nil _ hempty]
        exact fun h => hnone (List.mem_of_getLast? h)
      rw [if_neg hlast, lines_append, lines_of_not_mem hnone]
      simp [hempty]

/-! The pieces of a line. -/

/-- Pieces that have no more than their place, unless it is a single character, each of which ends
where the next character has no place behind it. -/
structure Wrapped (width : Nat) (pieces : List (List Char)) : Prop where
  fits : ∀ piece ∈ pieces, (String.ofList piece).utf8ByteSize ≤ width ∨ piece.length = 1
  full : pieces.IsChain fun piece next =>
    piece ≠ [] ∧ ∃ c ∈ next.head?, width < (String.ofList piece).utf8ByteSize + c.utf8Size

theorem splitRow_cons (c : Char) : splitRow width row used (c :: cs) =
    if used + c.utf8Size > width && used > 0 then
      row.reverse :: splitRow width [c] c.utf8Size cs
    else splitRow width (c :: row) (used + c.utf8Size) cs := rfl

theorem flatten_splitRow (cs : List Char) :
    (splitRow width row used cs).flatten = row.reverse ++ cs := by
  induction cs generalizing row used with
  | nil => simp [splitRow]
  | cons c cs ih =>
    rw [splitRow_cons]
    split <;> simp [ih]

theorem exists_splitRow (width : Nat) (row : List Char) (used : Nat) (cs : List Char) :
    ∃ more rest, splitRow width row used cs = (row.reverse ++ more) :: rest := by
  induction cs generalizing row used with
  | nil => exact ⟨[], [], by simp [splitRow]⟩
  | cons c cs ih =>
    rw [splitRow_cons]
    split
    · exact ⟨[], _, by rw [List.append_nil]⟩
    · obtain ⟨more, rest, h⟩ := ih (c :: row) (used + c.utf8Size)
      exact ⟨c :: more, rest, by simpa using h⟩

theorem wrapped_splitRow (hused : used = String.utf8Len row)
    (hfits : String.utf8Len row ≤ width ∨ row.length = 1) (cs : List Char) :
    Wrapped width (splitRow width row used cs) := by
  -- On the text left, for all that is gathered: it has its place, or is a single character.
  induction cs generalizing row used with
  | nil =>
    refine ⟨?_, List.isChain_singleton _⟩
    simpa [splitRow, String.utf8ByteSize_ofList] using hfits
  | cons c cs ih =>
    rw [splitRow_cons]
    split
    · next hbreak =>
      simp only [Bool.and_eq_true, decide_eq_true_eq] at hbreak
      have hrow : (String.ofList row.reverse).utf8ByteSize = String.utf8Len row := by
        rw [String.utf8ByteSize_ofList, String.utf8Len_reverse]
      have hrest : Wrapped width (splitRow width [c] c.utf8Size cs) := ih (by simp) (.inr rfl)
      obtain ⟨more, rest, hfirst⟩ := exists_splitRow width [c] c.utf8Size cs
      have hne : row ≠ [] := by
        rintro rfl
        simp at hused
        omega
      refine ⟨List.forall_mem_cons.2 ⟨?_, hrest.fits⟩, List.isChain_cons.2 ⟨?_, hrest.full⟩⟩
      -- The piece that ends here, and the character that the next one begins with.
      · rw [hrow, List.length_reverse]
        exact hfits
      · rw [hfirst]
        rintro next ⟨⟩
        refine ⟨by simpa using hne, c, rfl, ?_⟩
        rw [hrow, ← hused]
        exact hbreak.1
    · next hplace =>
      simp only [Bool.and_eq_true, decide_eq_true_eq, not_and_or, not_lt] at hplace
      refine ih (by simp [hused]) ?_
      rcases hplace with hplace | hnone
      · left
        rw [String.utf8Len_cons, ← hused]
        omega
      · -- Nothing was gathered, so the character is alone and may be too wide.
        right
        have hempty : String.utf8Len row = 0 := by omega
        simp [String.utf8Len_eq_zero.1 hempty]

theorem flatten_rows (width : Nat) (line : List Char) : (rows width line).flatten = line :=
  flatten_splitRow line

theorem wrapped_rows (width : Nat) (line : List Char) : Wrapped width (rows width line) :=
  wrapped_splitRow rfl (.inl (Nat.zero_le _)) line

/-! The rows of a line. -/

theorem numberText_eq (n : Nat) : numberText n = Nat.toDigits 10 n := by
  rw [numberText, Nat.toString_eq_ofList_toDigits, String.toList_ofList]

theorem length_toDigits_le {n m : Nat} (h : n ≤ m) :
    (Nat.toDigits 10 n).length ≤ (Nat.toDigits 10 m).length := by
  rw [Nat.length_toDigits_le_iff (by decide) Nat.length_toDigits_pos]
  exact Nat.lt_of_le_of_lt h
    ((Nat.length_toDigits_le_iff (by decide) Nat.length_toDigits_pos).1 (Nat.le_refl _))

/-- The beginning of a row with a number, which stands at the right of its column. -/
def numberMargin (digits number : Nat) : List Char :=
  List.replicate (digits - (Nat.toDigits 10 number).length) ' ' ++ Nat.toDigits 10 number ++
    ". ".toList

/-- The beginning of a row that goes on with the line of the row before it. -/
def blankMargin (digits : Nat) : List Char := List.replicate (digits + 2) ' '

/-- The rows that a line is printed as. -/
def lineRows (width digits number : Nat) (line : List Char) : List (List Char) :=
  match rows width line with
  | [] => []
  | first :: more => (numberMargin digits number ++ first) :: more.map (blankMargin digits ++ ·)

theorem exists_rows (width : Nat) (line : List Char) :
    ∃ first more, rows width line = first :: more :=
  let ⟨_, more, h⟩ := exists_splitRow width [] 0 line
  ⟨_, more, h⟩

theorem printLine_eq (width digits number : Nat) (line : List Char) :
    printLine width digits number line =
      (lineRows width digits number line).flatMap fun row => row ++ ['\n'] := by
  obtain ⟨first, more, hrows⟩ := exists_rows width line
  unfold printLine lineRows
  rw [hrows]
  simp [numberMargin, padLeft, numberText_eq, blankMargin, List.flatMap_map]

theorem length_numberMargin (h : (Nat.toDigits 10 number).length ≤ digits) :
    (numberMargin digits number).length = digits + 2 := by
  simp [numberMargin]
  omega

@[simp] theorem length_blankMargin : (blankMargin digits).length = digits + 2 :=
  List.length_replicate

/-- A row has blanks where a number would be. -/
def isContinued (margin : Nat) (row : List Char) : Bool := (row.take margin).all (· == ' ')

theorem isContinued_blankMargin (piece : List Char) :
    isContinued (digits + 2) (blankMargin digits ++ piece) = true := by
  unfold isContinued
  rw [List.take_left' length_blankMargin]
  simp [blankMargin]

theorem isContinued_numberMargin (h : (Nat.toDigits 10 number).length ≤ digits)
    (piece : List Char) :
    isContinued (digits + 2) (numberMargin digits number ++ piece) = false := by
  unfold isContinued
  rw [List.take_left' (length_numberMargin h), List.all_eq_false]
  exact ⟨'.', by simp [numberMargin], by decide⟩

theorem map_drop_lineRows (h : (Nat.toDigits 10 number).length ≤ digits) (line : List Char) :
    (lineRows width digits number line).map (·.drop (digits + 2)) = rows width line := by
  obtain ⟨first, more, hrows⟩ := exists_rows width line
  unfold lineRows
  rw [hrows]
  dsimp only
  rw [List.map_cons, List.drop_left' (length_numberMargin h), List.map_map]
  congr 1
  simp [Function.comp_def, List.drop_left' length_blankMargin]

theorem mem_lineRows (h : row ∈ lineRows width digits number line) :
    ∃ piece ∈ rows width line,
      row = numberMargin digits number ++ piece ∨ row = blankMargin digits ++ piece := by
  obtain ⟨first, more, hrows⟩ := exists_rows width line
  rw [lineRows, hrows] at h
  rw [hrows]
  rcases List.mem_cons.1 h with rfl | h
  · exact ⟨first, List.mem_cons_self, .inl rfl⟩
  · obtain ⟨piece, hpiece, rfl⟩ := List.mem_map.1 h
    exact ⟨piece, List.mem_cons_of_mem _ hpiece, .inr rfl⟩

theorem not_mem_lineRows (hline : '\n' ∉ line) (h : row ∈ lineRows width digits number line) :
    '\n' ∉ row := by
  obtain ⟨piece, hpiece, hrow⟩ := mem_lineRows h
  have hclean : '\n' ∉ piece := by
    intro hmem
    rw [← flatten_rows width line] at hline
    exact hline (List.mem_flatten.2 ⟨piece, hpiece, hmem⟩)
  have hnumber : '\n' ∉ Nat.toDigits 10 number := fun hmem =>
    absurd (Nat.isDigit_of_mem_toDigits (by decide) (Nat.le_refl 10) hmem) (by decide)
  rcases hrow with rfl | rfl
  · simp [numberMargin, hclean, hnumber]
  · simp [blankMargin, hclean]

/-! The rows of a listing. -/

variable {ls : List (List Char)}

/-- The width of the column of numbers. -/
def columnWidth (ls : List (List Char)) : Nat := (Nat.toDigits 10 ls.length).length

/-- The width of what stands before a piece. -/
def marginWidth (ls : List (List Char)) : Nat := columnWidth ls + 2

/-- The rows that each line is printed as. -/
def parts (width : Nat) (ls : List (List Char)) : List (List (List Char)) :=
  (ls.zipIdx 1).map fun (line, number) => lineRows width (columnWidth ls) number line

/-- The rule above and below the rows. -/
def rule (width : Nat) (ls : List (List Char)) : List Char :=
  List.replicate (width + marginWidth ls) '='

theorem length_toDigits_of_mem {x : List Char × Nat} (h : x ∈ ls.zipIdx 1) :
    (Nat.toDigits 10 x.2).length ≤ columnWidth ls := by
  have hnumber : x.2 ∈ (ls.zipIdx 1).map Prod.snd := List.mem_map_of_mem h
  rw [List.zipIdx_map_snd, List.mem_range'_1] at hnumber
  exact length_toDigits_le (by omega)

theorem render_eq (width : Nat) (code : List Char) :
    render width code = ([[], "Print content to stdout".toList, rule width (codeLines code)] ++
      (parts width (codeLines code)).flatten ++
      [rule width (codeLines code)]).flatMap fun row => row ++ ['\n'] := by
  have htitle : "\nPrint content to stdout\n".toList =
      '\n' :: ("Print content to stdout".toList ++ ['\n']) := by decide
  have hrows : ((parts width (codeLines code)).flatten.flatMap fun row => row ++ ['\n']) =
      ((codeLines code).zipIdx 1).flatMap fun (line, number) =>
        printLine width (columnWidth (codeLines code)) number line := by
    simp only [parts, ← List.flatMap_def, List.flatMap_assoc, printLine_eq]
  unfold render
  dsimp only
  rw [printedLines_eq, htitle, List.flatMap_append, List.flatMap_append, hrows]
  simp [rule, marginWidth, columnWidth, numberText_eq, Nat.add_assoc]

theorem not_mem_parts (h : row ∈ (parts width (lines cs)).flatten) : '\n' ∉ row := by
  obtain ⟨part, hpart, hrow⟩ := List.mem_flatten.1 h
  obtain ⟨⟨line, number⟩, hx, rfl⟩ := List.mem_map.1 hpart
  exact not_mem_lineRows (not_mem_of_mem_lines (List.fst_mem_of_mem_zipIdx hx)) hrow

theorem lines_render (width : Nat) (code : List Char) : lines (render width code) =
    [[], "Print content to stdout".toList, rule width (codeLines code)] ++
      (parts width (codeLines code)).flatten ++ [rule width (codeLines code), []] := by
  have hrule : '\n' ∉ rule width (codeLines code) := by simp [rule]
  have hclean : ∀ row ∈ [[], "Print content to stdout".toList, rule width (codeLines code)] ++
      (parts width (codeLines code)).flatten ++ [rule width (codeLines code)], '\n' ∉ row := by
    intro row hrow
    simp only [List.mem_append, List.mem_cons, List.not_mem_nil, or_false] at hrow
    rcases hrow with ((rfl | rfl | rfl) | hrow) | rfl
    · simp
    · decide
    · exact hrule
    · exact not_mem_parts hrow
    · exact hrule
  have hlines := lines_flatMap hclean []
  rw [List.append_nil, ← render_eq] at hlines
  rw [hlines, List.append_assoc]
  rfl

/-- The rows of a listing between its two rules. -/
def shownRows (listing : List Char) : List (List Char) := ((lines listing).drop 3).dropLast.dropLast

theorem shownRows_render (width : Nat) (code : List Char) :
    shownRows (render width code) = (parts width (codeLines code)).flatten := by
  rw [shownRows, lines_render]
  simp

/-- Rows put together by line: one without a number goes with the row before it. -/
def shownParts (margin : Nat) (rows : List (List Char)) : List (List (List Char)) :=
  rows.splitBy fun _ row => isContinued margin row

/-- Of the rows of a line the first one alone has a number. -/
theorem exists_lineRows (h : (Nat.toDigits 10 number).length ≤ digits) (width : Nat)
    (line : List Char) : ∃ first more, lineRows width digits number line = first :: more ∧
      isContinued (digits + 2) first = false ∧
      first.take (digits + 2) = numberMargin digits number ∧
      ∀ row ∈ more, isContinued (digits + 2) row = true := by
  obtain ⟨first, more, hrows⟩ := exists_rows width line
  rw [lineRows, hrows]
  refine ⟨_, _, rfl, isContinued_numberMargin h first, List.take_left' (length_numberMargin h), ?_⟩
  intro row hrow
  obtain ⟨piece, -, rfl⟩ := List.mem_map.1 hrow
  exact isContinued_blankMargin piece

theorem shownParts_parts (width : Nat) (ls : List (List Char)) :
    shownParts (marginWidth ls) (parts width ls).flatten = parts width ls := by
  have hpart : ∀ part ∈ parts width ls, ∃ first more, part = first :: more ∧
      isContinued (marginWidth ls) first = false ∧
      ∀ row ∈ more, isContinued (marginWidth ls) row = true := by
    intro part hpart
    obtain ⟨x, hx, rfl⟩ := List.mem_map.1 hpart
    obtain ⟨first, more, hrows, hfirst, -, hmore⟩ :=
      exists_lineRows (length_toDigits_of_mem hx) width x.1
    exact ⟨first, more, hrows, hfirst, hmore⟩
  -- The cuts of a list are the ones behind which a row has a number.
  refine List.splitBy_flatten ?_ ?_ ?_
  · intro hnil
    obtain ⟨first, more, hempty, -⟩ := hpart [] hnil
    cases hempty
  · intro part hmem
    obtain ⟨first, more, rfl, -, hmore⟩ := hpart part hmem
    exact (List.pairwise_cons.2 ⟨hmore, List.pairwise_of_forall_mem_list fun _ _ => hmore⟩).isChain
  · refine (List.pairwise_of_forall_mem_list fun part hmem next hnext => ?_).isChain
    obtain ⟨first, more, rfl, -⟩ := hpart part hmem
    obtain ⟨first', more', rfl, hfirst, -⟩ := hpart next hnext
    exact ⟨List.cons_ne_nil _ _, List.cons_ne_nil _ _, hfirst⟩

/-- Rows that show the given lines. -/
structure Shows (width : Nat) (ls rows : List (List Char)) : Prop where
  wide : ∀ row ∈ rows, marginWidth ls ≤ row.length
  joined : (shownParts (marginWidth ls) rows).map (fun part =>
    part.flatMap fun row => row.drop (marginWidth ls)) = ls
  numbered : (rows.filter fun row => !isContinued (marginWidth ls) row).map
    (fun row => row.take (marginWidth ls)) =
      (List.range' 1 ls.length).map (numberMargin (columnWidth ls))
  aligned : ∀ number ∈ List.range' 1 ls.length,
    (numberMargin (columnWidth ls) number).length = marginWidth ls
  wrapped : ∀ part ∈ shownParts (marginWidth ls) rows,
    Wrapped width (part.map fun row => row.drop (marginWidth ls))

theorem shows_parts (width : Nat) (ls : List (List Char)) :
    Shows width ls (parts width ls).flatten where
  wide row h := by
    obtain ⟨part, hpart, hrow⟩ := List.mem_flatten.1 h
    obtain ⟨x, hx, rfl⟩ := List.mem_map.1 hpart
    have hmargin := length_numberMargin (length_toDigits_of_mem hx)
    obtain ⟨piece, -, rfl | rfl⟩ := mem_lineRows hrow
    · rw [List.length_append, hmargin]
      exact Nat.le_add_right _ _
    · rw [List.length_append, length_blankMargin]
      exact Nat.le_add_right _ _
  joined := by
    have hline : ∀ x ∈ ls.zipIdx 1, ((lineRows width (columnWidth ls) x.2 x.1).flatMap fun row =>
        row.drop (marginWidth ls)) = x.1 := by
      intro x hx
      rw [List.flatMap_def, marginWidth, map_drop_lineRows (length_toDigits_of_mem hx),
        flatten_rows]
    rw [shownParts_parts, parts, List.map_map]
    exact (List.map_congr_left hline).trans (List.zipIdx_map_fst 1 ls)
  numbered := by
    have hfirst : ∀ x ∈ ls.zipIdx 1, (((lineRows width (columnWidth ls) x.2 x.1).filter fun row =>
        !isContinued (marginWidth ls) row).map fun row => row.take (marginWidth ls)) =
          [numberMargin (columnWidth ls) x.2] := by
      intro x hx
      obtain ⟨first, more, hrows, hnumber, htake, hmore⟩ :=
        exists_lineRows (length_toDigits_of_mem hx) width x.1
      have hnone : (more.filter fun row => !isContinued (marginWidth ls) row) = [] :=
        List.filter_eq_nil_iff.2 fun row hrow => by simp [marginWidth, hmore row hrow]
      rw [hrows, List.filter_cons_of_pos (by simp [marginWidth, hnumber]), hnone]
      exact congrArg (fun margin => [margin]) htake
    rw [parts, ← List.flatMap_def, List.filter_flatMap, List.map_flatMap, ← List.zipIdx_map_snd,
      List.map_map]
    exact (List.flatMap_congr hfirst).trans List.map_eq_flatMap.symm
  aligned number h := by
    have hle := length_toDigits_le (show number ≤ ls.length from by
      rw [List.mem_range'_1] at h
      omega)
    exact length_numberMargin hle
  wrapped part h := by
    rw [shownParts_parts] at h
    obtain ⟨x, hx, rfl⟩ := List.mem_map.1 h
    rw [marginWidth, map_drop_lineRows (length_toDigits_of_mem hx)]
    exact wrapped_rows width x.1

/-- A listing loses nothing: between two rules it shows the lines of its text, which make up the
text but for one line feed at its end. -/
theorem render_loses_nothing (width : Nat) (code : List Char) :
    lines (render width code) =
      [[], "Print content to stdout".toList, rule width (codeLines code)] ++
        shownRows (render width code) ++ [rule width (codeLines code), []] ∧
    Shows width (codeLines code) (shownRows (render width code)) ∧
    join ['\n'] (codeLines code) = unended code := by
  rw [shownRows_render]
  exact ⟨lines_render width code, shows_parts width (codeLines code), join_lines (unended code)⟩

example : shownParts 3 (shownRows (render 3 "aé€\n\n".toList)) =
    [["1. aé".toList, "   €".toList], ["2. ".toList]] := by decide

end Listing
end Bindery
