import Bindery.Proofs.Markdown.Definitions
import Bindery.Proofs.Text.Trim

/-! Lines that can open a link definition. Such a line begins no other block and no container, so all that
decides where it goes is which containers it continues and which leaf is open. -/

namespace Bindery.Markdown

namespace Cursor

theorem blankColumns_eq_zero_iff {column : Nat} {cs : List Char} :
    blankColumns column cs = 0 ↔ cs.dropWhile isSpaceOrTab = cs := by
  fun_cases blankColumns column cs with
  | case1 cs =>
    refine iff_of_false (Nat.succ_ne_zero _) fun h => ?_
    have hshort := (List.dropWhile_suffix (l := cs) isSpaceOrTab).length_le
    have hsame : (cs.dropWhile isSpaceOrTab).length = (' ' :: cs).length := congrArg List.length h
    rw [List.length_cons] at hsame
    omega
  | case2 cs width =>
    have hpos : column % tabWidth < tabWidth := Nat.mod_lt _ (by decide)
    refine iff_of_false (by omega) fun h => ?_
    have hshort := (List.dropWhile_suffix (l := cs) isSpaceOrTab).length_le
    have hsame : (cs.dropWhile isSpaceOrTab).length = ('\t' :: cs).length := congrArg List.length h
    rw [List.length_cons] at hsame
    omega
  | case3 _ hspace htab =>
    refine iff_of_true rfl ?_
    cases cs with
    | nil => rfl
    | cons d cs =>
      refine List.dropWhile_cons_of_neg fun hd => ?_
      rw [isSpaceOrTab_iff] at hd
      rcases hd with rfl | rfl
      · exact hspace cs rfl
      · exact htab cs rfl

theorem dropWhile_skip (n : Nat) (c : Cursor) :
    (c.skip n).rest.dropWhile isSpaceOrTab = c.rest.dropWhile isSpaceOrTab := by
  fun_induction Cursor.skip n c with
  | case1 => rfl
  | case2 n column pending rest ih => exact ih
  | case3 n column rest ih => exact ih
  | case4 n column rest ih => exact ih
  | case5 => rfl

theorem indent_skip {n : Nat} {c : Cursor} (h : n ≤ c.indent) : (c.skip n).indent = c.indent - n := by
  fun_induction Cursor.skip n c with
  | case1 => rfl
  | case2 n column pending rest ih =>
    have hstep : indent ⟨column, pending.succ, rest⟩ = indent ⟨column + 1, pending, rest⟩ + 1 := by
      simp only [indent, Nat.succ_eq_add_one, Nat.add_assoc, Nat.add_comm 1]
    omega
  | case3 n column rest ih =>
    have hstep : indent ⟨column, 0, ' ' :: rest⟩ = indent ⟨column + 1, 0, rest⟩ + 1 := by
      simp only [indent, blankColumns, Nat.zero_add, Nat.add_zero]
    omega
  | case4 n column rest ih =>
    have hpos : column % tabWidth < tabWidth := Nat.mod_lt _ (by decide)
    have hstep : indent ⟨column, 0, '\t' :: rest⟩ =
        indent ⟨column + 1, tabWidth - column % tabWidth - 1, rest⟩ + 1 := by
      have hcolumn : column + 1 + (tabWidth - column % tabWidth - 1) =
          column + (tabWidth - column % tabWidth) := by omega
      simp only [indent, blankColumns, hcolumn, Nat.zero_add, Nat.add_zero]
      omega
    omega
  | case5 n c hpending hspace htab =>
    obtain ⟨column, pending, rest⟩ := c
    cases pending with
    | succ pending => exact (hpending column pending rest rfl).elim
    | zero =>
      have hnone : blankColumns (column + 0) rest = 0 := by
        fun_cases blankColumns (column + 0) rest with
        | case1 cs => exact (hspace column cs rfl).elim
        | case2 cs => exact (htab column cs rfl).elim
        | case3 => rfl
      rw [indent, hnone] at h
      exact absurd h (Nat.not_succ_le_zero n)

theorem rest_skipBlanks (c : Cursor) : c.skipBlanks.rest = c.rest.dropWhile isSpaceOrTab := by
  have hzero : c.skipBlanks.indent = 0 := (indent_skip (Nat.le_refl _)).trans (Nat.sub_self _)
  have hcolumns : blankColumns (c.skipBlanks.column + c.skipBlanks.pending) c.skipBlanks.rest = 0 :=
    (Nat.add_eq_zero_iff.1 hzero).2
  rw [← blankColumns_eq_zero_iff.1 hcolumns]
  exact dropWhile_skip c.indent c

/-- What is left of the line can open a link definition. -/
structure Opens (c : Cursor) : Prop where
  indent : c.indent < tabWidth
  bracket : Bracketed c.rest

variable {c : Cursor}

theorem Opens.skipBlanks (h : c.Opens) : ∃ rest, c.skipBlanks.rest = '[' :: rest := by
  rw [rest_skipBlanks]
  exact h.bracket

theorem Opens.mem (h : c.Opens) : '[' ∈ c.rest := by
  obtain ⟨rest, hrest⟩ := h.bracket
  exact (List.dropWhile_suffix isSpaceOrTab).subset (hrest ▸ List.mem_cons_self)

theorem Opens.isBlank (h : c.Opens) : c.isBlank = false := by
  rw [Bool.eq_false_iff]
  intro hblank
  exact absurd (List.all_eq_true.1 hblank '[' h.mem) (by decide)

end Cursor

namespace Block

open Cursor (Opens)

variable {c c' : Cursor}

theorem opens_continue? (h : c.Opens) {f f' : Frame} (hf : f.continue? c = some (f', c')) : c'.Opens := by
  cases f with
  | quote es =>
    obtain ⟨rest, hrest⟩ := h.skipBlanks
    rw [Frame.continue?, hrest, List.head?_cons] at hf
    simp at hf
  | item marker number width blankStart es =>
    rw [Frame.continue?, if_neg (by simp [h.isBlank])] at hf
    split at hf
    · next hwidth =>
      cases hf
      refine ⟨?_, ?_⟩
      · rw [Cursor.indent_skip hwidth]
        exact Nat.lt_of_le_of_lt (Nat.sub_le _ _) h.indent
      · obtain ⟨rest, hrest⟩ := h.bracket
        exact ⟨rest, (Cursor.dropWhile_skip width c).trans hrest⟩
    · cases hf

theorem opens_continueFrames (h : c.Opens) {fs kept lost : List Frame}
    (hcontinue : continueFrames c fs = (kept, lost, c')) : c'.Opens := by
  induction fs generalizing c kept with
  | nil =>
    cases hcontinue
    exact h
  | cons f fs ih =>
    rw [continueFrames] at hcontinue
    split at hcontinue
    · cases hcontinue
      exact h
    · next f' c₁ hf =>
      cases hrest : continueFrames c₁ fs with
      | mk more found =>
        obtain ⟨lost', c₂⟩ := found
        rw [hrest] at hcontinue
        cases hcontinue
        exact ih (opens_continue? h hf) hrest

/-! A line that opens a definition begins nothing else. -/

theorem isThematicBreak_of_opens (h : c.Opens) : isThematicBreak c = false := by
  have hmem : '[' ∈ c.rest.filter (!isSpaceOrTab ·) := List.mem_filter.2 ⟨h.mem, rfl⟩
  have hall {mark : Char} (hmark : '[' ≠ mark) : (c.rest.filter (!isSpaceOrTab ·)).all (· == mark) = false :=
    List.all_eq_false.2 ⟨'[', hmem, by simpa using hmark⟩
  rw [isThematicBreak, hall (by decide), hall (by decide), hall (by decide)]
  simp

theorem openFrame?_of_opens (h : c.Opens) (interrupting : Bool) : openFrame? interrupting c = none := by
  obtain ⟨rest, hrest⟩ := h.skipBlanks
  have hquote : openQuote? c = none := by
    rw [openQuote?, hrest]
    rfl
  have hitem : openItem? interrupting c = none := by
    rw [openItem?, hrest]
    rfl
  rw [openFrame?, if_neg (Nat.not_le.2 h.indent), hquote, isThematicBreak_of_opens h, hitem]
  rfl

theorem starts_of_opens (h : c.Opens) (inParagraph : Bool) (line : Line) (b : Building) :
    starts inParagraph c line b = none := by
  obtain ⟨rest, hrest⟩ := h.skipBlanks
  have hfence : fence? c = none := by
    rw [fence?, hrest]
    rfl
  have hheading : heading? c = none := by
    rw [heading?, hrest]
    rfl
  rw [starts, if_neg (Nat.not_le.2 h.indent), hfence, hrest, hheading]
  rfl

theorem dropEndWhile_bracket (cs : List Char) :
    ∃ rest, Text.dropEndWhile isSpaceOrTab ('[' :: cs) = '[' :: rest := by
  rw [Text.dropEndWhile_cons, if_neg (by simp [isSpaceOrTab])]
  exact ⟨_, rfl⟩

theorem underline?_of_opens (h : c.Opens) : underline? c = none := by
  obtain ⟨rest, hrest⟩ := h.skipBlanks
  obtain ⟨rest', hrest'⟩ := dropEndWhile_bracket rest
  rw [underline?, hrest, hrest']
  simp

theorem splitCells_head (escaped : Bool) (cell cs : List Char) :
    ∃ rest more, splitCells escaped cell cs = (cell.reverse ++ rest) :: more := by
  fun_induction splitCells escaped cell cs with
  | case1 escaped cell => exact ⟨[], [], by rw [List.append_nil]⟩
  | case2 cell c cs ih =>
    obtain ⟨rest, more, h⟩ := ih
    exact ⟨c :: rest, more, by rw [h, List.reverse_cons, List.append_assoc]; rfl⟩
  | case3 escaped cell cs _ _ => exact ⟨[], splitCells false [] cs, by rw [List.append_nil]⟩
  | case4 escaped cell cs _ _ ih =>
    obtain ⟨rest, more, h⟩ := ih
    exact ⟨'\\' :: rest, more, by rw [h, List.reverse_cons, List.append_assoc]; rfl⟩
  | case5 escaped cell c cs _ _ _ ih =>
    obtain ⟨rest, more, h⟩ := ih
    exact ⟨c :: rest, more, by rw [h, List.reverse_cons, List.append_assoc]; rfl⟩

/-- The first cell of a row begins where the row does. -/
theorem rowCells_of_bracket (cs : List Char) : ∃ cell more, rowCells ('[' :: cs) = ('[' :: cell) :: more := by
  have htrim (cs : List Char) : ∃ rest, trimBlanks ('[' :: cs) = '[' :: rest := dropEndWhile_bracket cs
  obtain ⟨row, hrow⟩ := htrim cs
  obtain ⟨rest, more, hsplit⟩ := splitCells_head false ['['] row
  obtain ⟨cell, hcell⟩ := htrim rest
  have hcells : (splitCells false [] ('[' :: row)).map trimBlanks = ('[' :: cell) :: more.map trimBlanks := by
    have hstep : splitCells false [] ('[' :: row) = splitCells false ['['] row := rfl
    rw [hstep, hsplit, List.map_cons]
    exact congrArg (· :: more.map trimBlanks) hcell
  have hbare : (if ('[' :: row).head? == some '|' then ('[' :: row).tail else '[' :: row) = '[' :: row := rfl
  simp only [rowCells, hrow, hbare, hcells]
  split
  · next hlast =>
    cases more with
    | nil => simp at hlast
    | cons cell' more => exact ⟨cell, _, rfl⟩
  · exact ⟨cell, _, rfl⟩

theorem alignment?_of_bracket (cs : List Char) : alignment? ('[' :: cs) = none := by
  have hbody (dashes : List Char) (h : ∃ rest, dashes = '[' :: rest) :
      (dashes.isEmpty || !dashes.all (· == '-')) = true := by
    obtain ⟨rest, rfl⟩ := h
    rfl
  unfold alignment?
  dsimp only [List.head?_cons]
  rw [if_neg (show ¬ (some '[' == some ':') = true by decide)]
  refine if_pos (hbody _ ?_)
  split
  · next hright =>
    cases cs with
    | nil => exact absurd hright (by decide)
    | cons d cs => exact ⟨_, rfl⟩
  · exact ⟨cs, rfl⟩

theorem tableHead?_of_opens (h : c.Opens) (gfm : Bool) (lines : List Line) :
    tableHead? gfm lines c = none := by
  have hnone (width : Nat) : delimiters? width c = none := by
    obtain ⟨rest, hrest⟩ := h.skipBlanks
    obtain ⟨cell, more, hcells⟩ := rowCells_of_bracket rest
    have halign : (rowCells ('[' :: rest)).mapM alignment? = none := by
      rw [hcells, List.mapM_cons, alignment?_of_bracket]
      rfl
    rw [delimiters?, hrest, halign]
    exact ite_self _
  unfold tableHead?
  split
  · dsimp only
    rw [hnone]
    exact ite_self _
  · rfl

/-- Adds a line that opens a definition: a row of the table that is open, or running text. -/
def addOpening (line : Line) (b : Building) : Building :=
  match b.leaf with
  | .table align rows => { b with leaf := .table align (rowCells line.text :: rows) }
  | _ => addText line b

theorem addFlow_of_opens (h : c.Opens) (gfm interrupting : Bool) (eol : List Char) (b : Building) :
    addFlow gfm interrupting c eol b = addOpening ⟨c.text, eol⟩ b := by
  have hunderline : (if b.leaf.isLazy then underline? c else none) = none := by
    rw [underline?_of_opens h]
    exact ite_self _
  have hindent : (decide (c.indent ≥ tabWidth) && !(interrupting || b.leaf.isParagraph)) = false := by
    rw [decide_eq_false (Nat.not_le.2 h.indent), Bool.false_and]
  unfold addFlow addOpening
  dsimp only
  rw [h.isBlank, hindent, starts_of_opens h, isThematicBreak_of_opens h, hunderline]
  dsimp only
  cases hleaf : b.leaf with
  | paragraph lines =>
    dsimp only
    rw [tableHead?_of_opens h]
    rfl
  | _ => rfl

theorem isLazyLine_of_opens (h : c.Opens) (eol : List Char) (b : Building) :
    isLazyLine c eol b = b.leaf.isLazy := by
  rw [isLazyLine, h.isBlank, starts_of_opens h, isThematicBreak_of_opens h]
  simp

/-- Does a line that left containers go on with the text in them? -/
def Building.runsOn (b : Building) (lost : List Frame) : Bool := !lost.isEmpty && b.leaf.isLazy

/-- The document as a line that opens a definition finds it: the containers that it left are closed, unless
it goes on with the text in them. -/
def Building.reached (b : Building) (kept lost : List Frame) : Building :=
  if b.runsOn lost then b.continued kept lost else (b.continued kept lost).closeFrames lost.length

theorem addOpening_of_isLazy (line : Line) {b : Building} (h : b.leaf.isLazy = true) :
    addOpening line b = addText line b := by
  unfold addOpening
  split
  · next hleaf =>
    rw [hleaf] at h
    cases h
  · rfl

theorem addLine_of_opens {gfm : Bool} {b : Building} {l : Line} {kept lost : List Frame}
    (hraw : b.leaf.isRaw = false) (hl : (Cursor.start l.text).Opens)
    (hcontinue : continueFrames (Cursor.start l.text) b.frames.reverse = (kept, lost, c)) :
    addLine gfm b l = addOpening ⟨c.text, l.eol⟩ (b.reached kept lost) := by
  have hc := opens_continueFrames hl hcontinue
  have hlazy := isLazyLine_of_opens hc l.eol (b.continued kept lost)
  cases lost with
  | nil =>
    rw [addLine_eq_addFlow hcontinue hraw (openFrame?_of_opens hc) (.inl rfl)]
    exact addFlow_of_opens hc _ _ _ _
  | cons f fs =>
    rw [Building.reached, Building.runsOn, List.isEmpty_cons, Bool.not_false, Bool.true_and]
    cases hleaf : b.leaf.isLazy with
    | false =>
      rw [addLine_eq_addFlow hcontinue hraw (openFrame?_of_opens hc) (.inr (hlazy.trans hleaf)),
        addFlow_of_opens hc, if_neg Bool.false_ne_true]
    | true =>
      have hopened := openFrames_of_none (openFrame?_of_opens hc false) c.rest.length []
      have hlazyAfter : (b.continued kept (f :: fs)).leaf.isLazy = true := hleaf
      rw [if_pos rfl, addOpening_of_isLazy _ hlazyAfter]
      unfold addLine
      rw [hcontinue]
      dsimp only
      rw [hraw, List.isEmpty_cons, Bool.false_and, Bool.false_and, hopened]
      change (if isLazyLine c l.eol (b.continued kept (f :: fs)) then _ else _) = _
      rw [hlazy.trans hleaf, if_pos rfl]
      rfl

end Block
end Bindery.Markdown
