import Bindery.Proofs.Markdown.Definitions
import Mathlib.Logic.Relation

/-! What lines do to a document under construction, as a few moves: leaves are started, grow and are
closed, containers are entered and left, and entries are pushed. Every line comes to a row of moves, so
what each move keeps is kept by whatever text follows. -/

namespace Bindery.Markdown.Block

open Relation (ReflTransGen)

/-- A further line for an open leaf; `P` holds of one that goes into a paragraph. -/
inductive Leaf.Grows (P : Line → Prop) : Leaf → Leaf → Prop
  | paragraph {l : Line} (h : P l) (lines : List Line) : Grows P (.paragraph lines) (.paragraph (l :: lines))
  | indented (l : Line) (lines : List Line) : Grows P (.indented lines) (.indented (l :: lines))
  | fenced (mark : Char) (size indent : Nat) (lang info : List Char) (l : Line) (lines : List Line) :
      Grows P (.fenced mark size indent lang info lines) (.fenced mark size indent lang info (l :: lines))
  | html (kind : RawHtml.Kind) (l : Line) (lines : List Line) :
      Grows P (.html kind lines) (.html kind (l :: lines))
  | table (align : List (Option Align)) (row : List (List Char)) (rows : List (List (List Char))) :
      Grows P (.table align rows) (.table align (row :: rows))

/-- A leaf whose text, when it is a paragraph, is one line of which `P` holds. -/
def Leaf.Fresh (P : Line → Prop) : Leaf → Prop
  | .paragraph lines => ∃ l, lines = [l] ∧ P l
  | _ => True

theorem Leaf.fresh_paragraph {P : Line → Prop} {l : Line} (h : P l) : (Leaf.paragraph [l]).Fresh P :=
  ⟨l, rfl, h⟩

theorem Leaf.fresh_of_not_isParagraph {P : Line → Prop} {leaf : Leaf} (h : leaf.isParagraph = false) :
    leaf.Fresh P := by
  cases leaf with
  | paragraph => cases h
  | _ => trivial

inductive Move (P : Line → Prop) : Building → Building → Prop
  | close (b : Building) : Move P b b.closeLeaf
  | push {b : Building} (h : b.leaf = .none) (e : Entry) : Move P b (b.push e)
  | leave {b : Building} (h : b.leaf = .none) : Move P b b.leave
  | enter {b : Building} (h : b.leaf = .none) {f : Frame} (hf : f.entries = []) :
      Move P b { b with frames := f :: b.frames }
  | keep {b : Building} {fs : List Frame} (h : List.Forall₂ Frame.Same b.frames fs) :
      Move P b { b with frames := fs }
  | start {b : Building} (h : b.leaf = .none) {leaf : Leaf} (hleaf : leaf.Fresh P) :
      Move P b { b with leaf }
  | grow {b : Building} {leaf : Leaf} (h : Leaf.Grows P b.leaf leaf) : Move P b { b with leaf }
  /-- A paragraph becomes a heading. -/
  | underline {b : Building} {lines : List Line} (h : b.leaf = .paragraph lines) (depth : Nat) :
      Move P b ({ b with leaf := .none }.pushAll
        ((textBlocks (.heading depth) (ofParagraph lines)).map Entry.block).reverse)
  /-- The last line of a paragraph becomes the head of a table. -/
  | head {b : Building} {l : Line} {before : List Line} (h : b.leaf = .paragraph (l :: before))
      (align : List (Option Align)) (rows : List (List (List Char))) :
      Move P b { { b with leaf := .paragraph before }.closeLeaf with leaf := .table align rows }

abbrev Moves (P : Line → Prop) : Building → Building → Prop := ReflTransGen (Move P)

variable {P : Line → Prop} {b : Building}

theorem moves_closeFrames (n : Nat) (b : Building) : Moves P b (b.closeFrames n) := by
  induction n generalizing b with
  | zero => exact .refl
  | succ n ih =>
    rw [Building.closeFrames_succ]
    exact .head (.close b) (.head (.leave b.leaf_closeLeaf) (ih _))

theorem moves_start {leaf : Leaf} (hleaf : leaf.Fresh P) (b : Building) : Moves P b (b.start leaf) :=
  .head (.close b) (.single (.start b.leaf_closeLeaf hleaf))

theorem moves_add (block : Block) (b : Building) : Moves P b (b.add block) :=
  .head (.close b) (.single (.push b.leaf_closeLeaf _))

theorem moves_addText {line : Line} (hP : P line) (b : Building) : Moves P b (addText line b) := by
  unfold addText
  split
  · next lines hleaf => exact .single (.grow (hleaf ▸ .paragraph hP lines))
  · exact moves_start (Leaf.fresh_paragraph hP) b

theorem moves_addUnderline {line : Line} (hP : P line) (depth : Nat) (b : Building) :
    Moves P b (addUnderline depth line b) := by
  unfold addUnderline
  split
  · next lines hleaf =>
    have hmove := Move.underline (P := P) hleaf depth
    dsimp only
    split
    · next hempty =>
      have hblocks : textBlocks (.heading depth) (ofParagraph lines) =
          (ofParagraph lines).1.map .definition := by
        rw [textBlocks, if_pos hempty, List.append_nil]
      rw [hblocks, List.map_map] at hmove
      exact .head hmove (moves_start (Leaf.fresh_paragraph hP) _)
    · next hrest =>
      have hblocks : textBlocks (.heading depth) (ofParagraph lines) =
          (ofParagraph lines).1.map .definition ++ [.heading depth (ofParagraph lines).2] := by
        rw [textBlocks, if_neg hrest]
      rw [hblocks, List.map_append, List.reverse_append, List.map_map] at hmove
      refine .head hmove (.single ?_)
      have hclosed : (({ b with leaf := .none }.pushAll
          ((ofParagraph lines).1.map fun d => Entry.block (.definition d)).reverse)).leaf = .none :=
        Building.leaf_pushAll _ _
      rw [Building.add, Building.closeLeaf_of_none hclosed]
      exact .start (Building.leaf_pushAll _ _) trivial
  · exact moves_start (Leaf.fresh_paragraph hP) b

theorem exists_of_fence? {c : Cursor} {leaf : Leaf} (h : fence? c = some leaf) :
    ∃ mark size indent lang info, leaf = .fenced mark size indent lang info [] := by
  unfold fence? at h
  dsimp only at h
  split at h
  · split at h
    · split at h
      · cases h
      · cases h
        exact ⟨_, _, _, _, _, rfl⟩
    · cases h
  · cases h

theorem exists_of_tableHead? {gfm : Bool} {lines before : List Line} {c : Cursor} {grid : Leaf}
    (h : tableHead? gfm lines c = some (before, grid)) :
    ∃ head align rows, lines = head :: before ∧ grid = .table align rows := by
  unfold tableHead? at h
  split at h
  · next head before' =>
    dsimp only at h
    split at h
    · cases h
    · obtain ⟨align, -, heq⟩ := Option.map_eq_some_iff.1 h
      cases heq
      exact ⟨_, _, _, rfl, rfl⟩
  · cases h

theorem moves_starts {inParagraph : Bool} {c : Cursor} {line : Line} {b' : Building}
    (h : starts inParagraph c line b = some b') : Moves P b b' := by
  unfold starts at h
  split at h
  · cases h
  · split at h
    · next leaf hfence =>
      cases h
      obtain ⟨mark, size, indent, lang, info, rfl⟩ := exists_of_fence? hfence
      exact moves_start (Leaf.fresh_of_not_isParagraph rfl) b
    · split at h
      · split at h
        · cases h
        · split at h
          · cases h
            exact moves_add _ b
          · cases h
            exact moves_start (Leaf.fresh_of_not_isParagraph rfl) b
      · obtain ⟨block, -, rfl⟩ := Option.map_eq_some_iff.1 h
        exact moves_add block b

theorem moves_addFlow {gfm interrupting : Bool} {c : Cursor} {eol : List Char}
    (hP : c.isBlank = false → P ⟨c.text, eol⟩) (b : Building) :
    Moves P b (addFlow gfm interrupting c eol b) := by
  unfold addFlow
  dsimp only
  split
  · split
    · next lines hleaf => exact .single (.grow (hleaf ▸ .indented _ lines))
    · exact .head (.close b) (.single (.push b.leaf_closeLeaf _))
  · next hblank =>
    have hline := hP (Bool.eq_false_iff.2 hblank)
    split
    · split
      · next lines hleaf => exact .single (.grow (hleaf ▸ .indented _ lines))
      · exact moves_start (Leaf.fresh_of_not_isParagraph rfl) b
    · split
      · next b' hstarts => exact moves_starts hstarts
      · split
        · exact moves_addUnderline hline _ b
        · split
          · exact moves_add _ b
          · split
            · next lines hleaf =>
              split
              · next before grid hhead =>
                obtain ⟨head, align, rows, rfl, rfl⟩ := exists_of_tableHead? hhead
                exact .single (.head hleaf align rows)
              · exact moves_addText hline b
            · next align rows hleaf => exact .single (.grow (hleaf ▸ .table align _ rows))
            · exact moves_addText hline b

theorem moves_addRaw (c : Cursor) (eol : List Char) (b : Building) : Moves P b (addRaw c eol b) := by
  unfold addRaw
  split
  · next mark size indent lang info lines hleaf =>
    split
    · exact .single (.close b)
    · exact .single (.grow (hleaf ▸ .fenced mark size indent lang info _ lines))
  · next kind lines hleaf =>
    dsimp only
    split
    · exact .head (.close b) (.single (.push b.leaf_closeLeaf _))
    · have hgrow : Move P b { b with leaf := .html kind (⟨c.text, eol⟩ :: lines) } :=
        .grow (hleaf ▸ .html kind _ lines)
      split
      · exact .head hgrow (.single (.close _))
      · exact .single hgrow
  · exact .refl

theorem moves_enter (h : b.leaf = .none) {fs : List Frame} (hfs : ∀ f ∈ fs, f.entries = []) :
    Moves P b { b with frames := fs ++ b.frames } := by
  induction fs with
  | nil => exact .refl
  | cons f fs ih =>
    have hinner := ih fun g hg => hfs g (List.mem_cons_of_mem f hg)
    have houter : Move P { b with frames := fs ++ b.frames } { b with frames := f :: (fs ++ b.frames) } :=
      .enter (b := { b with frames := fs ++ b.frames }) h (hfs f List.mem_cons_self)
    exact .tail hinner houter

/-! What is left of a line in its containers. -/

theorem suffix_bare (c : Cursor) (n m : Nat) : (((c.skipBlanks).advance n).skip m).rest <:+ c.rest :=
  (suffix_skip m _).trans ((List.drop_suffix n _).trans (suffix_skip c.indent c))

theorem suffix_continue? {c c' : Cursor} {f f' : Frame} (h : f.continue? c = some (f', c')) :
    c'.rest <:+ c.rest := by
  cases f with
  | quote es =>
    rw [Frame.continue?] at h
    split at h
    · cases h
      exact suffix_bare c 1 1
    · cases h
  | item marker number width blankStart es =>
    rw [Frame.continue?] at h
    split at h
    · split at h
      · cases h
      · cases h
        exact suffix_skip width c
    · split at h
      · cases h
        exact suffix_skip width c
      · cases h

theorem suffix_continueFrames {c c' : Cursor} {fs kept lost : List Frame}
    (h : continueFrames c fs = (kept, lost, c')) : c'.rest <:+ c.rest := by
  induction fs generalizing c kept with
  | nil =>
    cases h
    exact List.suffix_rfl
  | cons f fs ih =>
    rw [continueFrames] at h
    split at h
    · cases h
      exact List.suffix_rfl
    · next f' c₁ hcontinue =>
      cases hrest : continueFrames c₁ fs with
      | mk more found =>
        obtain ⟨lost', c₂⟩ := found
        rw [hrest] at h
        cases h
        exact (ih hrest).trans (suffix_continue? hcontinue)

theorem openFrame?_spec {interrupting : Bool} {c c' : Cursor} {f : Frame}
    (h : openFrame? interrupting c = some (f, c')) : f.entries = [] ∧ c'.rest <:+ c.rest := by
  have hquote (h : openQuote? c = some (f, c')) : f.entries = [] ∧ c'.rest <:+ c.rest := by
    unfold openQuote? at h
    dsimp only at h
    split at h
    · cases h
      exact ⟨rfl, suffix_bare c 1 1⟩
    · cases h
  have hitem (h : openItem? interrupting c = some (f, c')) : f.entries = [] ∧ c'.rest <:+ c.rest := by
    unfold openItem? at h
    dsimp only at h
    split at h
    · cases h
    · next marker number size _ =>
      split at h
      · split at h
        · cases h
        · cases h
          exact ⟨rfl, suffix_bare c size 0⟩
      · split at h
        · cases h
        · cases h
          exact ⟨rfl, suffix_bare c size _⟩
  unfold openFrame? at h
  split at h
  · cases h
  · split at h
    · next found hfound =>
      cases h
      exact hquote hfound
    · split at h
      · cases h
      · exact hitem h

theorem openFrames_spec {interrupting : Bool} {n : Nat} {fs opened : List Frame} {c c' : Cursor}
    (h : openFrames interrupting n fs c = (opened, c')) (hfs : ∀ f ∈ fs, f.entries = []) :
    (∀ f ∈ opened, f.entries = []) ∧ c'.rest <:+ c.rest := by
  induction n generalizing fs c with
  | zero =>
    cases h
    exact ⟨hfs, List.suffix_rfl⟩
  | succ n ih =>
    rw [openFrames] at h
    split at h
    · cases h
      exact ⟨hfs, List.suffix_rfl⟩
    · next f c₁ hopen =>
      obtain ⟨hf, hsuffix⟩ := openFrame?_spec hopen
      obtain ⟨hopened, hrest⟩ := ih h fun g hg => by
        rcases List.mem_cons.1 hg with rfl | hg
        · exact hf
        · exact hfs g hg
      exact ⟨hopened, hrest.trans hsuffix⟩

/-- A line is added by a row of moves. -/
theorem moves_addLine (gfm : Bool) {l : Line}
    (hP : ∀ c : Cursor, c.rest <:+ l.text → c.isBlank = false → P ⟨c.text, l.eol⟩) (b : Building) :
    Moves P b (addLine gfm b l) := by
  cases hcontinue : continueFrames (Cursor.start l.text) b.frames.reverse with
  | mk kept found =>
    obtain ⟨lost, c⟩ := found
    have hsuffix : c.rest <:+ l.text := suffix_continueFrames hcontinue
    have hkept : Move P b (b.continued kept lost) := by
      have hframes := List.rel_reverse (continueFrames_same hcontinue)
      rw [List.reverse_reverse, List.reverse_append] at hframes
      exact .keep hframes
    -- From here the cases are those of `addLine`: raw text, a new container, a line of its own, a lazy line.
    refine .head hkept ?_
    unfold addLine
    rw [hcontinue]
    dsimp only
    change Moves P (b.continued kept lost) _
    split
    · exact moves_addRaw c l.eol _
    · cases hopen : openFrames (lost.isEmpty && b.leaf.isParagraph) c.rest.length [] c with
      | mk opened rest =>
        obtain ⟨hopened, hrest⟩ := openFrames_spec hopen (by simp)
        dsimp only
        split
        · refine .trans (moves_closeFrames lost.length _) (.head (.close _) ?_)
          refine .trans (moves_enter (Building.leaf_closeLeaf _) hopened) ?_
          split
          · exact .refl
          · exact moves_addFlow (hP rest (hrest.trans hsuffix)) _
        · split
          · exact moves_addFlow (hP c hsuffix) _
          · split
            · next hlazy =>
              have hblank : c.isBlank = false := by
                unfold isLazyLine at hlazy
                simp only [Bool.and_eq_true, Bool.not_eq_true'] at hlazy
                exact hlazy.1.1.2
              exact moves_addText (hP c hsuffix hblank) _
            · exact .trans (moves_closeFrames lost.length _) (moves_addFlow (hP c hsuffix) _)

end Bindery.Markdown.Block
