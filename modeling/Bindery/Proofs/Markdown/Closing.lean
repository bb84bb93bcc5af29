import Bindery.Proofs.Markdown.Gathering
import Mathlib.Data.List.Forall2

/-! The blocks that a document under construction comes to when it ends. They are the same when the leaf
and some of the containers are closed before, and blank lines at the end add nothing. -/

namespace Bindery.Markdown

theorem isSpaceOrTab_iff {c : Char} : isSpaceOrTab c = true ↔ c = ' ' ∨ c = '\t' := by
  rw [isSpaceOrTab, Bool.or_eq_true, beq_iff_eq, beq_iff_eq]

namespace Block

namespace Frame

def entries : Frame → List Entry
  | quote es => es
  | item _ _ _ _ es => es

def withEntries (es : List Entry) : Frame → Frame
  | quote _ => quote es
  | item marker number width blankStart _ => item marker number width blankStart es

@[simp] theorem entries_withEntries (es : List Entry) (f : Frame) : (f.withEntries es).entries = es := by
  cases f <;> rfl

@[simp] theorem withEntries_withEntries (es es' : List Entry) (f : Frame) :
    (f.withEntries es).withEntries es' = f.withEntries es' := by
  cases f <;> rfl

@[simp] theorem withEntries_entries (f : Frame) : f.withEntries f.entries = f := by
  cases f <;> rfl

theorem push_eq (e : Entry) (f : Frame) : f.push e = f.withEntries (e :: f.entries) := by
  cases f <;> rfl

/-- A container that differs in no more than whether it may still end at a blank line. -/
inductive Same : Frame → Frame → Prop
  | quote (es : List Entry) : Same (quote es) (quote es)
  | item (marker : Char) (number width : Nat) (blankStart blankStart' : Bool) (es : List Entry) :
      Same (item marker number width blankStart es) (item marker number width blankStart' es)

theorem Same.refl (f : Frame) : Same f f := by
  cases f with
  | quote es => exact .quote es
  | item marker number width blankStart es => exact .item marker number width blankStart blankStart es

theorem Same.entries {f f' : Frame} (h : Same f f') : f'.entries = f.entries := by
  cases h <;> rfl

theorem Same.close {f f' : Frame} (h : Same f f') (es : List Entry) :
    (f'.withEntries es).close = (f.withEntries es).close := by
  cases h <;> rfl

theorem Same.withEntries {f f' : Frame} (h : Same f f') (es : List Entry) :
    Same (f.withEntries es) (f'.withEntries es) := by
  cases h with
  | quote => exact .quote es
  | item marker number width blankStart blankStart' => exact .item _ _ _ _ _ es

theorem Same.continue? {c c' : Cursor} {f f' : Frame} (h : f.continue? c = some (f', c')) :
    Same f f' := by
  cases f with
  | quote es =>
    rw [Frame.continue?] at h
    split at h
    · cases h
      exact .refl _
    · cases h
  | item marker number width blankStart es =>
    rw [Frame.continue?] at h
    split at h
    · split at h
      · cases h
      · cases h
        exact .item _ _ _ _ _ _
    · split at h
      · cases h
        exact .item _ _ _ _ _ _
      · cases h

end Frame

/-- What containers, the outermost first, leave to what is around them when they are closed with `last`
as the latest entries of the innermost one. -/
def sealed (last : List Entry) : List Frame → List Entry → List Entry
  | [], E => last ++ E
  | f :: fs, E => (f.withEntries (sealed last fs f.entries)).close ++ E

theorem sealed_append (last : List Entry) (fs : List Frame) (f : Frame) (E : List Entry) :
    sealed last (fs ++ [f]) E = sealed (f.withEntries (last ++ f.entries)).close fs E := by
  induction fs generalizing E with
  | nil => rfl
  | cons g fs ih => exact congrArg (fun es => (g.withEntries es).close ++ E) (ih g.entries)

theorem sealed_same {fs fs' : List Frame} (h : List.Forall₂ Frame.Same fs fs') (last E : List Entry) :
    sealed last fs' E = sealed last fs E := by
  induction h generalizing E with
  | nil => rfl
  | cons hf _ ih => rw [sealed, sealed, hf.entries, ih, hf.close]

namespace Building

variable {b : Building} {f : Frame} {fs : List Frame}

/-- All entries of a document that ends here. -/
def final (b : Building) : List Entry := sealed b.leaf.close b.frames.reverse b.entries

/-- The blocks of a document that ends here. -/
def blocks (b : Building) : List Block := (gather b.final).blocks

theorem pushAll_of_nil (h : b.frames = []) (es : List Entry) :
    b.pushAll es = { b with entries := es ++ b.entries } := by
  induction es with
  | nil => rfl
  | cons e es ih =>
    have hstep : b.pushAll (e :: es) = (b.pushAll es).push e := rfl
    rw [hstep, ih, push, h]
    rfl

theorem pushAll_of_cons (h : b.frames = f :: fs) (es : List Entry) :
    b.pushAll es = { b with frames := f.withEntries (es ++ f.entries) :: fs } := by
  induction es with
  | nil => rw [List.nil_append, Frame.withEntries_entries, ← h]; rfl
  | cons e es ih =>
    have hstep : b.pushAll (e :: es) = (b.pushAll es).push e := rfl
    rw [hstep, ih, push]
    dsimp only
    rw [Frame.push_eq, Frame.entries_withEntries, Frame.withEntries_withEntries]
    rfl

theorem leaf_pushAll (b : Building) (es : List Entry) : (b.pushAll es).leaf = b.leaf := by
  cases hframes : b.frames with
  | nil => rw [pushAll_of_nil hframes]
  | cons f fs => rw [pushAll_of_cons hframes]

theorem final_pushAll (h : b.leaf = .none) (es : List Entry) :
    (b.pushAll es).final = sealed es b.frames.reverse b.entries := by
  cases hframes : b.frames with
  | nil =>
    rw [pushAll_of_nil hframes, final, h, hframes]
    rfl
  | cons f fs =>
    rw [pushAll_of_cons hframes, final, h, List.reverse_cons, List.reverse_cons, sealed_append,
      sealed_append, Frame.entries_withEntries, Frame.withEntries_withEntries]
    rfl

@[simp] theorem leaf_closeLeaf (b : Building) : b.closeLeaf.leaf = .none := leaf_pushAll _ _

@[simp] theorem final_closeLeaf (b : Building) : b.closeLeaf.final = b.final := final_pushAll rfl _

/-- An innermost container without a leaf is closed. -/
def leave (b : Building) : Building :=
  match b.frames with
  | [] => b
  | f :: fs => { b with frames := fs }.pushAll f.close

theorem length_frames_pushAll (b : Building) (es : List Entry) :
    (b.pushAll es).frames.length = b.frames.length := by
  cases hframes : b.frames with
  | nil => rw [pushAll_of_nil hframes, hframes]
  | cons f fs =>
    rw [pushAll_of_cons hframes]
    rfl

theorem closeLeaf_of_none (h : b.leaf = .none) : b.closeLeaf = b := by
  cases b
  cases h
  rfl

@[simp] theorem length_frames_leave (b : Building) : b.leave.frames.length = b.frames.length - 1 := by
  unfold leave
  split
  · next h => rw [h]; rfl
  · next f fs h => rw [length_frames_pushAll, h]; rfl

theorem leaf_leave (b : Building) : b.leave.leaf = b.leaf := by
  unfold leave
  split
  · rfl
  · exact leaf_pushAll _ _

theorem final_leave (h : b.leaf = .none) : b.leave.final = b.final := by
  unfold leave
  split
  · rfl
  · next f fs hframes =>
    have hlast : b.final = sealed (f.withEntries f.entries).close fs.reverse b.entries := by
      rw [final, h, hframes, List.reverse_cons, sealed_append]
      rfl
    rw [hlast, Frame.withEntries_entries]
    exact final_pushAll (b := { b with frames := fs }) h f.close

theorem closeFrames_of_closed (h : b.leaf = .none) (hframes : b.frames = []) (n : Nat) :
    closeFrames n b = b := by
  cases n with
  | zero => rfl
  | succ n => rw [closeFrames, closeLeaf_of_none h, hframes]

theorem closeFrames_succ (n : Nat) (b : Building) :
    closeFrames (n + 1) b = closeFrames n b.closeLeaf.leave := by
  rw [closeFrames, leave]
  cases hframes : b.closeLeaf.frames with
  | nil => exact (closeFrames_of_closed b.leaf_closeLeaf hframes n).symm
  | cons f fs => rfl

@[simp] theorem final_closeFrames (n : Nat) (b : Building) : (closeFrames n b).final = b.final := by
  induction n generalizing b with
  | zero => rfl
  | succ n ih => rw [closeFrames_succ, ih, final_leave b.leaf_closeLeaf, final_closeLeaf]

theorem length_frames_closeFrames (n : Nat) (b : Building) :
    (closeFrames n b).frames.length = b.frames.length - n := by
  induction n generalizing b with
  | zero => rfl
  | succ n ih =>
    rw [closeFrames_succ, ih, length_frames_leave, closeLeaf, length_frames_pushAll]
    exact Nat.sub_sub _ _ _ |>.trans (congrArg _ (Nat.add_comm 1 n))

theorem leaf_closeFrames_succ (n : Nat) (b : Building) : (closeFrames (n + 1) b).leaf = .none := by
  induction n generalizing b with
  | zero => rw [closeFrames_succ, closeFrames, leaf_leave, leaf_closeLeaf]
  | succ n ih => rw [closeFrames_succ, ih]

theorem eq_of_frames_eq_nil (hframes : b.frames = []) (hleaf : b.leaf = .none) :
    b = ⟨b.final, [], .none⟩ := by
  cases b
  cases hframes
  cases hleaf
  rfl

theorem closeFrames_all (b : Building) :
    (closeFrames b.frames.length b).closeLeaf = ⟨b.final, [], .none⟩ := by
  have hframes : (closeFrames b.frames.length b).closeLeaf.frames = [] := by
    rw [← List.length_eq_zero_iff, closeLeaf, length_frames_pushAll]
    exact (length_frames_closeFrames _ b).trans (Nat.sub_self _)
  rw [eq_of_frames_eq_nil hframes (leaf_closeLeaf _), final_closeLeaf, final_closeFrames]

end Building

/-- A document is built from its lines and then closed. -/
theorem ofLines_eq (gfm : Bool) (ls : List Line) :
    ofLines gfm ls = (finishLeaf (ls.foldl (addLine gfm) Building.empty)).blocks := by
  have hall := Building.closeFrames_all (finishLeaf (ls.foldl (addLine gfm) Building.empty))
  rw [ofLines]
  exact congrArg (fun b : Building => (gather b.entries).blocks) hall

theorem finishLeaf_of_not_isRaw {b : Building} (h : b.leaf.isRaw = false) : finishLeaf b = b := by
  unfold finishLeaf
  split
  · next hleaf =>
    rw [hleaf] at h
    cases h
  · rfl

/-! Blank lines at the end. -/

theorem takeWhile_blanks {X : List Entry} (hX : ∀ e ∈ X, e = .blank) (E : List Entry) :
    (X ++ E).takeWhile Entry.isBlank = X ++ E.takeWhile Entry.isBlank :=
  List.takeWhile_append_of_pos fun e he => by rw [hX e he]; rfl

theorem Frame.close_blanks (f : Frame) {X : List Entry} (hX : ∀ e ∈ X, e = .blank) (E : List Entry) :
    ∃ Y, (∀ e ∈ Y, e = .blank) ∧ (f.withEntries (X ++ E)).close = Y ++ (f.withEntries E).close := by
  obtain ⟨hblocks, hspread⟩ := gather_blanks hX E
  cases f with
  | quote es =>
    refine ⟨[], by simp, ?_⟩
    simp only [withEntries, close, hblocks, List.nil_append]
  | item marker number width blankStart es =>
    refine ⟨X, hX, ?_⟩
    simp only [withEntries, close, hblocks, hspread, takeWhile_blanks hX, List.append_assoc]

theorem sealed_blanks {X : List Entry} (hX : ∀ e ∈ X, e = .blank) (last : List Entry)
    (fs : List Frame) (E : List Entry) :
    ∃ Y, (∀ e ∈ Y, e = .blank) ∧ sealed (X ++ last) fs E = Y ++ sealed last fs E := by
  induction fs generalizing E with
  | nil => exact ⟨X, hX, List.append_assoc _ _ _⟩
  | cons f fs ih =>
    obtain ⟨Y, hY, hinner⟩ := ih f.entries
    obtain ⟨Z, hZ, hclose⟩ := f.close_blanks hY (sealed last fs f.entries)
    refine ⟨Z, hZ, ?_⟩
    rw [sealed, hinner, hclose, List.append_assoc]
    rfl

theorem blocks_sealed_blanks {X : List Entry} (hX : ∀ e ∈ X, e = .blank) (last : List Entry)
    (fs : List Frame) (E : List Entry) :
    (gather (sealed (X ++ last) fs E)).blocks = (gather (sealed last fs E)).blocks := by
  obtain ⟨Y, hY, heq⟩ := sealed_blanks hX last fs E
  rw [heq, (gather_blanks hY _).1]

namespace Building

theorem blocks_push_blank {b : Building} (h : b.leaf = .none) : (b.push .blank).blocks = b.blocks := by
  have hpush := final_pushAll h [.blank]
  have hnone : b.final = sealed [] b.frames.reverse b.entries := by rw [final, h]; rfl
  rw [blocks, blocks, hnone]
  exact (congrArg (fun es => (gather es).blocks) hpush).trans
    (blocks_sealed_blanks (X := [.blank]) (by simp) [] _ _)

theorem blocks_closeLeaf (b : Building) : b.closeLeaf.blocks = b.blocks :=
  congrArg (fun es => (gather es).blocks) b.final_closeLeaf

theorem blocks_closeFrames (n : Nat) (b : Building) : (closeFrames n b).blocks = b.blocks :=
  congrArg (fun es => (gather es).blocks) (final_closeFrames n b)

end Building

theorem continueFrames_same {c c' : Cursor} {fs kept lost : List Frame}
    (h : continueFrames c fs = (kept, lost, c')) :
    List.Forall₂ Frame.Same fs (kept ++ lost) := by
  induction fs generalizing c kept with
  | nil =>
    cases h
    exact .nil
  | cons f fs ih =>
    rw [continueFrames] at h
    split at h
    · cases h
      exact List.forall₂_same.2 fun f _ => .refl f
    · next f' c₁ hcontinue =>
      cases hrest : continueFrames c₁ fs with
      | mk more found =>
        obtain ⟨lost', c₂⟩ := found
        rw [hrest] at h
        cases h
        exact .cons (.continue? hcontinue) (ih hrest)

namespace Building

/-- The document with its containers as a line continues them. -/
def continued (b : Building) (kept lost : List Frame) : Building :=
  { b with frames := lost.reverse ++ kept.reverse }

theorem final_continued {b : Building} {c c' : Cursor} {kept lost : List Frame}
    (h : continueFrames c b.frames.reverse = (kept, lost, c')) :
    (b.continued kept lost).final = b.final := by
  have hframes : (b.continued kept lost).frames.reverse = kept ++ lost := by
    rw [continued, List.reverse_append, List.reverse_reverse, List.reverse_reverse]
  rw [final, hframes]
  exact sealed_same (continueFrames_same h) _ _

theorem blocks_continued {b : Building} {c c' : Cursor} {kept lost : List Frame}
    (h : continueFrames c b.frames.reverse = (kept, lost, c')) :
    (b.continued kept lost).blocks = b.blocks :=
  congrArg (fun es => (gather es).blocks) (final_continued h)

end Building

/-! A blank line. -/

theorem suffix_skip (n : Nat) (c : Cursor) : (c.skip n).rest <:+ c.rest := by
  fun_induction Cursor.skip n c with
  | case1 c => exact List.suffix_rfl
  | case2 n column pending rest ih => exact ih
  | case3 n column rest ih => exact ih.trans (List.suffix_cons _ _)
  | case4 n column rest ih => exact ih.trans (List.suffix_cons _ _)
  | case5 => exact List.suffix_rfl

theorem isBlank_skip {c : Cursor} (h : c.isBlank = true) (n : Nat) : (c.skip n).isBlank = true :=
  List.all_eq_true.2 fun d hd => List.all_eq_true.1 h d ((suffix_skip n c).subset hd)

theorem head_of_isBlank {c : Cursor} {d : Char} (h : c.isBlank = true) (hd : c.rest.head? = some d) :
    isSpaceOrTab d = true :=
  List.all_eq_true.1 h d (List.mem_of_mem_head? hd)

theorem not_quoted_of_isBlank {c : Cursor} (h : c.isBlank = true) :
    (c.skipBlanks.rest.head? == some '>') = false := by
  rw [Bool.eq_false_iff]
  intro hhead
  exact absurd (head_of_isBlank (isBlank_skip h _) (beq_iff_eq.1 hhead)) (by decide)

theorem isBlank_continueFrames {c c' : Cursor} {fs kept lost : List Frame} (hc : c.isBlank = true)
    (h : continueFrames c fs = (kept, lost, c')) : c'.isBlank = true := by
  induction fs generalizing c kept with
  | nil =>
    cases h
    exact hc
  | cons f fs ih =>
    rw [continueFrames] at h
    split at h
    · cases h
      exact hc
    · next f' c₁ hcontinue =>
      have hc₁ : c₁.isBlank = true := by
        cases f with
        | quote es =>
          rw [Frame.continue?, not_quoted_of_isBlank hc, Bool.and_false] at hcontinue
          cases hcontinue
        | item marker number width blankStart es =>
          rw [Frame.continue?, if_pos hc] at hcontinue
          split at hcontinue
          · cases hcontinue
          · cases hcontinue
            exact isBlank_skip hc width
      cases hrest : continueFrames c₁ fs with
      | mk more found =>
        obtain ⟨lost', c₂⟩ := found
        rw [hrest] at h
        cases h
        exact ih hc₁ hrest

theorem openFrame?_of_isBlank {c : Cursor} (h : c.isBlank = true) (interrupting : Bool) :
    openFrame? interrupting c = none := by
  have hquote : openQuote? c = none := by
    rw [openQuote?, not_quoted_of_isBlank h]
    rfl
  have hmarks : c.rest.filter (!isSpaceOrTab ·) = [] :=
    List.filter_eq_nil_iff.2 fun d hd => by simp [List.all_eq_true.1 h d hd]
  have hthematic : isThematicBreak c = false := by
    rw [isThematicBreak, hmarks]
    simp
  have hitem : openItem? interrupting c = none := by
    have hblank := isBlank_skip h c.indent
    have hmarker : itemMarker? interrupting c.skipBlanks.rest = none := by
      cases hrest : c.skipBlanks.rest with
      | nil => rfl
      | cons d rest =>
        have hd := head_of_isBlank hblank (congrArg List.head? hrest)
        rw [isSpaceOrTab_iff] at hd
        rcases hd with rfl | rfl <;> rfl
    rw [openItem?]
    dsimp only
    rw [hmarker]
  unfold openFrame?
  rw [hquote, hthematic, hitem]
  simp

theorem openFrames_of_none {interrupting : Bool} {c : Cursor} (h : openFrame? interrupting c = none)
    (n : Nat) (fs : List Frame) : openFrames interrupting n fs c = (fs, c) := by
  cases n with
  | zero => rfl
  | succ n => rw [openFrames, h]

theorem isBlank_text {c : Cursor} (h : c.isBlank = true) : c.text.all isSpaceOrTab = true := by
  rw [Cursor.text, List.all_append, Bool.and_eq_true]
  exact ⟨by simp [isSpaceOrTab], h⟩

theorem addFlow_of_isBlank {gfm interrupting : Bool} {c : Cursor} {eol : List Char} {b : Building}
    (h : c.isBlank = true) : (addFlow gfm interrupting c eol b).blocks = b.blocks ∧
      ((addFlow gfm interrupting c eol b).leaf = .none ∨
        ∃ lines, (addFlow gfm interrupting c eol b).leaf = .indented lines) := by
  have hpushed : (b.closeLeaf.push .blank).blocks = b.blocks ∧ (b.closeLeaf.push .blank).leaf = .none :=
    ⟨(Building.blocks_push_blank b.leaf_closeLeaf).trans b.blocks_closeLeaf,
      (Building.leaf_pushAll b.closeLeaf [.blank]).trans b.leaf_closeLeaf⟩
  unfold addFlow
  rw [if_pos h]
  split
  · next lines hleaf =>
    refine ⟨?_, .inr ⟨_, rfl⟩⟩
    have hclose : (Leaf.indented (⟨(c.skip tabWidth).text, eol⟩ :: lines)).close =
        [.blank] ++ (Leaf.indented lines).close := by
      simp only [Leaf.close, List.takeWhile_cons, isBlank_text (isBlank_skip h tabWidth), if_true]
      rfl
    rw [Building.blocks, Building.final, hclose, blocks_sealed_blanks (by simp), ← hleaf]
    rfl
  · exact ⟨hpushed.1, .inl hpushed.2⟩

/-- What a line does that opens no container and belongs to no text outside of its containers. -/
theorem addLine_eq_addFlow {gfm : Bool} {b : Building} {l : Line} {kept lost : List Frame} {c : Cursor}
    (hcontinue : continueFrames (Cursor.start l.text) b.frames.reverse = (kept, lost, c))
    (hraw : b.leaf.isRaw = false) (hopen : ∀ interrupting, openFrame? interrupting c = none)
    (hlazy : lost = [] ∨ isLazyLine c l.eol (b.continued kept lost) = false) :
    addLine gfm b l =
      addFlow gfm false c l.eol ((b.continued kept lost).closeFrames lost.length) := by
  have hopened : openFrames (lost.isEmpty && b.leaf.isParagraph) c.rest.length [] c = ([], c) :=
    openFrames_of_none (hopen _) _ _
  unfold addLine
  rw [hcontinue]
  dsimp only
  rw [hraw, hopened, Bool.and_false]
  cases lost with
  | nil => rfl
  | cons f fs =>
    have hstay : isLazyLine c l.eol (b.continued kept (f :: fs)) = false :=
      hlazy.resolve_left (List.cons_ne_nil f fs)
    rw [Building.continued] at hstay
    dsimp only
    rw [hstay]
    rfl

/-- A blank line in no raw leaf adds nothing to the blocks. -/
theorem addLine_of_isBlank (gfm : Bool) {b : Building} {l : Line} (hraw : b.leaf.isRaw = false)
    (h : l.text.all isSpaceOrTab = true) : (addLine gfm b l).blocks = b.blocks ∧
      ((addLine gfm b l).leaf = .none ∨ ∃ lines, (addLine gfm b l).leaf = .indented lines) := by
  cases hcontinue : continueFrames (Cursor.start l.text) b.frames.reverse with
  | mk kept found =>
    obtain ⟨lost, c⟩ := found
    have hblank := isBlank_continueFrames (c := Cursor.start l.text) h hcontinue
    have hlazy : isLazyLine c l.eol (b.continued kept lost) = false := by
      rw [isLazyLine, hblank]
      simp
    rw [addLine_eq_addFlow hcontinue hraw (openFrame?_of_isBlank hblank) (.inr hlazy)]
    obtain ⟨hblocks, hleaf⟩ := addFlow_of_isBlank (b := (b.continued kept lost).closeFrames lost.length) hblank
    exact ⟨hblocks.trans ((Building.blocks_closeFrames _ _).trans (Building.blocks_continued hcontinue)),
      hleaf⟩

end Block
end Bindery.Markdown
