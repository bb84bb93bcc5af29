import Bindery.Proofs.Markdown.Closing

/-! Lines add to a document, whatever older entries it has. Only its open containers and its open leaf
decide what becomes of them. -/

namespace Bindery.Markdown.Block

namespace Building

/-- The document with older entries before its own. -/
def atop (E : List Entry) (b : Building) : Building := { b with entries := b.entries ++ E }

variable (E : List Entry) (b : Building)

@[simp] theorem atop_leaf : (b.atop E).leaf = b.leaf := rfl

@[simp] theorem atop_frames : (b.atop E).frames = b.frames := rfl

theorem atop_push (e : Entry) : (b.atop E).push e = (b.push e).atop E := by
  cases hframes : b.frames with
  | nil =>
    rw [push, push, atop_frames, hframes]
    rfl
  | cons f fs =>
    rw [push, push, atop_frames, hframes]
    rfl

theorem atop_pushAll (es : List Entry) : (b.atop E).pushAll es = (b.pushAll es).atop E := by
  induction es with
  | nil => rfl
  | cons e es ih =>
    have hstep (b : Building) : b.pushAll (e :: es) = (b.pushAll es).push e := rfl
    rw [hstep, hstep, ih, atop_push]

theorem atop_closeLeaf : (b.atop E).closeLeaf = b.closeLeaf.atop E :=
  atop_pushAll E { b with leaf := .none } b.leaf.close

theorem atop_leave : (b.atop E).leave = b.leave.atop E := by
  rw [leave, leave, atop_frames]
  cases b.frames with
  | nil => rfl
  | cons f fs => exact atop_pushAll E { b with frames := fs } f.close

theorem atop_closeFrames (n : Nat) : (b.atop E).closeFrames n = (b.closeFrames n).atop E := by
  induction n generalizing b with
  | zero => rfl
  | succ n ih => rw [closeFrames_succ, closeFrames_succ, atop_closeLeaf, atop_leave, ih]

theorem atop_add (block : Block) : (b.atop E).add block = (b.add block).atop E := by
  rw [add, add, atop_closeLeaf, atop_push]

theorem atop_start (leaf : Leaf) : (b.atop E).start leaf = (b.start leaf).atop E := by
  rw [start, start, atop_closeLeaf]
  rfl

theorem final_atop : (b.atop E).final = b.final ++ E := by
  have hsealed (last : List Entry) (fs : List Frame) (E' : List Entry) :
      sealed last fs (E' ++ E) = sealed last fs E' ++ E := by
    cases fs with
    | nil => exact (List.append_assoc _ _ _).symm
    | cons f fs => exact (List.append_assoc _ _ _).symm
  exact hsealed _ _ _

end Building

open Building (atop)

variable (E : List Entry) (b : Building)

theorem addText_atop (line : Line) : addText line (b.atop E) = (addText line b).atop E := by
  rw [addText, addText, Building.atop_leaf]
  split
  · rfl
  · exact b.atop_start E _

theorem addUnderline_atop (depth : Nat) (line : Line) :
    addUnderline depth line (b.atop E) = (addUnderline depth line b).atop E := by
  rw [addUnderline, addUnderline, Building.atop_leaf]
  split
  · next lines _ =>
    have hpush := Building.atop_pushAll E { b with leaf := .none }
      ((ofParagraph lines).1.map fun d => Entry.block (.definition d)).reverse
    dsimp only
    split
    · exact (congrArg (Building.start · _) hpush).trans (Building.atop_start _ _ _)
    · have hadd := (congrArg (Building.add · (.heading depth (ofParagraph lines).2)) hpush).trans
        (Building.atop_add _ _ _)
      exact congrArg (fun b : Building => { b with leaf := .underlined }) hadd
  · exact b.atop_start E _

theorem starts_atop (inParagraph : Bool) (c : Cursor) (line : Line) :
    starts inParagraph c line (b.atop E) = (starts inParagraph c line b).map (atop E) := by
  unfold starts
  split
  · rfl
  · split
    · exact congrArg some (b.atop_start E _)
    · split
      · split
        · rfl
        · split
          · exact congrArg some (b.atop_add E _)
          · exact congrArg some (b.atop_start E _)
      · rw [Option.map_map]
        exact congrArg (Option.map · _) (funext fun block => b.atop_add E block)

theorem addFlow_atop (gfm interrupting : Bool) (c : Cursor) (eol : List Char) :
    addFlow gfm interrupting c eol (b.atop E) = (addFlow gfm interrupting c eol b).atop E := by
  have hblank : (b.atop E).closeLeaf.push .blank = (b.closeLeaf.push .blank).atop E := by
    rw [Building.atop_closeLeaf, Building.atop_push]
  unfold addFlow
  rw [Building.atop_leaf]
  dsimp only
  rw [starts_atop]
  split
  · split
    · rfl
    · exact hblank
  · split
    · split
      · rfl
      · exact b.atop_start E _
    · cases starts (interrupting || b.leaf.isParagraph) c ⟨c.text, eol⟩ b with
      | some b' => rfl
      | none =>
        dsimp only [Option.map_none]
        generalize (if b.leaf.isLazy then underline? c else none) = underline
        cases underline with
        | some depth => exact addUnderline_atop E b _ _
        | none =>
          dsimp only
          split
          · exact b.atop_add E _
          · cases hleaf : b.leaf with
            | paragraph lines =>
              dsimp only
              cases tableHead? gfm lines c with
              | some found => exact Building.atop_start E { b with leaf := .paragraph found.1 } found.2
              | none => exact addText_atop E b _
            | table => rfl
            | _ => exact addText_atop E b _

theorem addRaw_atop (c : Cursor) (eol : List Char) :
    addRaw c eol (b.atop E) = (addRaw c eol b).atop E := by
  unfold addRaw
  rw [Building.atop_leaf]
  split
  · split
    · exact b.atop_closeLeaf E
    · rfl
  · next kind lines _ =>
    dsimp only
    split
    · rw [Building.atop_closeLeaf, Building.atop_push]
    · split
      · exact Building.atop_closeLeaf E { b with leaf := .html kind (⟨c.text, eol⟩ :: lines) }
      · rfl
  · rfl

theorem addLine_atop (gfm : Bool) (l : Line) : addLine gfm (b.atop E) l = (addLine gfm b l).atop E := by
  unfold addLine
  rw [Building.atop_frames]
  cases continueFrames (Cursor.start l.text) b.frames.reverse with
  | mk kept found =>
    obtain ⟨lost, c⟩ := found
    let b' := b.continued kept lost
    have hclosed : (b'.atop E).closeFrames lost.length = (b'.closeFrames lost.length).atop E :=
      b'.atop_closeFrames E _
    have hopened (opened : List Frame) :
        ({ ((b'.atop E).closeFrames lost.length).closeLeaf with frames := opened ++
            ((b'.atop E).closeFrames lost.length).closeLeaf.frames } : Building) =
          atop E { (b'.closeFrames lost.length).closeLeaf with
            frames := opened ++ (b'.closeFrames lost.length).closeLeaf.frames } := by
      rw [hclosed, Building.atop_closeLeaf]
      rfl
    have hlazy : isLazyLine c l.eol (b'.atop E) = isLazyLine c l.eol b' := by
      rw [isLazyLine, isLazyLine, starts_atop, Option.isNone_map, Building.atop_leaf]
    dsimp only [Building.atop_leaf]
    split
    · exact addRaw_atop E b' _ _
    · split
      · split
        · exact hopened _
        · exact (congrArg (addFlow gfm _ _ l.eol) (hopened _)).trans (addFlow_atop E _ _ _ _ _)
      · split
        · exact addFlow_atop E b' _ _ _ _
        · change (if isLazyLine c l.eol (b'.atop E) then _ else _) =
            atop E (if isLazyLine c l.eol b' then _ else _)
          rw [hlazy]
          split
          · exact addText_atop E b' _
          · exact (congrArg (addFlow gfm _ _ l.eol) hclosed).trans (addFlow_atop E _ _ _ _ _)

/-- Lines add to a document the same entries, whatever older ones it has. -/
theorem final_foldl_atop (gfm : Bool) (ls : List Line) :
    (finishLeaf (ls.foldl (addLine gfm) (b.atop E))).final =
      (finishLeaf (ls.foldl (addLine gfm) b)).final ++ E := by
  have hfinish (b : Building) : finishLeaf (b.atop E) = (finishLeaf b).atop E := by
    unfold finishLeaf
    rw [Building.atop_leaf]
    split
    · split <;> rfl
    · rfl
  have hlines : ls.foldl (addLine gfm) (b.atop E) = (ls.foldl (addLine gfm) b).atop E := by
    induction ls generalizing b with
    | nil => rfl
    | cons l ls ih => rw [List.foldl_cons, List.foldl_cons, addLine_atop, ih]
  rw [hlines, hfinish, Building.final_atop]

end Bindery.Markdown.Block
