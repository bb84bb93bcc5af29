import Bindery.Proofs.Markdown.Older
import Bindery.Proofs.Markdown.Openings
import Bindery.Proofs.Markdown.Outcomes

/-! A text of nothing but link definitions. Every paragraph of it begins with one, so behind definitions that are
still open it comes to what it comes to alone. -/

namespace Bindery.Markdown.Block

/-! A line at the top. -/

variable {gfm : Bool} {c : Cursor} {l : Line} {b : Building}

theorem foreign_add (block : Block) (h : (Entry.block block).Foreign) (b : Building) :
    (b.add block).Foreign := foreign_push h _

theorem foreign_start (leaf : Leaf) (h : leaf.Foreign) (b : Building) : (b.start leaf).Foreign :=
  foreign_of_leaf h

theorem foreign_of_starts {inParagraph : Bool} {line : Line} {b' : Building}
    (h : starts inParagraph c line b = some b') : b'.Foreign := by
  unfold starts at h
  split at h
  · cases h
  · split at h
    · next fenced hfence =>
      cases h
      obtain ⟨mark, size, indent, lang, info, rfl⟩ := exists_of_fence? hfence
      exact foreign_start _ (Leaf.foreign_of_isOther rfl) b
    · split at h
      · next kind _ =>
        split at h
        · cases h
        · split at h
          · cases h
            exact foreign_add (.html line.text) trivial b
          · cases h
            exact foreign_start (.html kind [line]) (Leaf.foreign_of_isOther rfl) b
      · obtain ⟨block, hheading, rfl⟩ := Option.map_eq_some_iff.1 h
        obtain ⟨depth, text, rfl⟩ : ∃ depth text, block = .heading depth text := by
          unfold heading? at hheading
          dsimp only at hheading
          split at hheading
          · cases hheading
          · split at hheading
            · cases hheading
              exact ⟨_, _, rfl⟩
            · split at hheading
              · cases hheading
                exact ⟨_, _, rfl⟩
              · cases hheading
        exact foreign_add (.heading depth text) trivial b

/-- What a line starts does not depend on what is there already. -/
theorem starts_isNone (inParagraph : Bool) (line : Line) (b b' : Building) :
    (starts inParagraph c line b').isNone = (starts inParagraph c line b).isNone := by
  unfold starts
  split
  · rfl
  · split
    · rfl
    · split
      · split
        · rfl
        · split <;> rfl
      · cases heading? c <;> rfl

theorem tableHead?_isNone (head : Line) (L L' : List Line) :
    (tableHead? gfm (head :: L') c).isNone = (tableHead? gfm (head :: L) c).isNone := by
  unfold tableHead?
  dsimp only
  split
  · rfl
  · rw [Option.isNone_map, Option.isNone_map]

/-- The containers that a line opens at the top. -/
def openedBy (leaf : Leaf) (l : Line) : List Frame × Cursor :=
  openFrames leaf.isParagraph l.text.length [] (Cursor.start l.text)

theorem addLine_top (gfm : Bool) (E : List Entry) {leaf : Leaf} (l : Line) (hraw : leaf.isRaw = false) :
    addLine gfm ⟨E, [], leaf⟩ l =
      if (openedBy leaf l).1 = [] then addFlow gfm false (Cursor.start l.text) l.eol ⟨E, [], leaf⟩
      else
        let b := Building.closeLeaf ⟨E, [], leaf⟩
        let b := { b with frames := (openedBy leaf l).1 ++ b.frames }
        if (openedBy leaf l).2.isBlank then b
        else addFlow gfm leaf.isParagraph (openedBy leaf l).2 l.eol b := by
  have hstep : addLine gfm ⟨E, [], leaf⟩ l =
      if leaf.isRaw then addRaw (Cursor.start l.text) l.eol ⟨E, [], leaf⟩
      else if !(openedBy leaf l).1.isEmpty then
        let b := Building.closeLeaf ⟨E, [], leaf⟩
        let b := { b with frames := (openedBy leaf l).1 ++ b.frames }
        if (openedBy leaf l).2.isBlank then b
        else addFlow gfm leaf.isParagraph (openedBy leaf l).2 l.eol b
      else addFlow gfm false (Cursor.start l.text) l.eol ⟨E, [], leaf⟩ := rfl
  rw [hstep, hraw]
  cases (openedBy leaf l).1 <;> rfl

theorem foreign_of_opened (gfm : Bool) (E : List Entry) {leaf : Leaf} {l : Line} (hraw : leaf.isRaw = false)
    (hopened : (openedBy leaf l).1 ≠ []) : (addLine gfm ⟨E, [], leaf⟩ l).Foreign := by
  have hframes (b : Building) : ({ b with frames := (openedBy leaf l).1 ++ b.frames } : Building).Foreign :=
    foreign_of_frames fun hnil => hopened (List.append_eq_nil_iff.1 hnil).1
  rw [addLine_top gfm E l hraw, if_neg hopened]
  dsimp only
  split
  · exact hframes _
  · exact (hframes _).of_moves (moves_addFlow (fun _ => trivial) _)

theorem stray_of_underline? {depth : Nat} (h : underline? c = some depth) (hblank : c.isBlank = false) :
    Stray c.rest := by
  refine stray_of_not_bracketed hblank fun hbracket => ?_
  have hindent : c.indent < tabWidth := by
    by_contra hge
    unfold underline? at h
    simp [Nat.le_of_not_lt hge] at h
  rw [underline?_of_opens ⟨hindent, hbracket⟩] at h
  cases h

theorem foreign_addUnderline (depth : Nat) {line : Line} (h : Stray line.text) (b : Building) :
    (addUnderline depth line b).Foreign := by
  have hstart (b : Building) : (b.start (.paragraph [line])).Foreign :=
    foreign_start _ (Leaf.foreign_of_stray h []) b
  unfold addUnderline
  split
  · dsimp only
    split
    · exact hstart _
    · refine (foreign_add (.heading depth _) trivial _).of_moves (.single (.start ?_ trivial))
      exact (Building.leaf_pushAll _ [_]).trans (Building.leaf_closeLeaf _)
  · exact hstart b

/-- A line behind a paragraph goes into it or closes it, if the document comes to definitions alone. What
the paragraph has before its last line makes no difference. -/
theorem addFlow_paragraph (gfm : Bool) (l head : Line) (E E' : List Entry) (L L' : List Line) :
    let add := addFlow gfm false (Cursor.start l.text) l.eol
    (add ⟨E, [], .paragraph (head :: L)⟩).Foreign ∨
      add ⟨E, [], .paragraph (head :: L)⟩ = ⟨E, [], .paragraph (l :: head :: L)⟩ ∧
        add ⟨E', [], .paragraph (head :: L')⟩ = ⟨E', [], .paragraph (l :: head :: L')⟩ ∨
      add ⟨E, [], .paragraph (head :: L)⟩ =
          ⟨.blank :: ((Leaf.paragraph (head :: L)).close ++ E), [], .none⟩ ∧
        add ⟨E', [], .paragraph (head :: L')⟩ =
          ⟨.blank :: ((Leaf.paragraph (head :: L')).close ++ E'), [], .none⟩ := by
  have hclose (E : List Entry) (L : List Line) : (⟨E, [], .paragraph L⟩ : Building).closeLeaf.push .blank =
      ⟨.blank :: ((Leaf.paragraph L).close ++ E), [], .none⟩ := by
    rw [Building.closeLeaf, Building.pushAll_of_nil rfl]
    rfl
  -- The cases are the branches of `addFlow`: no test in them looks at the paragraph but for its last line.
  generalize hc : Cursor.start l.text = c
  have htext : c.text = l.text := by rw [← hc]; rfl
  have hrest : c.rest = l.text := by rw [← hc]; rfl
  have hnone := starts_isNone (c := c) true l ⟨E, [], .paragraph (head :: L)⟩ ⟨E', [], .paragraph (head :: L')⟩
  have htable : (tableHead? gfm (head :: L') c).isNone = (tableHead? gfm (head :: L) c).isNone :=
    tableHead?_isNone head L L'
  unfold addFlow
  simp only [Leaf.isParagraph, Leaf.isLazy, Bool.or_true, Bool.not_true, Bool.and_false, if_true,
    Bool.false_eq_true, if_false, htext]
  cases hblank : c.isBlank with
  | true => exact .inr (.inr ⟨hclose E _, hclose E' _⟩)
  | false =>
    cases hstarts : starts true c l ⟨E, [], .paragraph (head :: L)⟩ with
    | some b => exact .inl (foreign_of_starts hstarts)
    | none =>
      rw [hstarts] at hnone
      rw [Option.isNone_iff_eq_none.1 hnone]
      cases hunderline : underline? c with
      | some depth =>
        have hstray : Stray l.text := hrest ▸ stray_of_underline? hunderline hblank
        exact .inl (foreign_addUnderline depth hstray ⟨E, [], .paragraph (head :: L)⟩)
      | none =>
        cases hthematic : isThematicBreak c with
        | true => exact .inl (foreign_add .thematicBreak trivial _)
        | false =>
          cases hhead : tableHead? gfm (head :: L) c with
          | some found =>
            obtain ⟨-, align, rows, -, hgrid⟩ := exists_of_tableHead? hhead
            refine .inl (foreign_start found.2 ?_ _)
            rw [hgrid]
            exact Leaf.foreign_of_isOther rfl
          | none =>
            rw [hhead] at htable
            rw [Option.isNone_iff_eq_none.1 htable]
            exact .inr (.inl ⟨rfl, rfl⟩)

theorem addLine_paragraph (gfm : Bool) (l head : Line) (E E' : List Entry) (L L' : List Line) :
    (addLine gfm ⟨E, [], .paragraph (head :: L)⟩ l).Foreign ∨
      addLine gfm ⟨E, [], .paragraph (head :: L)⟩ l = ⟨E, [], .paragraph (l :: head :: L)⟩ ∧
        addLine gfm ⟨E', [], .paragraph (head :: L')⟩ l = ⟨E', [], .paragraph (l :: head :: L')⟩ ∨
      addLine gfm ⟨E, [], .paragraph (head :: L)⟩ l =
          ⟨.blank :: ((Leaf.paragraph (head :: L)).close ++ E), [], .none⟩ ∧
        addLine gfm ⟨E', [], .paragraph (head :: L')⟩ l =
          ⟨.blank :: ((Leaf.paragraph (head :: L')).close ++ E'), [], .none⟩ := by
  by_cases hopened : (openedBy (.paragraph (head :: L)) l).1 = []
  · have hopened' : (openedBy (.paragraph (head :: L')) l).1 = [] := hopened
    rw [addLine_top gfm E l rfl, addLine_top gfm E' l rfl, if_pos hopened, if_pos hopened']
    exact addFlow_paragraph gfm l head E E' L L'
  · exact .inl (foreign_of_opened gfm E rfl hopened)

/-- A line that is not blank opens a definition, if the document comes to definitions alone. -/
theorem addLine_closed (gfm : Bool) (E : List Entry) (hblank : l.text.all isSpaceOrTab = false) :
    (addLine gfm ⟨E, [], .none⟩ l).Foreign ∨ (Cursor.start l.text).Opens := by
  by_cases hopened : (openedBy .none l).1 = []
  swap
  · exact .inl (foreign_of_opened gfm E rfl hopened)
  refine or_iff_not_imp_right.2 fun hopens => ?_
  rw [addLine_top gfm E l rfl, if_pos hopened]
  generalize hc : Cursor.start l.text = c at hopens ⊢
  have htext : c.text = l.text := by rw [← hc]; rfl
  have hrest : c.rest = l.text := by rw [← hc]; rfl
  have hblank' : c.isBlank = false := by rw [Cursor.isBlank, hrest, hblank]
  unfold addFlow
  simp only [Leaf.isParagraph, Leaf.isLazy, Bool.or_false, Bool.not_false, Bool.and_true, decide_eq_true_eq,
    Bool.false_eq_true, if_false, htext, hblank']
  split
  · exact foreign_start _ (Leaf.foreign_of_isOther rfl) _
  · next hindent =>
    have hbracket : ¬ Bracketed l.text := fun hbracket =>
      hopens ⟨Nat.lt_of_not_le hindent, hrest ▸ hbracket⟩
    have hstray : Stray l.text := stray_of_not_bracketed hblank hbracket
    split
    · next b hstarts => exact foreign_of_starts hstarts
    · split
      · exact foreign_add .thematicBreak trivial _
      · exact foreign_start _ (Leaf.foreign_of_stray (l := l) hstray []) _

/-- The entries of a document that ends with these lines. -/
def finalOf (gfm : Bool) (ls : List Line) (b : Building) : List Entry :=
  (finishLeaf (ls.foldl (addLine gfm) b)).final

theorem not_defining_of_lines (h : b.Foreign) (ls : List Line) : ¬ Defining (gather (finalOf gfm ls b)).blocks :=
  Building.Foreign.not_defining <|
    h.of_moves ((moves_foldl (fun _ _ _ _ _ => trivial) b).trans (moves_finishLeaf _))

/-- The lines behind an open paragraph of the declarations add to it and then to the entries. What stands before
the last line of the paragraph, and the older entries, make no difference. -/
theorem exists_final_paragraph (ls : List Line) (head : Line) (E E' : List Entry) (L L' : List Line)
    (h : Defining (gather (finalOf gfm ls ⟨E, [], .paragraph (head :: L)⟩)).blocks) :
    ∃ M X, finalOf gfm ls ⟨E, [], .paragraph (head :: L)⟩ =
        X ++ ((Leaf.paragraph (M ++ head :: L)).close ++ E) ∧
      finalOf gfm ls ⟨E', [], .paragraph (head :: L')⟩ =
        X ++ ((Leaf.paragraph (M ++ head :: L')).close ++ E') := by
  induction ls generalizing head L L' with
  | nil => exact ⟨[], [], rfl, rfl⟩
  | cons l ls ih =>
    rcases addLine_paragraph gfm l head E E' L L' with hforeign | ⟨hgrow, hgrow'⟩ | ⟨hclose, hclose'⟩
    · exact absurd h (not_defining_of_lines hforeign ls)
    · rw [finalOf, List.foldl_cons, hgrow] at h ⊢
      rw [finalOf, List.foldl_cons, hgrow']
      obtain ⟨M, X, hfinal, hfinal'⟩ := ih l (head :: L) (head :: L') h
      refine ⟨M ++ [l], X, ?_, ?_⟩
      · rw [List.append_assoc]
        exact hfinal
      · rw [List.append_assoc]
        exact hfinal'
    -- A blank line closes the paragraph, and what follows goes on top of the entries that are there.
    · refine ⟨[], finalOf gfm ls ⟨[.blank], [], .none⟩, ?_, ?_⟩
      · rw [finalOf, List.foldl_cons, hclose]
        exact final_foldl_atop _ ⟨[.blank], [], .none⟩ gfm ls
      · rw [finalOf, List.foldl_cons, hclose']
        exact final_foldl_atop _ ⟨[.blank], [], .none⟩ gfm ls

/-- Definitions and blank lines add what they come to alone. -/
theorem blocks_gather_append {X : List Entry} (h : ∀ e ∈ X, ¬ e.Foreign) (E : List Entry) :
    (gather (X ++ E)).blocks = (gather E).blocks ++ (gather X).blocks := by
  induction X using List.reverseRecOn generalizing E with
  | nil => exact (List.append_nil _).symm
  | append_singleton X e ih =>
    have hX := ih fun e he => h e (List.mem_append_left _ he)
    have hone : (gather (e :: E)).blocks = (gather E).blocks ++ (gather [e]).blocks := by
      cases e with
      | blank =>
        rw [← List.singleton_append, (gather_blanks (by simp) E).1]
        exact (List.append_nil _).symm
      | block block => exact blocks_gather_block [] block E
      | item =>
        exact absurd trivial (h _ (List.mem_append_right _ (List.mem_singleton_self _)))
    rw [List.append_assoc, List.singleton_append, hX, hX, hone, List.append_assoc]

theorem not_foreign_of_defining {F : List Entry} (h : Defining (gather F).blocks) :
    ∀ e ∈ F, ¬ e.Foreign := fun _ he hforeign => not_defining_of_foreign he hforeign h

theorem complete_of_not_foreign {L : List Line} (h : ∀ e ∈ (Leaf.paragraph L).close, ¬ e.Foreign) :
    (ofParagraph L).2 = [] := by
  by_contra hrest
  refine h (.block (.paragraph (ofParagraph L).2)) ?_ trivial
  rw [close_paragraph, textBlocks, if_neg (by rwa [List.isEmpty_iff])]
  simp

theorem close_of_complete {L : List Line} (h : (ofParagraph L).2 = []) :
    (Leaf.paragraph L).close = ((ofParagraph L).1.map fun d => Entry.block (.definition d)).reverse := by
  rw [close_paragraph, textBlocks, h, List.isEmpty_nil, if_pos rfl, List.append_nil, List.map_map]
  rfl

/-- Blank lines in front of a document. -/
theorem exists_blanks (gfm : Bool) {ls : List Line} (hls : ∀ l ∈ ls, l.text.all isSpaceOrTab = true) :
    ∃ B, (∀ e ∈ B, e = .blank) ∧ ls.foldl (addLine gfm) Building.empty = ⟨B, [], .none⟩ := by
  have hstep (E : List Entry) (l : Line) (hl : l.text.all isSpaceOrTab = true) :
      addLine gfm ⟨E, [], .none⟩ l = ⟨.blank :: E, [], .none⟩ := by
    have hblank : (Cursor.start l.text).isBlank = true := hl
    have hcontinue : continueFrames (Cursor.start l.text) [] = ([], [], Cursor.start l.text) := rfl
    rw [@addLine_eq_addFlow gfm ⟨E, [], .none⟩ _ _ _ _ hcontinue rfl (openFrame?_of_isBlank hblank) (.inl rfl)]
    unfold addFlow
    rw [if_pos hblank]
    rfl
  have hrun (E : List Entry) (hE : ∀ e ∈ E, e = .blank) :
      ∃ B, (∀ e ∈ B, e = .blank) ∧ ls.foldl (addLine gfm) ⟨E, [], .none⟩ = ⟨B, [], .none⟩ := by
    induction ls generalizing E with
    | nil => exact ⟨E, hE, rfl⟩
    | cons l ls ih =>
      rw [List.foldl_cons, hstep E l (hls l List.mem_cons_self)]
      exact ih (fun l hl => hls l (List.mem_cons_of_mem _ hl)) _ (List.forall_mem_cons.2 ⟨rfl, hE⟩)
  exact hrun [] (by simp)

theorem close_append {L L' : List Line} (hL : (ofParagraph L).2 = []) (hne : joinLines L.reverse ≠ [])
    (hL' : (ofParagraph L').2 = []) (hproper : ∀ l ∈ L', l.Proper) :
    (Leaf.paragraph (L ++ L')).close = (Leaf.paragraph L).close ++ (Leaf.paragraph L').close := by
  have happend := ofParagraph_append hL hne hL' hproper
  rw [close_of_complete hL, close_of_complete hL', close_of_complete (congrArg Prod.snd happend), happend,
    List.map_append, List.reverse_append]

section Declared

variable {blanks ls : List Line} {ds : List Definition}

/-- The run of a text that comes to definitions alone, from its first line that is not blank. -/
theorem exists_run_of_declared (hblanks : ∀ l ∈ blanks, l.text.all isSpaceOrTab = true)
    (hfirst : l.Inked)
    (halone : ofLines gfm (blanks ++ l :: ls) = ds.map .definition) :
    (Cursor.start l.text).Opens ∧ ∃ B, (∀ e ∈ B, e = .blank) ∧
      (gather (finalOf gfm ls ⟨B, [], .paragraph [l]⟩)).blocks = ds.map .definition := by
  obtain ⟨B, hB, hrun⟩ := exists_blanks gfm hblanks
  rw [ofLines_eq, List.foldl_append, hrun, List.foldl_cons] at halone
  have hdefining : Defining (finishLeaf (ls.foldl (addLine gfm) (addLine gfm ⟨B, [], .none⟩ l))).blocks := by
    intro block hblock
    rw [halone] at hblock
    obtain ⟨d, -, rfl⟩ := List.mem_map.1 hblock
    exact ⟨d, rfl⟩
  have hopens : (Cursor.start l.text).Opens :=
    (addLine_closed gfm B hfirst.text).resolve_left fun hforeign => not_defining_of_lines hforeign ls hdefining
  have hcontinue : continueFrames (Cursor.start l.text) [] = ([], [], Cursor.start l.text) := rfl
  have hadd : addLine gfm ⟨B, [], .none⟩ l = ⟨B, [], .paragraph [l]⟩ := by
    rw [@addLine_of_opens _ gfm ⟨B, [], .none⟩ _ _ _ rfl hopens hcontinue]
    rfl
  rw [hadd] at halone
  exact ⟨hopens, B, hB, halone⟩

/-- Behind a paragraph of definitions a text of definitions comes to what it comes to alone. -/
theorem blocks_behind_definitions (hblanks : ∀ l ∈ blanks, l.text.all isSpaceOrTab = true)
    (hfirst : l.Inked)
    (halone : ofLines gfm (blanks ++ l :: ls) = ds.map .definition) {L : List Line}
    (hL : (ofParagraph L).2 = []) (hproper : ∀ l ∈ L, l.Proper) (E : List Entry) :
    (gather (finalOf gfm ls ⟨E, [], .paragraph (l :: L)⟩)).blocks =
      (gather ((Leaf.paragraph L).close ++ E)).blocks ++ ds.map .definition := by
  obtain ⟨-, B, hB, hblocks⟩ := exists_run_of_declared hblanks hfirst halone
  have hdefining : Defining (gather (finalOf gfm ls ⟨B, [], .paragraph [l]⟩)).blocks := by
    intro block hblock
    rw [hblocks] at hblock
    obtain ⟨d, -, rfl⟩ := List.mem_map.1 hblock
    exact ⟨d, rfl⟩
  obtain ⟨M, X, hfinal, hfinal'⟩ := exists_final_paragraph ls l B E [] L hdefining
  rw [hfinal, ← List.append_assoc] at hdefining hblocks
  have hplain : ∀ e ∈ X ++ (Leaf.paragraph (M ++ [l])).close, ¬ e.Foreign := fun e he =>
    not_foreign_of_defining hdefining e (List.mem_append_left _ he)
  have hcomplete : (ofParagraph (M ++ [l])).2 = [] :=
    complete_of_not_foreign fun e he => hplain e (List.mem_append_right _ he)
  have hne : joinLines (M ++ [l]).reverse ≠ [] := hfirst.joinLines_ne_nil (by simp)
  have hnothing : (gather B).blocks = [] := by
    have hblank := (gather_blanks hB []).1
    rwa [List.append_nil] at hblank
  rw [blocks_gather_append hplain, hnothing, List.nil_append] at hblocks
  have hjoined : M ++ l :: L = M ++ [l] ++ L := by simp
  -- The older definitions are read first, and the rest of the paragraph as it is read alone.
  rw [hfinal', hjoined, close_append hcomplete hne hL hproper, List.append_assoc, ← List.append_assoc X,
    blocks_gather_append hplain, hblocks]

end Declared

end Bindery.Markdown.Block
