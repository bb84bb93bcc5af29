import Bindery.Proofs.Markdown.Openings
import Bindery.Proofs.Markdown.Outcomes

/-! Text that goes into a block that was open. Whatever follows, the document never comes to the blocks it
would have ended with and definitions behind them: a container whose blocks are others is another one. -/

namespace Bindery.Markdown.Block

/-- Among any entries `es'` comes to other blocks than `es` and `Z` behind it. -/
def Differs (Z : List Block) (es es' : List Entry) : Prop :=
  ∀ X E, (gather (X ++ es' ++ E)).blocks ≠ (gather (es ++ E)).blocks ++ Z

theorem mem_takeWhile_blank {E : List Entry} : ∀ e ∈ E.takeWhile Entry.isBlank, e = .blank := by
  intro e he
  have hblank := List.mem_takeWhile_imp he
  cases e with
  | blank => rfl
  | block => cases hblank
  | item => cases hblank

theorem Differs.close {es es' : List Entry} (h : Differs [] es es') (f : Frame) (X : List Entry)
    (Z : List Block) : Differs Z (f.withEntries (es ++ f.entries)).close
      (f.withEntries (X ++ es' ++ f.entries)).close := by
  intro Y E heq
  have hblocks : (gather (es ++ f.entries)).blocks ≠ (gather (X ++ es' ++ f.entries)).blocks := fun hsame =>
    h X f.entries (hsame.symm.trans (List.append_nil _).symm)
  cases f with
  | quote entries =>
    refine not_prefix_of_quote hblocks Y E ⟨Z, ?_⟩
    rw [List.append_assoc] at heq
    exact heq.symm
  | item marker number width blankStart entries =>
    have hcut (Y Y' : List Entry) (e : Entry) : Y ++ (Y' ++ [e]) ++ E = Y ++ Y' ++ e :: E := by simp
    have hcut' (Y' : List Entry) (e : Entry) : Y' ++ [e] ++ E = Y' ++ e :: E := by simp
    simp only [Frame.withEntries, Frame.close, hcut, hcut'] at heq
    exact not_prefix_of_item hblocks mem_takeWhile_blank _ E marker _ _ _ _ ⟨Z, heq.symm⟩

theorem differs_into {es es' F : List Entry} {fs : List Frame} {E : List Entry}
    (h : ∀ Z, Differs Z es es') (hinto : Into es' fs E F) (Z : List Block) :
    (gather F).blocks ≠ (gather (sealed es fs.reverse E)).blocks ++ Z := by
  induction hinto generalizing es with
  | top X _ E => exact h Z X E
  -- Outwards: a container differs when its entries do, with nothing to come behind them inside it.
  | @frame X _ E F f fs _ ih =>
    rw [List.reverse_cons, sealed_append]
    exact ih fun Z => (h []).close f X Z

/-- What goes astray in a container goes astray in the document. -/
theorem differs_into_frame {es es' F : List Entry} {fs : List Frame} {E : List Entry}
    (h : Differs [] es es') (hfs : fs ≠ []) (hinto : Into es' fs E F) (Z : List Block) :
    (gather F).blocks ≠ (gather (sealed es fs.reverse E)).blocks ++ Z := by
  cases hinto with
  | top => exact absurd rfl hfs
  | @frame X _ _ _ f fs hinto =>
    rw [List.reverse_cons, sealed_append]
    exact differs_into (fun Z => h.close f X Z) hinto Z

/-! A table that takes up another row. -/

theorem differs_table {P : Line → Prop} {align : List (Option Align)} {row : List (List Char)}
    {rows : List (List (List Char))} {es : List Entry}
    (h : (Leaf.table align (row :: rows)).Comes P es) (Z : List Block) :
    Differs Z (Leaf.table align rows).close es := by
  intro X E heq
  obtain ⟨more, rfl⟩ := h.table
  have hgather := blocks_gather_block X (.table align ((row :: rows).reverse ++ more)) E
  have hgather' := blocks_gather_block [] (.table align rows.reverse) E
  rw [List.append_assoc, List.singleton_append, hgather] at heq
  have hsame := heq.trans (congrArg (· ++ Z) hgather')
  rw [List.append_assoc, List.append_cancel_left_eq] at hsame
  have hrows := congrArg List.length (Block.table.inj (List.cons.inj hsame).1).2
  simp only [List.reverse_cons, List.length_append, List.length_singleton] at hrows
  omega

/-! A paragraph that takes up another line. -/

theorem blocks_gather_front (bs : List Block) (E : List Entry) :
    (gather ((bs.map Entry.block).reverse ++ E)).blocks = (gather E).blocks ++ bs := by
  induction bs using List.reverseRecOn with
  | nil => exact (List.append_nil _).symm
  | append_singleton bs b ih =>
    rw [List.map_append, List.reverse_append]
    have hfront := blocks_gather_block [] b ((bs.map Entry.block).reverse ++ E)
    exact hfront.trans (by rw [ih, List.append_assoc]; rfl)

theorem blocks_gather_middle {bs : List Block} (hne : bs ≠ []) (X E : List Entry) :
    (gather (X ++ (bs.map Entry.block).reverse ++ E)).blocks = (gather E).blocks ++ (bs ++ (gather X).blocks) := by
  obtain ⟨front, b, rfl⟩ := (List.eq_nil_or_concat bs).resolve_left hne
  have hmiddle := blocks_gather_block X b ((front.map Entry.block).reverse ++ E)
  rw [blocks_gather_front] at hmiddle
  simpa using hmiddle

/-- What a paragraph comes to with more lines: the blocks of a longer text, or a table behind those of its
lines but the last. -/
theorem Leaf.Comes.paragraph {P : Line → Prop} {lines : List Line} {es : List Entry}
    (h : (Leaf.paragraph lines).Comes P es) : ∃ M,
      (∃ read, Reading read ∧ es = ((textBlocks read (ofParagraph (M ++ lines))).map Entry.block).reverse) ∨
      ∃ l before align rows, M ++ lines = l :: before ∧
        es = .block (.table align rows) :: (Leaf.paragraph before).close := by
  generalize hleaf : Leaf.paragraph lines = leaf at h
  induction h generalizing lines with
  | close =>
    subst hleaf
    exact ⟨[], .inl ⟨.paragraph, reading_paragraph, close_paragraph lines⟩⟩
  | grow hgrow _ ih =>
    subst hleaf
    cases hgrow with
    | @paragraph l _ _ =>
      obtain ⟨M, hM⟩ := ih rfl
      exact ⟨M ++ [l], by rwa [List.append_assoc]⟩
  | underline depth lines' =>
    cases hleaf
    exact ⟨[], .inl ⟨.heading depth, reading_heading depth, rfl⟩⟩
  | head l before align rows =>
    cases hleaf
    exact ⟨[], .inr ⟨l, before, align, rows, rfl, rfl⟩⟩

/-- The blocks of a longer paragraph are not those it had with definitions behind them, if it had more than
definitions, and are never just those it had. -/
theorem textBlocks_longer {read : List Char → Block} (hread : Reading read) {l : Line} (hl : l.Inked)
    {M L : List Line} (hL : ∀ l ∈ L, l.Proper) {Z W : List Block} (hZ : Z = [] ∨ (ofParagraph L).2 ≠ []) :
    textBlocks read (ofParagraph (M ++ l :: L)) ++ W ≠ textBlocks .paragraph (ofParagraph L) ++ Z := by
  have hlines : (M ++ l :: L).reverse = L.reverse ++ l :: M.reverse := by simp
  intro heq
  cases L with
  | nil =>
    have hnone : (ofParagraph ([] : List Line)).2 = [] := rfl
    cases hZ.resolve_right fun hne => hne hnone
    rw [ofParagraph, hlines] at heq
    exact textBlocks_ne_nil read (hl.joinLines_ne_nil (by simp)) _ (List.append_eq_nil_iff.1 heq).1
  | cons k L =>
    have hjoin : joinLines (M ++ l :: k :: L).reverse =
        joinLines (k :: L).reverse ++ (k.eol ++ joinLines (l :: M.reverse)) := by
      rw [hlines, List.reverse_cons, List.append_assoc, List.singleton_append]
      exact joinLines_append _ _ _ (List.cons_ne_nil _ _)
    have hne : joinLines (l :: M.reverse) ≠ [] := hl.joinLines_ne_nil List.mem_cons_self
    rw [ofParagraph, hjoin] at heq
    obtain ⟨hcomplete, hsome⟩ :=
      textBlocks_append hread (hL k List.mem_cons_self).eol hne (hl.head_joinLines _) heq
    exact hZ.elim hsome fun hrest => hrest hcomplete

theorem differs_paragraph {P : Line → Prop} {l : Line} (hl : l.Inked) {L : List Line}
    (hL : ∀ l ∈ L, l.Proper) {es : List Entry} (h : (Leaf.paragraph (l :: L)).Comes P es) {Z : List Block}
    (hdefining : Defining Z) (hZ : Z = [] ∨ (ofParagraph L).2 ≠ []) :
    Differs Z (Leaf.paragraph L).close es := by
  have hne (read : List Char → Block) (M : List Line) : textBlocks read (ofParagraph (M ++ l :: L)) ≠ [] :=
    textBlocks_ne_nil read (hl.joinLines_ne_nil (by simp)) _
  intro X E heq
  rw [close_paragraph, blocks_gather_front] at heq
  obtain ⟨M, ⟨read, hread, rfl⟩ | ⟨k, before, align, rows, hlines, rfl⟩⟩ := h.paragraph
  · rw [blocks_gather_middle (hne read M), List.append_assoc, List.append_cancel_left_eq] at heq
    exact textBlocks_longer hread hl hL hZ heq
  · have htable := blocks_gather_block X (.table align rows) ((Leaf.paragraph before).close ++ E)
    rw [List.append_assoc, List.cons_append, htable, close_paragraph, blocks_gather_front, List.append_assoc,
      List.append_assoc, List.append_cancel_left_eq] at heq
    cases M with
    | nil =>
      cases hlines
      obtain ⟨d, hd⟩ := hdefining (.table align rows) (by
        rw [← List.append_cancel_left heq]
        exact List.mem_cons_self)
      cases hd
    -- The table came later: the lines before it are a longer paragraph already.
    | cons m M =>
      cases hlines
      exact textBlocks_longer reading_paragraph hl hL hZ heq

end Bindery.Markdown.Block
