import Bindery.Markdown.Document
import Bindery.Proofs.Markdown.Astray
import Bindery.Proofs.Markdown.Declarations
import Bindery.Proofs.Markdown.FirstLine

/-! A text of link definitions behind another text. The two are one document, so the definitions come behind
the blocks of the text just when nothing that is open at its end takes up their first line. -/

namespace Bindery.Markdown

namespace Block

variable {P : Line → Prop} {gfm : Bool} {b : Building} {l : Line}

/-- Does the leaf leave a line alone that opens a definition? A table takes it for a row, and a paragraph reads
it apart only if it holds nothing but definitions. -/
def Leaf.Spares : Leaf → Prop
  | .paragraph lines => (ofParagraph lines).2 = []
  | .table .. => False
  | _ => True

/-- What is open does not take up a line that opens a definition: it continues no container, no text in the
containers goes on with it, and neither does the leaf when none is open. -/
def Building.Clear (b : Building) (l : Line) : Prop :=
  (continueFrames (Cursor.start l.text) b.frames.reverse).1 = [] ∧
    (b.frames = [] → b.leaf.Spares) ∧ (b.frames ≠ [] → b.leaf.isLazy = false)

instance (leaf : Leaf) : Decidable leaf.Spares :=
  match leaf with
  | .paragraph lines => inferInstanceAs (Decidable ((ofParagraph lines).2 = []))
  | .table .. => inferInstanceAs (Decidable False)
  | .none | .underlined | .indented _ | .fenced .. | .html .. => inferInstanceAs (Decidable True)

instance (b : Building) (l : Line) : Decidable (b.Clear l) :=
  inferInstanceAs (Decidable (_ = [] ∧ (b.frames = [] → b.leaf.Spares) ∧ (b.frames ≠ [] → _ = false)))

section Reached

variable {c : Cursor} {kept lost : List Frame}

theorem length_frames_of_continueFrames
    (h : continueFrames (Cursor.start l.text) b.frames.reverse = (kept, lost, c)) :
    b.frames.length = kept.length + lost.length := by
  rw [← List.length_append, ← (continueFrames_same h).length_eq, List.length_reverse]

theorem final_reached (h : continueFrames (Cursor.start l.text) b.frames.reverse = (kept, lost, c)) :
    (b.reached kept lost).final = b.final := by
  unfold Building.reached
  split
  · exact Building.final_continued h
  · exact (Building.final_closeFrames _ _).trans (Building.final_continued h)

theorem leaf_reached (kept lost : List Frame) :
    (b.reached kept lost).leaf = b.leaf ∨ (b.reached kept lost).leaf = .none := by
  unfold Building.reached
  split
  · exact .inl rfl
  · cases lost with
    | nil => exact .inl rfl
    | cons f fs => exact .inr (Building.leaf_closeFrames_succ _ _)

theorem clear_iff_reached (h : continueFrames (Cursor.start l.text) b.frames.reverse = (kept, lost, c)) :
    b.Clear l ↔ (b.reached kept lost).frames = [] ∧ (b.reached kept lost).leaf.Spares := by
  have hlength := length_frames_of_continueFrames h
  rw [Building.Clear, h]
  cases lost with
  | nil =>
    have hreached : b.reached kept [] = b.continued kept [] := rfl
    have hframes : b.frames = [] ↔ kept = [] := by
      rw [← List.length_eq_zero_iff, hlength, ← List.length_eq_zero_iff]
      rfl
    rw [hreached, Building.continued, List.reverse_nil, List.nil_append, List.reverse_eq_nil_iff, hframes]
    exact and_congr_right fun hkept => ⟨fun hclear => hclear.1 hkept, fun hclear => ⟨fun _ => hclear,
      fun hne => absurd (hframes.2 hkept) hne⟩⟩
  | cons f fs =>
    have hframes : b.frames ≠ [] := by
      rw [← List.length_pos_iff, hlength]
      exact Nat.succ_pos _
    rw [Building.reached, Building.runsOn, List.isEmpty_cons, Bool.not_false, Bool.true_and]
    cases hlazy : b.leaf.isLazy with
    | true =>
      refine iff_of_false (fun hclear => ?_) fun hreached => ?_
      · cases hclear.2.2 hframes
      · rw [if_pos rfl, Building.continued] at hreached
        simp at hreached
    | false =>
      have hkept : ((b.continued kept (f :: fs)).closeFrames (f :: fs).length).frames = [] ↔ kept = [] := by
        rw [← List.length_eq_zero_iff, Building.length_frames_closeFrames, Building.continued,
          List.length_append, List.length_reverse, List.length_reverse, Nat.add_sub_cancel_left,
          List.length_eq_zero_iff]
      rw [if_neg Bool.false_ne_true, hkept, List.length_cons, Building.leaf_closeFrames_succ]
      exact and_congr_right fun _ => iff_of_true ⟨fun hnil => absurd hnil hframes, fun _ => rfl⟩ trivial

end Reached

theorem eq_start_of_kept_nil {c c' : Cursor} {fs lost : List Frame}
    (h : continueFrames c fs = ([], lost, c')) : c' = c := by
  cases fs with
  | nil =>
    cases h
    rfl
  | cons f fs =>
    rw [continueFrames] at h
    split at h
    · cases h
      rfl
    · cases h

/-- A line of text goes on top of the lines `L` of a paragraph, none if it starts one. -/
theorem exists_addText (hleaf : b.leaf.Holds P) (line : Line) : ∃ E fs L,
    addText line b = ⟨E, fs, .paragraph (line :: L)⟩ ∧
      b.final = sealed (Leaf.paragraph L).close fs.reverse E ∧ (fs = [] ↔ b.frames = []) ∧
      (∀ l ∈ L, P l) ∧ (b.leaf = .paragraph L ∨ b.leaf.isParagraph = false ∧ L = []) := by
  unfold addText
  split
  · next L hb =>
    refine ⟨b.entries, b.frames, L, rfl, ?_, Iff.rfl, hleaf L hb, .inl hb⟩
    rw [Building.final, hb]
  · next hne =>
    have hparagraph : b.leaf.isParagraph = false := by
      cases hb : b.leaf with
      | paragraph L => exact (hne L hb).elim
      | _ => rfl
    refine ⟨b.closeLeaf.entries, b.closeLeaf.frames, [], rfl, ?_, ?_, by simp, .inr ⟨hparagraph, rfl⟩⟩
    · rw [← b.final_closeLeaf, Building.final, b.leaf_closeLeaf]
      rfl
    · have hlength : b.closeLeaf.frames.length = b.frames.length :=
        Building.length_frames_pushAll { b with leaf := .none } _
      rw [← List.length_eq_zero_iff, hlength, List.length_eq_zero_iff]

/-- The line goes into a paragraph, or it is another row of a table. -/
theorem exists_addOpening (hleaf : b.leaf.Holds P) (line : Line) :
    (∃ E fs L, addOpening line b = ⟨E, fs, .paragraph (line :: L)⟩ ∧
        b.final = sealed (Leaf.paragraph L).close fs.reverse E ∧ (fs = [] ↔ b.frames = []) ∧
        (∀ l ∈ L, P l) ∧ (b.leaf.Spares ↔ (ofParagraph L).2 = [])) ∨
      ∃ E fs align row rows, addOpening line b = ⟨E, fs, .table align (row :: rows)⟩ ∧
        b.final = sealed (Leaf.table align rows).close fs.reverse E ∧ ¬ b.leaf.Spares := by
  unfold addOpening
  split
  · next align rows hb =>
    refine .inr ⟨b.entries, b.frames, align, rowCells line.text, rows, rfl, ?_, by rw [hb]; exact id⟩
    rw [Building.final, hb]
  · next hne =>
    obtain ⟨E, fs, L, hadd, hfinal, hfs, hL, hshape⟩ := exists_addText hleaf line
    refine .inl ⟨E, fs, L, hadd, hfinal, hfs, hL, ?_⟩
    rcases hshape with hb | ⟨hparagraph, rfl⟩
    · rw [hb]
      rfl
    · refine iff_of_true ?_ rfl
      cases hb : b.leaf with
      | paragraph =>
        rw [hb] at hparagraph
        cases hparagraph
      | table align rows => exact (hne align rows hb).elim
      | _ => trivial

theorem comes_finalOf (gfm : Bool) (ls : List Line) (b : Building) :
    b.Comes (fun _ => True) (finalOf gfm ls b) :=
  comes_of_moves ((moves_foldl (fun _ _ _ _ _ => trivial) b).trans (moves_finishLeaf _)) (comes_final _ _)

theorem inked_of_opens {c : Cursor} (hl : l.Inked) (hc : c.Opens) (hrest : c.rest <:+ l.text) :
    Line.Inked ⟨c.text, l.eol⟩ := by
  refine ⟨?_, fun d hd => ?_⟩
  · rw [Cursor.text, List.all_append, Bool.and_eq_false_iff]
    exact .inr hc.isBlank
  · rcases List.mem_append.1 hd with hd | hd
    · rw [List.eq_of_mem_replicate hd]
      rfl
    · exact hl.inner d (hrest.subset hd)

section Declared

variable {blanks ls : List Line} {ds : List Definition}

/-- Lines of nothing but definitions come behind the blocks of a document just when it is clear for the first
of them. -/
theorem blocks_finalOf_iff (hraw : b.leaf.isRaw = false) (hproper : b.leaf.Holds Line.Proper)
    (hblanks : ∀ l ∈ blanks, l.text.all isSpaceOrTab = true) (hfirst : l.Inked)
    (halone : ofLines gfm (blanks ++ l :: ls) = ds.map .definition) :
    (gather (finalOf gfm (l :: ls) b)).blocks = b.blocks ++ ds.map .definition ↔ b.Clear l := by
  obtain ⟨hopens, -⟩ := exists_run_of_declared hblanks hfirst halone
  have hdefining : Defining (ds.map .definition) := by
    intro block hblock
    obtain ⟨d, -, rfl⟩ := List.mem_map.1 hblock
    exact ⟨d, rfl⟩
  cases hcontinue : continueFrames (Cursor.start l.text) b.frames.reverse with
  | mk kept found =>
    obtain ⟨lost, c⟩ := found
    have hinked := inked_of_opens hfirst (opens_continueFrames hopens hcontinue)
      (suffix_continueFrames hcontinue)
    have hholds : (b.reached kept lost).leaf.Holds Line.Proper := by
      rcases leaf_reached kept lost with hleaf | hleaf <;> rw [hleaf]
      · exact hproper
      · exact nofun
    have hadd : finalOf gfm (l :: ls) b =
        finalOf gfm ls (addOpening ⟨c.text, l.eol⟩ (b.reached kept lost)) := by
      rw [finalOf, List.foldl_cons, addLine_of_opens hraw hopens hcontinue]
      rfl
    rw [clear_iff_reached hcontinue, hadd, Building.blocks, ← final_reached hcontinue]
    -- What takes the line up can never give it back: the leaf it went into is among what the document ends with.
    rcases exists_addOpening hholds ⟨c.text, l.eol⟩ with
      ⟨E, fs, L, hline, hfinal, hfs, hL, hspares⟩ | ⟨E, fs, align, row, rows, hline, hfinal, hspares⟩
    · rw [hline, hfinal, ← hfs, hspares]
      constructor
      · intro heq
        obtain ⟨es, hes, hinto⟩ := comes_finalOf gfm ls ⟨E, fs, .paragraph (⟨c.text, l.eol⟩ :: L)⟩
        by_contra hnot
        -- At the top a paragraph of definitions alone would do no harm; inside a container nothing may be added.
        by_cases htop : fs = []
        · have hrest : (ofParagraph L).2 ≠ [] := fun hrest => hnot ⟨htop, hrest⟩
          subst htop
          generalize finalOf gfm ls ⟨E, [], .paragraph (⟨c.text, l.eol⟩ :: L)⟩ = F at heq hinto
          cases hinto with
          | top X => exact differs_paragraph hinked hL hes hdefining (.inr hrest) X E heq
        · exact differs_into_frame (differs_paragraph hinked hL hes (by simp [Defining]) (.inl rfl)) htop
            hinto _ heq
      · rintro ⟨rfl, hcomplete⟩
        have hkept : kept = [] := by
          have hclear := (clear_iff_reached hcontinue).2 ⟨hfs.1 rfl, hspares.2 hcomplete⟩
          rw [Building.Clear, hcontinue] at hclear
          exact hclear.1
        subst hkept
        -- No container took anything off the line.
        have hwhole : (⟨c.text, l.eol⟩ : Line) = l := by
          rw [eq_start_of_kept_nil hcontinue]
          rfl
        rw [hwhole]
        exact blocks_behind_definitions hblanks hfirst halone hcomplete hL E
    · refine iff_of_false (fun heq => ?_) fun h => hspares h.2
      rw [hline, hfinal] at heq
      obtain ⟨es, hes, hinto⟩ := comes_finalOf gfm ls ⟨E, fs, .table align (row :: rows)⟩
      exact differs_into (differs_table hes) hinto _ heq

end Declared

end Block

/-! Two texts as one document. -/

/-- The blocks of a source. -/
def sourceBlocks (gfm : Bool) (source : String) : List Block :=
  Block.ofLines gfm (splitLines [] (readable source.toList))

/-- How running text is read in a document of some blocks. -/
def settingOf (options : Options) (blocks : List Block) : Inline.Setting :=
  ⟨options.gfm, false, fun label => (labelsOf blocks).contains (normalizeLabel label)⟩

theorem tokenize_eq (source : String) (options : Options) : tokenize source options =
    nodesOf (settingOf options (sourceBlocks options.gfm source)) (sourceBlocks options.gfm source) := rfl

theorem nodesOf_eq_map (setting : Inline.Setting) (bs : List Block) :
    nodesOf setting bs = bs.map (Block.node setting) := by
  induction bs with
  | nil => rfl
  | cons b bs ih => rw [nodesOf, ih, List.map_cons]

/-- Does the node define a link? -/
def Node.defines : Node → Bool
  | .definition .. => true
  | _ => false

theorem exists_definition_of_defines {setting : Inline.Setting} {block : Block}
    (h : (block.node setting).defines = true) : ∃ d, block = .definition d := by
  cases block with
  | definition d => exact ⟨d, rfl⟩
  | _ => simp [Block.node, Node.defines] at h

/-- A source whose nodes are definitions holds nothing but definitions. -/
theorem exists_definitions {source : String} {options : Options}
    (h : (tokenize source options).all Node.defines = true) :
    ∃ ds : List Definition, sourceBlocks options.gfm source = ds.map .definition ∧
      tokenize source options = ds.map definitionNode := by
  rw [tokenize_eq, nodesOf_eq_map, List.all_eq_true] at h
  have hblocks : ∀ block ∈ sourceBlocks options.gfm source, ∃ d, block = Block.definition d :=
    fun block hblock => exists_definition_of_defines (h _ (List.mem_map_of_mem hblock))
  obtain ⟨ds, hds⟩ : ∃ ds : List Definition, sourceBlocks options.gfm source = ds.map .definition := by
    generalize sourceBlocks options.gfm source = bs at hblocks
    induction bs with
    | nil => exact ⟨[], rfl⟩
    | cons b bs ih =>
      obtain ⟨d, rfl⟩ := hblocks b List.mem_cons_self
      obtain ⟨ds, rfl⟩ := ih fun block hblock => hblocks block (List.mem_cons_of_mem _ hblock)
      exact ⟨d :: ds, rfl⟩
  refine ⟨ds, hds, ?_⟩
  rw [tokenize_eq, hds, nodesOf_eq_map, List.map_map]
  exact List.map_congr_left fun d _ => by simp [Block.node]

theorem readable_append {cs more : List Char} (hmore : more.head? ≠ some '\uFEFF') :
    readable (cs ++ more) = readable cs ++ more := by
  cases cs with
  | nil => exact if_neg (by simpa using hmore)
  | cons c cs =>
    unfold readable
    rw [List.cons_append, List.head?_cons, List.head?_cons]
    split <;> rfl

theorem sourceBlocks_append_iff {gfm : Bool} {body extra : String} {gap d : List Char} {l : Line}
    {ds : List Definition} (hfirst : FirstLine extra.toList gap d l)
    (hmark : extra.toList.head? ≠ some '\uFEFF')
    (hmeet : readable body.toList = [] ∨ EndsLine (readable body.toList) ∨ BeginsEnded extra.toList)
    (hraw : (Block.build gfm (readable body.toList)).leaf.isRaw = false)
    (halone : sourceBlocks gfm extra = ds.map .definition) :
    sourceBlocks gfm (body ++ extra) = sourceBlocks gfm body ++ ds.map .definition ↔
      (Block.build gfm (readable body.toList ++ gap)).Clear l := by
  obtain ⟨ls, hls⟩ := hfirst.exists_lines
  have hbegins : BeginsEnded extra.toList → BeginsEnded gap := by
    rintro ⟨c, hc, heol⟩
    rw [hfirst.cut] at hc
    cases gap with
    | nil =>
      rw [hfirst.head_ne c hc] at heol
      cases heol
    | cons c' gap => exact ⟨c, hc, heol⟩
  have hmeet' : readable body.toList = [] ∨ EndsLine (readable body.toList) ∨ gap = [] ∨ BeginsEnded gap :=
    hmeet.imp_right fun h => h.imp_right fun h => .inr (hbegins h)
  -- The first line of `extra` that is not blank begins a line of the whole as well.
  have hended : readable body.toList ++ gap = [] ∨ EndsLine (readable body.toList ++ gap) := by
    rcases hfirst.ends with hgap | hgap
    · rw [hgap, List.append_nil]
      refine hmeet.imp_right fun h => h.resolve_right fun h => ?_
      obtain ⟨c, hc, -⟩ := hbegins h
      rw [hgap] at hc
      cases hc
    · exact .inr (hgap.of_suffix (List.suffix_append _ _))
  obtain ⟨hblocks, hraw'⟩ := Block.blocks_build_append hfirst.blank hmeet' hraw
  have hsource : sourceBlocks gfm body = (Block.build gfm (readable body.toList)).blocks := by
    rw [sourceBlocks, Block.ofLines_eq]
    exact congrArg Block.Building.blocks (Block.finishLeaf_of_not_isRaw hraw)
  have hjoint : sourceBlocks gfm (body ++ extra) = (Block.gather
      (Block.finalOf gfm (l :: ls) (Block.build gfm (readable body.toList ++ gap)))).blocks := by
    rw [sourceBlocks, String.toList_append, readable_append hmark, hfirst.cut, ← List.append_assoc,
      hfirst.cut_lines hended, hls, Block.ofLines_eq, List.foldl_append]
    rfl
  have hdeclared : Block.ofLines gfm (splitLines [] gap ++ l :: ls) = ds.map .definition := by
    rw [← hls, ← hfirst.cut_lines hfirst.ends, ← hfirst.cut, ← halone, sourceBlocks]
    have hextra : readable extra.toList = extra.toList := @readable_append [] _ hmark
    rw [hextra]
  rw [hjoint, hsource, ← hblocks]
  exact Block.blocks_finalOf_iff hraw' (Block.proper_of_build hended)
    (text_of_gap (by simp) hfirst.blank) hfirst.inked hdeclared

/-- Behind a source that does not end in raw text, and with a line end between the two, a text of link
definitions comes to its definitions, and the source to its blocks, just when what is open at the end of the
source does not take up the first definition. The running text of the source is then read under the
definitions of both. -/
theorem tokenize_append_iff (options : Options) {body extra : String} {gap d : List Char} {l : Line}
    (hfirst : FirstLine extra.toList gap d l) (hmark : extra.toList.head? ≠ some '\uFEFF')
    (hmeet : readable body.toList = [] ∨ EndsLine (readable body.toList) ∨ BeginsEnded extra.toList)
    (hraw : (Block.build options.gfm (readable body.toList)).leaf.isRaw = false)
    (halone : (tokenize extra options).all Node.defines = true) :
    let blocks := sourceBlocks options.gfm
    (blocks (body ++ extra) = blocks body ++ blocks extra ↔
        (Block.build options.gfm (readable body.toList ++ gap)).Clear l) ∧
      ((Block.build options.gfm (readable body.toList ++ gap)).Clear l →
        tokenize (body ++ extra) options =
          nodesOf (settingOf options (blocks body ++ blocks extra)) (blocks body) ++
            tokenize extra options) := by
  obtain ⟨ds, hblocks, hnodes⟩ := exists_definitions halone
  have hiff := sourceBlocks_append_iff hfirst hmark hmeet hraw hblocks
  dsimp only
  rw [hblocks, hnodes]
  refine ⟨hiff, fun hclear => ?_⟩
  rw [tokenize_eq, hiff.2 hclear, nodesOf_eq_map, nodesOf_eq_map, List.map_append, List.map_map]
  exact congrArg _ (List.map_congr_left fun d _ => by simp [Block.node])

/-- An open paragraph takes up a definition, and a blank line parts them. -/
theorem tokenize_append_iff_logo :
    sourceBlocks true ("See it\n" ++ "[logo]: ./logo.png\n") ≠
        sourceBlocks true "See it\n" ++ sourceBlocks true "[logo]: ./logo.png\n" ∧
      sourceBlocks true ("See it\n" ++ "\n[logo]: ./logo.png\n") =
        sourceBlocks true "See it\n" ++ sourceBlocks true "\n[logo]: ./logo.png\n" := by
  let line : Line := ⟨"[logo]: ./logo.png".toList, ['\n']⟩
  have hfirst : FirstLine "[logo]: ./logo.png\n".toList [] "[logo]: ./logo.png\n".toList line :=
    ⟨rfl, by simp, .inl rfl, by decide +kernel, by decide +kernel⟩
  have hfirst' : FirstLine "\n[logo]: ./logo.png\n".toList ['\n'] "[logo]: ./logo.png\n".toList line :=
    ⟨by decide +kernel, by simp [isEol], .inr ⟨'\n', rfl, rfl⟩, by decide +kernel, by decide +kernel⟩
  have hends : EndsLine (readable "See it\n".toList) := ⟨'\n', by decide +kernel, rfl⟩
  have hraw : (Block.build true (readable "See it\n".toList)).leaf.isRaw = false := by decide +kernel
  obtain ⟨htaken, -⟩ := tokenize_append_iff {} hfirst (by decide +kernel) (.inr (.inl hends)) hraw
    (by decide +kernel)
  obtain ⟨hparted, -⟩ := tokenize_append_iff {} hfirst' (by decide +kernel) (.inr (.inl hends)) hraw
    (by decide +kernel)
  exact ⟨fun heq => absurd (htaken.1 heq) (by decide +kernel), hparted.2 (by decide +kernel)⟩

end Bindery.Markdown
