import Bindery.Proofs.Markdown.Closing

/-! Texts cut into lines. Lines are cut apart where a text ends a line, and what ends the last line of a
text does not matter to its blocks, raw ones apart. -/

namespace Bindery.Markdown

/-! What ends the last line. -/

namespace Block

/-- Two leaves whose latest lines may differ in how they end. -/
inductive Leaf.Ended : Leaf → Leaf → Prop
  | same (leaf : Leaf) : Ended leaf leaf
  | paragraph (text eol eol' : List Char) (lines : List Line) :
      Ended (.paragraph (⟨text, eol⟩ :: lines)) (.paragraph (⟨text, eol'⟩ :: lines))
  | indented (text eol eol' : List Char) (lines : List Line) :
      Ended (.indented (⟨text, eol⟩ :: lines)) (.indented (⟨text, eol'⟩ :: lines))
  | raw {leaf leaf' : Leaf} (h : leaf.isRaw = true) (h' : leaf'.isRaw = true) : Ended leaf leaf'

/-- Two documents whose latest lines may differ in how they end. -/
structure Building.Ended (b b' : Building) : Prop where
  entries : b'.entries = b.entries
  frames : b'.frames = b.frames
  leaf : Leaf.Ended b.leaf b'.leaf

theorem Building.Ended.refl (b : Building) : Ended b b := ⟨rfl, rfl, .same _⟩

theorem joinLines_concat_eol (ls : List Line) (text eol eol' : List Char) :
    joinLines (ls ++ [⟨text, eol⟩]) = joinLines (ls ++ [⟨text, eol'⟩]) := by
  induction ls with
  | nil => rfl
  | cons l ls ih =>
    cases ls with
    | nil => rfl
    | cons l' ls => exact congrArg (fun cs => l.text ++ l.eol ++ cs) ih

theorem joinLines_eol (ls : List Line) (text eol eol' : List Char) :
    joinLines ((⟨text, eol⟩ :: ls).reverse) = joinLines ((⟨text, eol'⟩ :: ls).reverse) := by
  rw [List.reverse_cons, List.reverse_cons]
  exact joinLines_concat_eol _ _ _ _

theorem Leaf.Ended.close {leaf leaf' : Leaf} (h : Leaf.Ended leaf leaf') (hraw : leaf.isRaw = false) :
    leaf'.close = leaf.close := by
  cases h with
  | same => rfl
  | paragraph text eol eol' lines =>
    rw [Leaf.close, Leaf.close, ofParagraph, ofParagraph, joinLines_eol lines text eol' eol]
    rfl
  | indented text eol eol' lines =>
    simp only [Leaf.close, List.takeWhile_cons]
    split
    · simp
    · simp [joinLines_concat_eol _ text eol' eol]
  | raw h h' => cases h.symm.trans hraw

theorem Building.Ended.blocks {b b' : Building} (h : Ended b b') (hraw : b.leaf.isRaw = false) :
    b'.blocks = b.blocks := by
  unfold Building.blocks Building.final
  rw [h.entries, h.frames, h.leaf.close hraw]

theorem Building.Ended.isRaw {b b' : Building} (h : Ended b b') : b'.leaf.isRaw = b.leaf.isRaw := by
  cases b
  cases b'
  cases h.leaf with
  | same => rfl
  | paragraph => rfl
  | indented => rfl
  | raw h h' => exact h'.trans h.symm

theorem addText_ended (text eol eol' : List Char) (b : Building) :
    Building.Ended (addText ⟨text, eol⟩ b) (addText ⟨text, eol'⟩ b) := by
  unfold addText
  split
  · exact ⟨rfl, rfl, .paragraph _ _ _ _⟩
  · exact ⟨rfl, rfl, .paragraph _ _ _ _⟩

theorem addUnderline_ended (depth : Nat) (text eol eol' : List Char) (b : Building) :
    Building.Ended (addUnderline depth ⟨text, eol⟩ b) (addUnderline depth ⟨text, eol'⟩ b) := by
  unfold addUnderline
  split
  · dsimp only
    split
    · exact ⟨rfl, rfl, .paragraph _ _ _ _⟩
    · exact .refl _
  · exact ⟨rfl, rfl, .paragraph _ _ _ _⟩

theorem starts_ended (inParagraph : Bool) (c : Cursor) (text eol eol' : List Char) (b : Building) :
    Option.Rel Building.Ended (starts inParagraph c ⟨text, eol⟩ b)
      (starts inParagraph c ⟨text, eol'⟩ b) := by
  have hsame (found : Option Building) : Option.Rel Building.Ended found found := by
    cases found with
    | none => exact .none
    | some b => exact .some (.refl b)
  unfold starts
  split
  · exact .none
  · split
    · exact .some (.refl _)
    · split
      · split
        · exact .none
        · split
          · exact .some (.refl _)
          · exact .some ⟨rfl, rfl, .raw rfl rfl⟩
      · exact hsame _

theorem addFlow_ended (gfm interrupting : Bool) (c : Cursor) (eol eol' : List Char) (b : Building) :
    Building.Ended (addFlow gfm interrupting c eol b) (addFlow gfm interrupting c eol' b) := by
  unfold addFlow
  dsimp only
  split
  · split
    · exact ⟨rfl, rfl, .indented _ _ _ _⟩
    · exact .refl _
  · split
    · split
      · exact ⟨rfl, rfl, .indented _ _ _ _⟩
      · exact ⟨rfl, rfl, .indented _ _ _ _⟩
    · have hstarts := starts_ended (interrupting || b.leaf.isParagraph) c c.text eol eol' b
      generalize starts (interrupting || b.leaf.isParagraph) c ⟨c.text, eol⟩ b = found at hstarts
      generalize starts (interrupting || b.leaf.isParagraph) c ⟨c.text, eol'⟩ b = found' at hstarts
      cases hstarts with
      | some h => exact h
      | none =>
        dsimp only
        split
        · exact addUnderline_ended _ _ _ _ _
        · split
          · exact .refl _
          · split
            · split
              · exact .refl _
              · exact addText_ended _ _ _ _
            · exact .refl _
            · exact addText_ended _ _ _ _

theorem addRaw_ended (c : Cursor) (eol eol' : List Char) (b : Building) :
    Building.Ended (addRaw c eol b) (addRaw c eol' b) := by
  unfold addRaw
  split
  · split
    · exact .refl _
    · exact ⟨rfl, rfl, .raw rfl rfl⟩
  · dsimp only
    split
    · exact .refl _
    · split
      · next kind lines hleaf _ _ =>
        have hclosed : (Leaf.html kind (⟨c.text, eol'⟩ :: lines)).close =
            (Leaf.html kind (⟨c.text, eol⟩ :: lines)).close := by
          rw [Leaf.close, Leaf.close, joinLines_eol lines c.text eol' eol]
        unfold Building.closeLeaf
        rw [hclosed]
        exact .refl _
      · exact ⟨rfl, rfl, .raw rfl rfl⟩
  · exact .refl _

theorem isLazyLine_eol (c : Cursor) (eol eol' : List Char) (b : Building) :
    isLazyLine c eol' b = isLazyLine c eol b := by
  have hstarts := starts_ended false c c.text eol eol' b
  have hnone : (starts false c ⟨c.text, eol'⟩ b).isNone = (starts false c ⟨c.text, eol⟩ b).isNone := by
    generalize starts false c ⟨c.text, eol⟩ b = found at hstarts ⊢
    generalize starts false c ⟨c.text, eol'⟩ b = found' at hstarts ⊢
    cases hstarts <;> rfl
  rw [isLazyLine, isLazyLine, hnone]

theorem addLine_ended (gfm : Bool) (b : Building) (text eol eol' : List Char) :
    Building.Ended (addLine gfm b ⟨text, eol⟩) (addLine gfm b ⟨text, eol'⟩) := by
  unfold addLine
  dsimp only
  split
  · exact addRaw_ended _ _ _ _
  · split
    · split
      · exact .refl _
      · exact addFlow_ended _ _ _ _ _ _
    · split
      · exact addFlow_ended _ _ _ _ _ _
      · rw [isLazyLine_eol _ eol eol']
        split
        · exact addText_ended _ _ _ _
        · exact addFlow_ended _ _ _ _ _ _

end Block

/-! Lines of a text that goes on. -/

/-- The text ends a line. -/
def EndsLine (cs : List Char) : Prop := ∃ c ∈ cs.getLast?, isEol c = true

/-- The text begins with the end of a line. -/
def BeginsEnded (cs : List Char) : Prop := ∃ c ∈ cs.head?, isEol c = true

theorem endsLine_cons {c : Char} {cs : List Char} (h : cs ≠ []) : EndsLine (c :: cs) ↔ EndsLine cs := by
  obtain ⟨d, ds, rfl⟩ := List.exists_cons_of_ne_nil h
  rw [EndsLine, List.getLast?_cons_cons]
  rfl

theorem isEol_iff {c : Char} : isEol c = true ↔ c = '\n' ∨ c = '\r' := by
  rw [isEol, Bool.or_eq_true, beq_iff_eq, beq_iff_eq]

theorem splitLines_return {cs : List Char} (h : ∀ more, cs ≠ '\n' :: more) (line : List Char) :
    splitLines line ('\r' :: cs) = ⟨line.reverse, ['\r']⟩ :: splitLines [] cs := by
  rw [splitLines]
  exact fun more heq => h more heq

theorem exists_splitLines_of_isEol {c : Char} (h : isEol c = true) (line cs : List Char) :
    ∃ eol more, more <:+ cs ∧ splitLines line (c :: cs) = ⟨line.reverse, eol⟩ :: splitLines [] more := by
  rcases isEol_iff.1 h with rfl | rfl
  · exact ⟨['\n'], cs, List.suffix_rfl, rfl⟩
  · by_cases hfeed : ∃ more, cs = '\n' :: more
    · obtain ⟨more, rfl⟩ := hfeed
      exact ⟨['\r', '\n'], more, List.suffix_cons _ _, rfl⟩
    · exact ⟨['\r'], cs, List.suffix_rfl, splitLines_return (fun more heq => hfeed ⟨more, heq⟩) line⟩

theorem splitLines_of_not_isEol {c : Char} (h : isEol c = false) (line cs : List Char) :
    splitLines line (c :: cs) = splitLines (c :: line) cs := by
  have hreturn : c ≠ '\r' := by
    rintro rfl
    cases h
  have hfeed : c ≠ '\n' := by
    rintro rfl
    cases h
  rw [splitLines]
  · exact fun more hc _ => hreturn hc
  · exact hreturn
  · exact hfeed

/-- What is added where a line ends, or begins with a line end, leaves all lines but for how the last one
ends. Where a line ends nothing is left of this either, if it is not the feed after a return. -/
theorem splitLines_append {line s : List Char} (gap : List Char) (hne : line ≠ [] ∨ s ≠ [])
    (hmeet : EndsLine s ∨ gap = [] ∨ BeginsEnded gap) :
    ∃ ls text eol eol' gap', splitLines line s = ls ++ [⟨text, eol⟩] ∧ gap' <:+ gap ∧
      splitLines line (s ++ gap) = ls ++ ⟨text, eol'⟩ :: splitLines [] gap' ∧
      (EndsLine s → gap.head? ≠ some '\n' → eol' = eol ∧ gap' = gap) := by
  fun_induction splitLines line s with
  | case1 line hline => exact absurd (List.isEmpty_iff.1 hline) (hne.resolve_right (· rfl))
  | case2 line hline =>
    have hopen : ¬ EndsLine [] := by
      rintro ⟨d, hd, -⟩
      cases hd
    refine ⟨[], line.reverse, [], ?_⟩
    cases gap with
    | nil =>
      refine ⟨[], [], rfl, List.suffix_rfl, ?_, fun h => absurd h hopen⟩
      rw [List.append_nil, splitLines, if_neg hline]
      rfl
    | cons c gap =>
      have hc : isEol c = true := by
        rcases hmeet.resolve_left hopen with hnil | ⟨d, hd, heol⟩
        · cases hnil
        · cases hd
          exact heol
      obtain ⟨eol, more, hmore, hcut⟩ := exists_splitLines_of_isEol hc line gap
      exact ⟨eol, more, rfl, hmore.trans (List.suffix_cons _ _), hcut, fun h => absurd h hopen⟩
  | case3 line cs ih =>
    by_cases hcs : cs = []
    · subst hcs
      exact ⟨[], line.reverse, ['\r', '\n'], ['\r', '\n'], gap, rfl, List.suffix_rfl, rfl,
        fun _ _ => ⟨rfl, rfl⟩⟩
    · rw [endsLine_cons (List.cons_ne_nil _ _), endsLine_cons hcs] at hmeet ⊢
      obtain ⟨ls, text, eol, eol', gap', hlines, hgap, hmore, hclean⟩ := ih (.inr hcs) hmeet
      refine ⟨⟨line.reverse, ['\r', '\n']⟩ :: ls, text, eol, eol', gap', ?_, hgap, ?_, hclean⟩
      · exact congrArg (⟨line.reverse, ['\r', '\n']⟩ :: ·) hlines
      · exact congrArg (⟨line.reverse, ['\r', '\n']⟩ :: ·) hmore
  | case4 line cs hcr ih =>
    by_cases hcs : cs = []
    · subst hcs
      refine ⟨[], line.reverse, ['\r'], ?_⟩
      by_cases hfeed : ∃ more, gap = '\n' :: more
      · obtain ⟨more, rfl⟩ := hfeed
        exact ⟨['\r', '\n'], more, rfl, List.suffix_cons _ _, rfl, fun _ h => absurd rfl h⟩
      · exact ⟨['\r'], gap, rfl, List.suffix_rfl,
          splitLines_return (fun more heq => hfeed ⟨more, heq⟩) line, fun _ _ => ⟨rfl, rfl⟩⟩
    · rw [endsLine_cons hcs] at hmeet ⊢
      obtain ⟨ls, text, eol, eol', gap', hlines, hgap, hmore, hclean⟩ := ih (.inr hcs) hmeet
      refine ⟨⟨line.reverse, ['\r']⟩ :: ls, text, eol, eol', gap', ?_, hgap, ?_, hclean⟩
      · exact congrArg (⟨line.reverse, ['\r']⟩ :: ·) hlines
      · have hfeed : ∀ more, cs ++ gap ≠ '\n' :: more := by
          obtain ⟨d, ds, rfl⟩ := List.exists_cons_of_ne_nil hcs
          rintro more heq
          cases heq
          exact hcr ds rfl
        rw [List.cons_append, splitLines_return hfeed, hmore]
        rfl
  | case5 line cs ih =>
    by_cases hcs : cs = []
    · subst hcs
      exact ⟨[], line.reverse, ['\n'], ['\n'], gap, rfl, List.suffix_rfl, rfl, fun _ _ => ⟨rfl, rfl⟩⟩
    · rw [endsLine_cons hcs] at hmeet ⊢
      obtain ⟨ls, text, eol, eol', gap', hlines, hgap, hmore, hclean⟩ := ih (.inr hcs) hmeet
      refine ⟨⟨line.reverse, ['\n']⟩ :: ls, text, eol, eol', gap', ?_, hgap, ?_, hclean⟩
      · exact congrArg (⟨line.reverse, ['\n']⟩ :: ·) hlines
      · exact congrArg (⟨line.reverse, ['\n']⟩ :: ·) hmore
  | case6 line c cs hboth hcr hfeed ih =>
    have hends : EndsLine (c :: cs) ↔ EndsLine cs := by
      by_cases hcs : cs = []
      · subst hcs
        refine iff_of_false ?_ ?_
        · rintro ⟨d, hd, heol⟩
          cases hd
          rw [isEol_iff] at heol
          exact heol.elim hfeed hcr
        · rintro ⟨d, hd, -⟩
          cases hd
      · exact endsLine_cons hcs
    rw [hends] at hmeet ⊢
    obtain ⟨ls, text, eol, eol', gap', hlines, hgap, hmore, hclean⟩ :=
      ih (.inl (List.cons_ne_nil _ _)) hmeet
    refine ⟨ls, text, eol, eol', gap', hlines, hgap, ?_, hclean⟩
    rw [List.cons_append, splitLines, hmore]
    · exact fun more h _ => hcr h
    · exact hcr
    · exact hfeed

/-- Lines are cut apart where a text ends a line. -/
theorem splitLines_cut {s more : List Char} (hs : s = [] ∨ EndsLine s) (hmore : more.head? ≠ some '\n') :
    splitLines [] (s ++ more) = splitLines [] s ++ splitLines [] more := by
  by_cases hnil : s = []
  · rw [hnil]
    rfl
  · have hends := hs.resolve_left hnil
    obtain ⟨ls, text, eol, eol', gap', hlines, -, hcut, hclean⟩ :=
      @splitLines_append [] s more (.inr hnil) (.inl hends)
    obtain ⟨rfl, rfl⟩ := hclean hends hmore
    rw [hcut, hlines, List.append_assoc]
    rfl

/-- The lines of a text without anything but blanks and line ends are blank. -/
theorem text_of_gap {line cs : List Char} (hline : ∀ c ∈ line, isSpaceOrTab c = true)
    (hcs : ∀ c ∈ cs, isSpaceOrTab c = true ∨ isEol c = true) :
    ∀ l ∈ splitLines line cs, l.text.all isSpaceOrTab = true := by
  have hreverse {line : List Char} (h : ∀ c ∈ line, isSpaceOrTab c = true) :
      line.reverse.all isSpaceOrTab = true :=
    List.all_eq_true.2 fun c hc => h c (List.mem_reverse.1 hc)
  fun_induction splitLines line cs with
  | case1 => simp
  | case2 line =>
    intro l hl
    cases List.mem_singleton.1 hl
    exact hreverse hline
  | case3 line cs ih =>
    intro l hl
    rcases List.mem_cons.1 hl with rfl | hl
    · exact hreverse hline
    · exact ih (by simp) (fun c hc => hcs c (by simp [hc])) l hl
  | case4 line cs hcr ih =>
    intro l hl
    rcases List.mem_cons.1 hl with rfl | hl
    · exact hreverse hline
    · exact ih (by simp) (fun c hc => hcs c (by simp [hc])) l hl
  | case5 line cs ih =>
    intro l hl
    rcases List.mem_cons.1 hl with rfl | hl
    · exact hreverse hline
    · exact ih (by simp) (fun c hc => hcs c (by simp [hc])) l hl
  | case6 line c cs hboth hcr hfeed ih =>
    have hc : isSpaceOrTab c = true := by
      refine (hcs c List.mem_cons_self).resolve_right fun heol => ?_
      rw [isEol_iff] at heol
      exact heol.elim hfeed hcr
    refine ih (fun d hd => ?_) fun d hd => hcs d (List.mem_cons_of_mem _ hd)
    rcases List.mem_cons.1 hd with rfl | hd
    · exact hc
    · exact hline d hd

/-! Blank lines behind a text. -/

namespace Block

/-- A text's document under construction. -/
def build (gfm : Bool) (cs : List Char) : Building :=
  (splitLines [] cs).foldl (addLine gfm) Building.empty

theorem foldl_blanks_of_not_isRaw (gfm : Bool) {ls : List Line} {b : Building}
    (hls : ∀ l ∈ ls, l.text.all isSpaceOrTab = true) (hraw : b.leaf.isRaw = false) :
    (ls.foldl (addLine gfm) b).blocks = b.blocks ∧ (ls.foldl (addLine gfm) b).leaf.isRaw = false := by
  induction ls generalizing b with
  | nil => exact ⟨rfl, hraw⟩
  | cons l ls ih =>
    obtain ⟨hblocks, hleaf⟩ := addLine_of_isBlank gfm hraw (hls l List.mem_cons_self)
    have hraw' : (addLine gfm b l).leaf.isRaw = false := by
      rcases hleaf with hleaf | ⟨lines, hleaf⟩ <;> rw [hleaf] <;> rfl
    obtain ⟨hrest, hend⟩ := ih (fun l hl => hls l (List.mem_cons_of_mem _ hl)) hraw'
    exact ⟨hrest.trans hblocks, hend⟩

/-- Blanks and line ends behind a text leave its blocks as they are when no raw leaf is open. -/
theorem blocks_build_append {gfm : Bool} {s gap : List Char}
    (hgap : ∀ c ∈ gap, isSpaceOrTab c = true ∨ isEol c = true)
    (hmeet : s = [] ∨ EndsLine s ∨ gap = [] ∨ BeginsEnded gap) (hraw : (build gfm s).leaf.isRaw = false) :
    (build gfm (s ++ gap)).blocks = (build gfm s).blocks ∧
      (build gfm (s ++ gap)).leaf.isRaw = false := by
  by_cases hs : s = []
  · subst hs
    exact foldl_blanks_of_not_isRaw gfm (text_of_gap (by simp) hgap) rfl
  · obtain ⟨ls, text, eol, eol', gap', hlines, hsuffix, hmore, -⟩ :=
      @splitLines_append [] s gap (.inr hs) (hmeet.resolve_left hs)
    have hended := addLine_ended gfm (ls.foldl (addLine gfm) Building.empty) text eol eol'
    have hbuild : build gfm s = addLine gfm (ls.foldl (addLine gfm) Building.empty) ⟨text, eol⟩ := by
      rw [build, hlines, List.foldl_append]
      rfl
    have hbuild' : build gfm (s ++ gap) = (splitLines [] gap').foldl (addLine gfm)
        (addLine gfm (ls.foldl (addLine gfm) Building.empty) ⟨text, eol'⟩) := by
      rw [build, hmore, List.foldl_append]
      rfl
    rw [hbuild] at hraw ⊢
    rw [hbuild']
    have hblank : ∀ l ∈ splitLines [] gap', l.text.all isSpaceOrTab = true :=
      text_of_gap (by simp) fun c hc => hgap c (hsuffix.subset hc)
    obtain ⟨hblocks, hend⟩ := foldl_blanks_of_not_isRaw gfm hblank (hended.isRaw.trans hraw)
    exact ⟨hblocks.trans (hended.blocks hraw), hend⟩

end Block

end Bindery.Markdown
