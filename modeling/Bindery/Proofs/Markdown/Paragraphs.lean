import Bindery.Proofs.Markdown.Moves

/-! The lines of an open paragraph, and what it comes to when further lines follow. Lines keep their texts
apart, so a paragraph of nothing but definitions comes to them and to what the further lines come to. -/

namespace Bindery.Markdown

/-- A line that is not blank. -/
structure Line.Inked (l : Line) : Prop where
  text : l.text.all isSpaceOrTab = false
  inner : ∀ c ∈ l.text, isEol c = false

/-- A line of a paragraph in a text in which every line is ended. -/
structure Line.Proper (l : Line) : Prop extends l.Inked where
  eol : IsLineEnd l.eol

theorem isLineEnd_of_splitLines {line cs : List Char} (hline : cs = [] → line = [])
    (hcs : cs ≠ [] → EndsLine cs) : ∀ l ∈ splitLines line cs, IsLineEnd l.eol := by
  have hafter {c : Char} {cs : List Char} (h : EndsLine (c :: cs)) (hne : cs ≠ []) : EndsLine cs :=
    (endsLine_cons hne).1 h
  fun_induction splitLines line cs with
  | case1 => simp
  | case2 line hne =>
    rw [hline rfl] at hne
    exact absurd rfl hne
  | case3 line cs ih =>
    intro l hl
    rcases List.mem_cons.1 hl with rfl | hl
    · exact .inr (.inr rfl)
    · exact ih (fun _ => rfl)
        (fun hne => hafter (hafter (hcs (List.cons_ne_nil _ _)) (List.cons_ne_nil _ _)) hne) l hl
  | case4 line cs _ ih =>
    intro l hl
    rcases List.mem_cons.1 hl with rfl | hl
    · exact .inr (.inl rfl)
    · exact ih (fun _ => rfl) (hafter (hcs (List.cons_ne_nil _ _))) l hl
  | case5 line cs ih =>
    intro l hl
    rcases List.mem_cons.1 hl with rfl | hl
    · exact .inl rfl
    · exact ih (fun _ => rfl) (hafter (hcs (List.cons_ne_nil _ _))) l hl
  | case6 line c cs _ hreturn hfeed ih =>
    refine ih ?_ (hafter (hcs (List.cons_ne_nil _ _)))
    rintro rfl
    obtain ⟨d, hd, heol⟩ := hcs (List.cons_ne_nil _ _)
    cases hd
    rw [isEol_iff] at heol
    exact heol.elim (fun h => absurd h hfeed) fun h => absurd h hreturn

theorem inner_of_splitLines {line cs : List Char} (hline : ∀ c ∈ line, isEol c = false) :
    ∀ l ∈ splitLines line cs, ∀ c ∈ l.text, isEol c = false := by
  have hreverse {line : List Char} (h : ∀ c ∈ line, isEol c = false) : ∀ c ∈ line.reverse, isEol c = false :=
    fun c hc => h c (List.mem_reverse.1 hc)
  fun_induction splitLines line cs with
  | case1 => simp
  | case2 line =>
    intro l hl
    cases List.mem_singleton.1 hl
    exact hreverse hline
  | case3 line cs ih =>
    intro l hl
    rcases List.mem_cons.1 hl with rfl | hl
    · exact hreverse hline
    · exact ih (by simp) l hl
  | case4 line cs _ ih =>
    intro l hl
    rcases List.mem_cons.1 hl with rfl | hl
    · exact hreverse hline
    · exact ih (by simp) l hl
  | case5 line cs ih =>
    intro l hl
    rcases List.mem_cons.1 hl with rfl | hl
    · exact hreverse hline
    · exact ih (by simp) l hl
  | case6 line c cs _ hreturn hfeed ih =>
    refine ih fun d hd => ?_
    rcases List.mem_cons.1 hd with rfl | hd
    · rw [Bool.eq_false_iff]
      intro heol
      rw [isEol_iff] at heol
      exact heol.elim hfeed hreturn
    · exact hline d hd

theorem joinLines_append (ls ms : List Line) (l : Line) (hms : ms ≠ []) :
    joinLines (ls ++ l :: ms) = joinLines (ls ++ [l]) ++ (l.eol ++ joinLines ms) := by
  induction ls with
  | nil =>
    obtain ⟨m, ms, rfl⟩ := List.exists_cons_of_ne_nil hms
    exact List.append_assoc _ _ _
  | cons k ls ih =>
    have hstep {rest : List Line} (hrest : rest ≠ []) :
        joinLines (k :: rest) = k.text ++ k.eol ++ joinLines rest := by
      obtain ⟨r, rest, rfl⟩ := List.exists_cons_of_ne_nil hrest
      rfl
    rw [List.cons_append, hstep (by simp), ih, List.cons_append, hstep (by simp), ← List.append_assoc]

theorem exists_joinLines_concat (ls : List Line) (l : Line) :
    ∃ front, joinLines (ls ++ [l]) = front ++ l.text := by
  induction ls with
  | nil => exact ⟨[], rfl⟩
  | cons k ls ih =>
    obtain ⟨front, hfront⟩ := ih
    refine ⟨k.text ++ k.eol ++ front, ?_⟩
    obtain ⟨m, ms, hms⟩ := List.exists_cons_of_ne_nil (List.concat_ne_nil l ls)
    rw [List.append_assoc, ← hfront, List.cons_append, hms]
    rfl

theorem exists_joinLines_cons (l : Line) (ls : List Line) : ∃ more, joinLines (l :: ls) = l.text ++ more := by
  cases ls with
  | nil => exact ⟨[], (List.append_nil _).symm⟩
  | cons l' ls => exact ⟨_, List.append_assoc _ _ _⟩

namespace Line.Inked

variable {l : Line}

theorem text_ne_nil (h : l.Inked) : l.text ≠ [] := by
  intro hnil
  have htext := h.text
  rw [hnil] at htext
  cases htext

theorem joinLines_ne_nil (h : l.Inked) {ls : List Line} (hl : l ∈ ls) : joinLines ls ≠ [] := by
  obtain ⟨front, back, rfl⟩ := List.append_of_mem hl
  induction front with
  | nil =>
    obtain ⟨more, hmore⟩ := exists_joinLines_cons l back
    rw [List.nil_append, hmore]
    exact fun hnil => h.text_ne_nil (List.append_eq_nil_iff.1 hnil).1
  | cons k front ih =>
    obtain ⟨m, ms, hms⟩ := List.exists_cons_of_ne_nil (List.append_ne_nil_of_right_ne_nil front
      (List.cons_ne_nil l back))
    rw [hms] at ih
    rw [List.cons_append, hms]
    exact fun hnil => ih (by rw [← hms]; simp) (List.append_eq_nil_iff.1 hnil).2

/-- A text that begins with the line begins with no line end. -/
theorem head_joinLines (h : l.Inked) (ls : List Line) : (joinLines (l :: ls)).head? ≠ some '\n' := by
  obtain ⟨more, hmore⟩ := exists_joinLines_cons l ls
  obtain ⟨c, cs, hl⟩ := List.exists_cons_of_ne_nil h.text_ne_nil
  rw [hmore, hl]
  intro heq
  have hc := h.inner c (hl ▸ List.mem_cons_self)
  rw [Option.some.inj heq] at hc
  cases hc

/-- A text that the line is the last one of ends with its text. -/
theorem not_endsLine (h : l.Inked) (ls : List Line) : ¬ EndsLine (joinLines (ls ++ [l])) := by
  obtain ⟨front, hfront⟩ := exists_joinLines_concat ls l
  rintro ⟨c, hc, heol⟩
  rw [hfront, List.getLast?_append_of_ne_nil _ h.text_ne_nil] at hc
  rw [h.inner c (List.mem_of_mem_getLast? hc)] at heol
  cases heol

end Line.Inked

namespace Block

variable {P : Line → Prop} {b b' : Building} {gfm : Bool}

def Leaf.Holds (P : Line → Prop) (leaf : Leaf) : Prop := ∀ lines, leaf = .paragraph lines → ∀ l ∈ lines, P l

theorem Move.holds (h : Move P b b') (hb : b.leaf.Holds P) : b'.leaf.Holds P := by
  have hnone : Leaf.none.Holds P := nofun
  cases h with
  | close => rwa [Building.leaf_closeLeaf]
  | push _ e =>
    have hleaf : (b.push e).leaf = b.leaf := Building.leaf_pushAll b [e]
    rwa [hleaf]
  | leave => rwa [Building.leaf_leave]
  | enter => exact hb
  | keep => exact hb
  | @start leaf _ hleaf =>
    rintro lines rfl l hl
    obtain ⟨l', rfl, hl'⟩ := hleaf
    cases List.mem_singleton.1 hl
    exact hl'
  | @grow leaf hgrow =>
    rintro lines rfl
    generalize hleaf : b.leaf = leaf at hgrow hb
    cases hgrow with
    | @paragraph l hl lines =>
      exact List.forall_mem_cons.2 ⟨hl, hb lines rfl⟩
  | underline => rwa [Building.leaf_pushAll]
  | head => exact nofun

theorem holds_of_moves (h : Moves P b b') (hb : b.leaf.Holds P) : b'.leaf.Holds P := by
  induction h with
  | refl => exact hb
  | tail _ hmove ih => exact hmove.holds ih

theorem moves_foldl {ls : List Line}
    (hP : ∀ l ∈ ls, ∀ c : Cursor, c.rest <:+ l.text → c.isBlank = false → P ⟨c.text, l.eol⟩) (b : Building) :
    Moves P b (ls.foldl (addLine gfm) b) := by
  induction ls generalizing b with
  | nil => exact .refl
  | cons l ls ih =>
    exact (moves_addLine gfm (hP l List.mem_cons_self) b).trans
      (ih (fun l hl => hP l (List.mem_cons_of_mem _ hl)) _)

theorem moves_finishLeaf (b : Building) : Moves P b (finishLeaf b) := by
  unfold finishLeaf
  split
  · next kind lines hleaf =>
    split
    · exact .refl
    · exact .single (.grow (hleaf ▸ .html kind _ lines))
  · exact .refl

theorem proper_of_line {cs : List Char} (hcs : cs = [] ∨ EndsLine cs) :
    ∀ l ∈ splitLines [] cs, ∀ c : Cursor, c.rest <:+ l.text → c.isBlank = false →
      Line.Proper ⟨c.text, l.eol⟩ := by
  intro l hl c hrest hblank
  refine ⟨⟨?_, ?_⟩, isLineEnd_of_splitLines (fun _ => rfl) (fun hne => hcs.resolve_left hne) l hl⟩
  · rw [Bool.eq_false_iff]
    intro hall
    rw [Cursor.text, List.all_append, Bool.and_eq_true] at hall
    exact absurd hall.2 (Bool.eq_false_iff.1 hblank)
  · intro d hd
    rcases List.mem_append.1 hd with hd | hd
    · rw [List.eq_of_mem_replicate hd]
      rfl
    · exact inner_of_splitLines (by simp) l hl d (hrest.subset hd)

theorem proper_of_build {cs : List Char} (hcs : cs = [] ∨ EndsLine cs) :
    (build gfm cs).leaf.Holds Line.Proper :=
  holds_of_moves (moves_foldl (proper_of_line hcs) Building.empty) nofun

/-! A paragraph of definitions that goes on. -/

theorem ofParagraph_append {L L' : List Line} (hL : (ofParagraph L).2 = []) (hne : joinLines L.reverse ≠ [])
    (hL' : (ofParagraph L').2 = []) (hproper : ∀ l ∈ L', l.Proper) :
    ofParagraph (L ++ L') = ((ofParagraph L').1 ++ (ofParagraph L).1, []) := by
  cases L' with
  | nil =>
    rw [List.append_nil]
    exact Prod.ext rfl hL
  | cons l L' =>
    have hl := hproper l List.mem_cons_self
    have hjoin : joinLines (L ++ l :: L').reverse =
        joinLines (l :: L').reverse ++ (l.eol ++ joinLines L.reverse) := by
      have hms : L.reverse ≠ [] := fun hnil => hne (by rw [hnil]; rfl)
      rw [List.reverse_append, List.reverse_cons, List.append_assoc, List.singleton_append]
      exact joinLines_append _ _ _ hms
    have hfront : joinLines (l :: L').reverse ≠ [] := hl.joinLines_ne_nil (by simp)
    have hopen : ¬ EndsLine (joinLines (l :: L').reverse) := by
      rw [List.reverse_cons]
      exact hl.not_endsLine _
    have hfound : ofParagraph L = ((ofParagraph L).1, []) := Prod.ext rfl hL
    have hfound' : ofParagraph (l :: L') = ((ofParagraph (l :: L')).1, []) := Prod.ext rfl hL'
    have hbracket : Bracketed (joinLines L.reverse) := (bracketed_of_definitions hfound hne).1
    have hcount : (ofParagraph (l :: L')).1.length ≤ (l :: L').length := length_definitions_le _ _
    obtain ⟨k, hk⟩ := Nat.exists_eq_add_of_le hcount
    have hsteps : (L ++ l :: L').length = (ofParagraph (l :: L')).1.length + (k + L.length) := by
      rw [List.length_append]
      omega
    rw [ofParagraph, hjoin, hsteps, definitions_append hl.eol hbracket hfound' hfront hopen,
      definitions_of_le hfound (Nat.le_add_left _ _)]

end Block
end Bindery.Markdown
