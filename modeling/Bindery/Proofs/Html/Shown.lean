import Bindery.Proofs.Html.Flow
import Bindery.Proofs.Html.Unescape

/-! What a text of markup shows: the text between its tags. Beside it, the elements that style a text
are counted where they are open; in markup that is nested as it should be, all of them are closed at
the end. -/

namespace Bindery.Html

open Attribute (writeAll Fit)

section Text

/-- The text between tags, read from inside a tag or from outside. -/
def betweenFrom : Bool → List Char → List Char
  | _, [] => []
  | true, c :: cs => betweenFrom (c ≠ '>') cs
  | false, c :: cs => if c = '<' then betweenFrom true cs else c :: betweenFrom false cs

/-- The text of markup as it is shown: without its tags, its escapes read back, and without the
blanks around it. -/
def shown (html : List Char) : List Char := Text.trim (decode readEscape (betweenFrom false html))

theorem betweenFrom_tag {inner : List Char} (h : '>' ∉ inner) (rest : List Char) :
    betweenFrom false ('<' :: (inner ++ '>' :: rest)) = betweenFrom false rest := by
  rw [betweenFrom, if_pos rfl]
  induction inner with
  | nil => rfl
  | cons c inner ih =>
    rw [List.mem_cons, not_or] at h
    rw [List.cons_append, betweenFrom, decide_eq_true (Ne.symm h.1), ih h.2]

theorem betweenFrom_text {u : List Char} (h : '<' ∉ u) (rest : List Char) :
    betweenFrom false (u ++ rest) = u ++ betweenFrom false rest := by
  induction u with
  | nil => rfl
  | cons c u ih =>
    rw [List.mem_cons, not_or] at h
    rw [List.cons_append, betweenFrom, if_neg (Ne.symm h.1), ih h.2, List.cons_append]

theorem betweenFrom_opening {e : Element} {attrs : List Attribute} (h : Fit attrs e.attributes)
    (rest : List Char) : betweenFrom false (e.opening attrs ++ rest) = betweenFrom false rest := by
  have hinner : '>' ∉ e.name ++ writeAll attrs := by
    rw [List.mem_append, not_or]
    exact ⟨e.not_mem_name, not_mem_writeAll h e.not_mem_attributes⟩
  rw [Element.opening, List.append_assoc]
  exact betweenFrom_tag hinner rest

theorem betweenFrom_closing (e : Element) (rest : List Char) :
    betweenFrom false (e.closing ++ rest) = betweenFrom false rest := by
  have hinner : '>' ∉ '/' :: e.name := by
    rw [List.mem_cons, not_or]
    exact ⟨by decide, e.not_mem_name⟩
  rw [Element.closing, List.append_assoc]
  exact betweenFrom_tag hinner rest

end Text

section Styles

/-- Whether the name of an element that styles text begins so: `em`, `strong`, `del` or `code`. No
other name does. -/
def isStyle (c : Char) : Bool := "esdc".toList.contains c

/-- Where in markup a reader is. -/
inductive Spot where
  | text
  /-- Behind the bracket of a tag. -/
  | opened
  /-- Behind the slash of a closing tag. -/
  | slashed
  | tag
  deriving DecidableEq

/-- How far a reader is: where it is and how many styles are open there. -/
structure Reading where
  spot : Spot
  styles : Int

namespace Reading

def step (r : Reading) (c : Char) : Reading :=
  match r.spot with
  | .text => if c = '<' then { r with spot := .opened } else r
  | .opened =>
    if c = '/' then { r with spot := .slashed }
    else ⟨.tag, if isStyle c then r.styles + 1 else r.styles⟩
  | .slashed => ⟨.tag, if isStyle c then r.styles - 1 else r.styles⟩
  | .tag => if c = '>' then { r with spot := .text } else r

def through (r : Reading) (cs : List Char) : Reading := cs.foldl step r

variable {u v : List Char} {n : Int}

theorem through_append (r : Reading) (u v : List Char) :
    r.through (u ++ v) = (r.through u).through v := List.foldl_append

theorem through_text (h : '<' ∉ u) : (⟨.text, n⟩ : Reading).through u = ⟨.text, n⟩ := by
  induction u with
  | nil => rfl
  | cons c u ih =>
    rw [List.mem_cons, not_or] at h
    have hstep : step ⟨.text, n⟩ c = ⟨.text, n⟩ := if_neg (Ne.symm h.1)
    show (step ⟨.text, n⟩ c).through u = _
    rw [hstep, ih h.2]

theorem through_tag (h : '>' ∉ u) : (⟨.tag, n⟩ : Reading).through (u ++ ['>']) = ⟨.text, n⟩ := by
  induction u with
  | nil => rfl
  | cons c u ih =>
    rw [List.mem_cons, not_or] at h
    have hstep : step ⟨.tag, n⟩ c = ⟨.tag, n⟩ := if_neg (Ne.symm h.1)
    show (step ⟨.tag, n⟩ c).through (u ++ ['>']) = _
    rw [hstep, ih h.2]

/-- Blanks neither open nor close a style, and do not end a tag. -/
theorem through_blank (r : Reading) (h : ∀ c ∈ v, Text.isBlank c = true) :
    (r.through v).styles = r.styles ∧ ((r.through v).spot = .text → r.spot = .text) := by
  induction v generalizing r with
  | nil => exact ⟨rfl, id⟩
  | cons c v ih =>
    have hc := h c List.mem_cons_self
    obtain ⟨hstyles, hspot⟩ := ih (r.step c) fun d hd => h d (List.mem_cons_of_mem _ hd)
    have hstep : (r.step c).styles = r.styles ∧ ((r.step c).spot = .text → r.spot = .text) := by
      have hplain : c ≠ '/' ∧ c ≠ '>' ∧ isStyle c = false := by
        refine ⟨?_, ?_, ?_⟩
        · rintro rfl
          exact absurd hc (by decide)
        · rintro rfl
          exact absurd hc (by decide)
        · by_contra hstyle
          rw [Bool.not_eq_false, isStyle, List.contains_iff_mem] at hstyle
          have hnone : "esdc".toList.all (!Text.isBlank ·) = true := by decide
          simpa [hc] using List.all_eq_true.1 hnone c hstyle
      obtain ⟨hslash, hclose, hstyle⟩ := hplain
      unfold step
      cases hr : r.spot with
      | text =>
        dsimp only
        split <;> simp [hr]
      | opened => simp [hslash, hstyle]
      | slashed => simp [hstyle]
      | tag => simp [hclose, hr]
    exact ⟨hstyles.trans hstep.1, fun htext => hstep.2 (hspot htext)⟩

theorem through_of_append_blank {r : Reading} (h : ∀ c ∈ v, Text.isBlank c = true)
    (hthrough : r.through (u ++ v) = ⟨.text, n⟩) : r.through u = ⟨.text, n⟩ := by
  obtain ⟨hstyles, hspot⟩ := through_blank (r.through u) h
  rw [through_append] at hthrough
  rw [hthrough] at hstyles hspot
  rw [Reading.mk.injEq]
  exact ⟨hspot rfl, hstyles.symm⟩

/-- How many styles an element is, from the first character of its name. -/
def weight (c : Char) : Int := if isStyle c then 1 else 0

theorem through_opening {c : Char} {name attrs : List Char} (hc : c ≠ '/') (hname : '>' ∉ name)
    (hattrs : '>' ∉ attrs) (n : Int) :
    (⟨.text, n⟩ : Reading).through ('<' :: (c :: name ++ attrs) ++ ['>']) =
      ⟨.text, n + weight c⟩ := by
  have hrest : '>' ∉ name ++ attrs := by simp [hname, hattrs]
  have hstep : step ⟨.opened, n⟩ c = ⟨.tag, n + weight c⟩ := by
    unfold step weight
    cases isStyle c <;> simp [hc]
  show (step ⟨.opened, n⟩ c).through (name ++ attrs ++ ['>']) = _
  rw [hstep, through_tag hrest]

theorem through_closing (c : Char) {name : List Char} (hname : '>' ∉ name) (n : Int) :
    (⟨.text, n⟩ : Reading).through ('<' :: '/' :: c :: name ++ ['>']) = ⟨.text, n - weight c⟩ := by
  have hstep : step ⟨.slashed, n⟩ c = ⟨.tag, n - weight c⟩ := by
    unfold step weight
    cases isStyle c <;> simp
  show (step ⟨.slashed, n⟩ c).through (name ++ ['>']) = _
  rw [hstep, through_tag hname]

theorem exists_name (e : Element) : ∃ c more, e.name = c :: more ∧ c ≠ '/' := by
  cases e <;> exact ⟨_, _, rfl, by decide⟩

theorem exists_voidName (v : VoidElement) :
    ∃ c more, v.name = c :: more ∧ c ≠ '/' ∧ weight c = 0 := by
  cases v <;> exact ⟨_, _, rfl, by decide, by decide⟩

/-- An element closes what it opens. -/
theorem exists_weight (e : Element) : ∃ w : Int,
    (∀ n attrs, Fit attrs e.attributes →
      (⟨.text, n⟩ : Reading).through (e.opening attrs) = ⟨.text, n + w⟩) ∧
    ∀ n, (⟨.text, n⟩ : Reading).through e.closing = ⟨.text, n - w⟩ := by
  obtain ⟨c, more, hname, hc⟩ := exists_name e
  have hmore : '>' ∉ more := fun hmem => e.not_mem_name (hname ▸ List.mem_cons_of_mem c hmem)
  refine ⟨weight c, fun n attrs hattrs => ?_, fun n => ?_⟩
  · rw [Element.opening, hname,
      through_opening hc hmore (not_mem_writeAll hattrs e.not_mem_attributes)]
  · rw [Element.closing, hname, through_closing c hmore]

/-- Markup that is nested as it should be closes all it opens. -/
theorem through_flow {html : List Char} (h : Flow html) (n : Int) :
    (⟨.text, n⟩ : Reading).through html = ⟨.text, n⟩ := by
  induction h generalizing n with
  | nil => rfl
  | @char c rest hopen _ _ ih =>
    have hstep : step ⟨.text, n⟩ c = ⟨.text, n⟩ := if_neg hopen
    show (step ⟨.text, n⟩ c).through rest = _
    rw [hstep, ih]
  | @void v slash attrs rest hattrs _ ih =>
    obtain ⟨c, more, hname, hc, hweight⟩ := exists_voidName v
    have hmore : '>' ∉ more := fun hmem => v.not_mem_name (hname ▸ List.mem_cons_of_mem c hmem)
    have hend : '>' ∉ writeAll attrs ++ if slash then [' ', '/'] else [] := by
      have hwritten := not_mem_writeAll hattrs v.not_mem_attributes
      cases slash <;> simp [hwritten]
    have htag := through_opening hc hmore hend n
    rw [hweight, Int.add_zero, ← hname, ← List.append_assoc] at htag
    rw [through_append, VoidElement.tag, htag, ih]
  | @element e attrs inner rest hattrs _ _ ihinner ih =>
    obtain ⟨w, hopening, hclosing⟩ := exists_weight e
    rw [through_append, through_append, through_append, hopening n attrs hattrs, ihinner, hclosing,
      Int.add_sub_cancel, ih]

/-- An element with a style left open in it is not nested as it should be. -/
theorem not_flow_of_open {e : Element} {attrs : List Attribute} {html rest : List Char} {k : Int}
    (hattrs : Fit attrs e.attributes) (hk : k ≠ 0)
    (h : ∀ n, (⟨.text, n⟩ : Reading).through html = ⟨.text, n + k⟩) (hrest : Flow rest) :
    ¬Flow (e.opening attrs ++ html ++ e.closing ++ rest) := by
  intro hflow
  obtain ⟨w, hopening, hclosing⟩ := exists_weight e
  have hthrough := through_flow hflow 0
  rw [through_append, through_append, through_append, hopening 0 attrs hattrs, h, hclosing,
    through_flow hrest, Reading.mk.injEq] at hthrough
  omega

end Reading

end Styles

section Shows

/-- Whether a character can be of a marker's ends. No tag and no escape holds one. -/
def isBrace (c : Char) : Bool := c = '{' || c = '#' || c = '}'

/-- Markup shows a text, between tags that hold no brace. -/
inductive Shows : List Char → List Char → Prop where
  | nil : Shows [] []
  | char (c : Char) {html text : List Char} (h : Shows html text) :
    Shows (escapeTextChar c ++ html) (c :: text)
  | tag {inner html text : List Char} (hclose : '>' ∉ inner) (hbraces : ∀ c ∈ inner, isBrace c = false)
    (h : Shows html text) : Shows ('<' :: inner ++ '>' :: html) text

theorem eq_of_mem_escapeTextChar {c d : Char} (h : c ∈ escapeTextChar d) (hc : isBrace c = true) :
    d = c := by
  unfold escapeTextChar at h
  split at h
  case h_4 => exact (List.mem_singleton.1 h).symm
  all_goals simpa [hc] using List.all_eq_true.1 (by decide : List.all _ (!isBrace ·) = true) c h

theorem escapeTextChar_brace {c : Char} (hc : isBrace c = true) : escapeTextChar c = [c] := by
  unfold escapeTextChar
  split
  case h_4 => rfl
  all_goals exact absurd hc (by decide)

/-- A blank is written as it is, and what is written for any other character does not end in one. -/
theorem escapeTextChar_cases (c : Char) :
    escapeTextChar c = [c] ∨ Text.isBlank c = false ∧
      ∃ front, escapeTextChar c = front ++ [';'] := by
  unfold escapeTextChar
  split
  · exact .inr ⟨rfl, "&amp".toList, rfl⟩
  · exact .inr ⟨rfl, "&lt".toList, rfl⟩
  · exact .inr ⟨rfl, "&gt".toList, rfl⟩
  · exact .inl rfl

/-- A character of a text in two parts is in the first or in the second. -/
theorem cases_of_append_eq {front back u v : List Char} {c : Char}
    (h : front ++ back = u ++ c :: v) :
    (∃ w, u = front ++ w ∧ back = w ++ c :: v) ∨ ∃ w, front = u ++ c :: w ∧ v = w ++ back := by
  obtain ⟨w, hu, hback⟩ | ⟨w, hfront, hv⟩ := List.append_eq_append_iff.1 h
  · exact .inl ⟨w, hu, hback⟩
  · cases w with
    | nil => exact .inl ⟨[], by simpa using hfront.symm, hv.symm⟩
    | cons d w =>
      obtain ⟨rfl, hrest⟩ := List.cons.inj hv
      exact .inr ⟨w, hfront, hrest⟩

theorem exists_of_append_eq {front back u v : List Char} {c : Char}
    (h : front ++ back = u ++ c :: v) (hc : c ∉ front) : ∃ w, u = front ++ w ∧ back = w ++ c :: v := by
  refine (cases_of_append_eq h).resolve_right ?_
  rintro ⟨w, rfl, -⟩
  exact hc (List.mem_append_right u List.mem_cons_self)

namespace Shows

variable {html html' text text' u v : List Char}

theorem append (h : Shows html text) (h' : Shows html' text') :
    Shows (html ++ html') (text ++ text') := by
  induction h with
  | nil => exact h'
  | char c _ ih =>
    rw [List.append_assoc]
    exact char c ih
  | tag hclose hbraces _ ih =>
    have htag := tag hclose hbraces ih
    rwa [← List.cons_append, ← List.append_assoc] at htag

theorem of_text (text : List Char) : Shows (escapeText text) text := by
  induction text with
  | nil => exact nil
  | cons c text ih => exact char c ih

theorem betweenFrom_append (h : Shows html text) (rest : List Char) :
    betweenFrom false (html ++ rest) = escapeText text ++ betweenFrom false rest := by
  induction h with
  | nil => rfl
  | @char c html text _ ih =>
    have hopen : '<' ∉ escapeTextChar c := fun hmem => (not_bracket_escapeTextChar hmem).1 rfl
    have htext : escapeText (c :: text) = escapeTextChar c ++ escapeText text := List.flatMap_cons
    rw [List.append_assoc, betweenFrom_text hopen, ih, htext, List.append_assoc]
  | @tag inner html text hclose _ _ ih =>
    have htag := betweenFrom_tag hclose (html ++ rest)
    rw [List.append_assoc, List.cons_append, List.cons_append]
    exact htag.trans ih

/-- The two are cut at a brace together. -/
theorem split (h : Shows html text) {c : Char} (hc : isBrace c = true) (hhtml : html = u ++ c :: v) :
    ∃ before after, text = before ++ c :: after ∧ Shows u before ∧ Shows v after := by
  induction h generalizing u with
  | nil => simp at hhtml
  | @char d html text h ih =>
    by_cases hd : d = c
    · subst hd
      rw [escapeTextChar_brace hc, List.singleton_append] at hhtml
      cases u with
      | nil =>
        obtain ⟨-, rfl⟩ := List.cons.inj hhtml
        exact ⟨[], text, rfl, nil, h⟩
      | cons e u =>
        obtain ⟨rfl, hrest⟩ := List.cons.inj hhtml
        obtain ⟨before, after, rfl, hbefore, hafter⟩ := ih hrest
        have hfirst := char d hbefore
        rw [escapeTextChar_brace hc] at hfirst
        exact ⟨d :: before, after, rfl, hfirst, hafter⟩
    · have hnone : c ∉ escapeTextChar d := fun hmem => hd (eq_of_mem_escapeTextChar hmem hc)
      obtain ⟨w, rfl, hw⟩ := exists_of_append_eq hhtml hnone
      obtain ⟨before, after, rfl, hbefore, hafter⟩ := ih hw
      exact ⟨d :: before, after, rfl, char d hbefore, hafter⟩
  | @tag inner html text hclose hbraces h ih =>
    have hnone : c ∉ '<' :: inner ++ ['>'] := by
      intro hmem
      rcases List.mem_append.1 hmem with hmem | hmem
      · rcases List.mem_cons.1 hmem with rfl | hmem
        · exact absurd hc (by decide)
        · exact absurd hc (by rw [hbraces c hmem]; decide)
      · exact absurd hc (by rw [List.mem_singleton.1 hmem]; decide)
    have hparts : ('<' :: inner ++ ['>']) ++ html = u ++ c :: v := by rw [← hhtml]; simp
    obtain ⟨w, rfl, hw⟩ := exists_of_append_eq hparts hnone
    obtain ⟨before, after, rfl, hbefore, hafter⟩ := ih hw
    refine ⟨before, after, rfl, ?_, hafter⟩
    have htag := tag hclose hbraces hbefore
    rwa [List.append_cons] at htag

end Shows

end Shows

end Bindery.Html
