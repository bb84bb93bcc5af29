import Bindery.Proofs.Html.Shown
import Bindery.Proofs.Rendering.Markup
import Mathlib.Data.List.Induction

/-! The markup of styled text: text, code, and both in emphasis of any kind. It shows the text, and
where a brace is in it, the brace stands right among the nodes or a style is open before it. -/

namespace Bindery

open Markdown (Node)
open Html (Flow Element Reading escapeText escapeTextChar)

namespace Rendering

/-- A node of text, styled in any way. -/
inductive Styled : Node → Prop where
  | text (value : String) : Styled (.text value)
  | code (value : String) : Styled (.inlineCode value)
  | strong {cs : List Node} (h : ∀ n ∈ cs, Styled n) : Styled (.strong cs)
  | emphasis {cs : List Node} (h : ∀ n ∈ cs, Styled n) : Styled (.emphasis cs)
  | delete {cs : List Node} (h : ∀ n ∈ cs, Styled n) : Styled (.delete cs)

/-- The markup of styled text. It registers nothing and asks for no productions. -/
def markup (s : Scene) (cs : List Node) : List Char :=
  Id.run (nodes (Productions.plain s.options) s cs)

section Markup

variable {m : Type → Type} [Monad m] [LawfulMonad m] {s : Scene} {n : Node} {cs : List Node}

theorem markup_cons (s : Scene) (n : Node) (cs : List Node) :
    markup s (n :: cs) = Id.run (node (Productions.plain s.options) s n) ++ markup s cs := rfl

theorem nodes_of_forall {p : Productions m}
    (h : ∀ n ∈ cs, node p s n = pure (Id.run (node (Productions.plain s.options) s n))) :
    nodes p s cs = pure (markup s cs) := by
  induction cs with
  | nil => rfl
  | cons n cs ih =>
    obtain ⟨hn, hcs⟩ := List.forall_mem_cons.1 h
    rw [nodes, hn, ih hcs, pure_bind, pure_bind, markup_cons]

theorem Styled.node_eq (h : Styled n) (p : Productions m) :
    node p s n = pure (Id.run (node (Productions.plain s.options) s n)) := by
  induction h with
  | text value => rfl
  | code value => rfl
  | strong _ ih | emphasis _ ih | delete _ ih =>
    rw [node, nodes_of_forall ih, pure_bind]
    rfl

theorem nodes_styled (h : ∀ n ∈ cs, Styled n) (p : Productions m) :
    nodes p s cs = pure (markup s cs) := nodes_of_forall fun n hn => (h n hn).node_eq p

/-- The elements that style text. -/
def styles : List Element := [.emphasis, .strong, .deletion, .code]

/-- What holds of the markup of styled text: it is nested as it should be, it shows the text, and
where a brace is in it, no style has been closed that was not open. -/
structure Sound (html text : List Char) : Prop where
  flow : Flow html
  shows : Html.Shows html text
  within : ∀ {u v : List Char} {c : Char}, html = u ++ c :: v → Html.isBrace c = true →
    ∃ k : Int, 0 ≤ k ∧ ∀ n, (⟨.text, n⟩ : Reading).through u = ⟨.text, n + k⟩

namespace Sound

variable {html html' text text' : List Char}

theorem nil : Sound [] [] := ⟨.nil, .nil, fun h => by simp at h⟩

theorem append (h : Sound html text) (h' : Sound html' text') :
    Sound (html ++ html') (text ++ text') where
  flow := h.flow.append h'.flow
  shows := h.shows.append h'.shows
  within := by
    intro u v c hu hc
    obtain ⟨w, rfl, hw⟩ | ⟨w, hw, -⟩ := Html.cases_of_append_eq hu
    · obtain ⟨k, hk, hthrough⟩ := h'.within hw hc
      refine ⟨k, hk, fun n => ?_⟩
      rw [Reading.through_append, Reading.through_flow h.flow, hthrough]
    · exact h.within hw hc

theorem of_text (text : List Char) : Sound (escapeText text) text where
  flow := Html.flow_escapeText text
  shows := .of_text text
  within := by
    intro u v c hu _
    refine ⟨0, Int.le_refl 0, fun n => ?_⟩
    have hopen : '<' ∉ u := by
      intro hmem
      have hmem : '<' ∈ escapeText text := hu ▸ List.mem_append_left _ hmem
      obtain ⟨d, -, hd⟩ := List.mem_flatMap.1 hmem
      exact (Html.not_bracket_escapeTextChar hd).1 rfl
    rw [Reading.through_text hopen, Int.add_zero]

theorem name_of_mem_styles {e : Element} (he : e ∈ styles) : ∃ c more, e.name = c :: more ∧ c ≠ '/' ∧
    Reading.weight c = 1 ∧ ∀ d ∈ c :: more, Html.isBrace d = false := by
  have hnames : (styles.all fun e => e.name.all (!Html.isBrace ·)) = true := by decide
  have hbraces : ∀ d ∈ e.name, Html.isBrace d = false := fun d hd => by
    simpa using List.all_eq_true.1 (List.all_eq_true.1 hnames e he) d hd
  have hheads : ∀ e ∈ styles, ∃ c more, e.name = c :: more ∧ c ≠ '/' ∧ Reading.weight c = 1 := by
    simp only [styles, List.forall_mem_cons, List.not_mem_nil, false_implies, implies_true, and_true]
    exact ⟨⟨_, _, rfl, by decide, by decide⟩, ⟨_, _, rfl, by decide, by decide⟩,
      ⟨_, _, rfl, by decide, by decide⟩, ⟨_, _, rfl, by decide, by decide⟩⟩
  obtain ⟨c, more, hname, hslash, hweight⟩ := hheads e he
  exact ⟨c, more, hname, hslash, hweight, hname ▸ hbraces⟩

/-- A brace in a styled text has the style open before it. -/
theorem within_style {e : Element} (he : e ∈ styles) (h : Sound html text) {u v : List Char} {c : Char}
    (hu : e.opening [] ++ html ++ e.closing = u ++ c :: v) (hc : Html.isBrace c = true) :
    ∃ k : Int, 0 < k ∧ ∀ n, (⟨.text, n⟩ : Reading).through u = ⟨.text, n + k⟩ := by
  obtain ⟨first, more, hname, hfirst, hweight, hbraces⟩ := name_of_mem_styles he
  have hplain {d : Char} (hd : Html.isBrace d = true) : d ∉ first :: more := by
    intro hmem
    rw [hbraces d hmem] at hd
    cases hd
  have hnone : c ∉ e.opening [] ∧ c ∉ e.closing := by
    have hbracket : c ≠ '<' ∧ c ≠ '>' ∧ c ≠ '/' := by
      refine ⟨?_, ?_, ?_⟩ <;> rintro rfl <;> exact absurd hc (by decide)
    have hname' := hplain hc
    unfold Element.opening Element.closing
    rw [hname]
    simp only [Html.Attribute.writeAll, List.flatMap_nil, List.append_nil, List.mem_append,
      List.mem_cons, List.not_mem_nil, or_false, not_or] at hname' ⊢
    exact ⟨⟨⟨hbracket.1, hname'⟩, hbracket.2.1⟩, ⟨⟨hbracket.1, hbracket.2.2, hname'⟩, hbracket.2.1⟩⟩
  rw [List.append_assoc] at hu
  obtain ⟨w, rfl, hw⟩ := Html.exists_of_append_eq hu hnone.1
  obtain ⟨v', hhtml, -⟩ := (Html.cases_of_append_eq hw).resolve_left (by
    rintro ⟨w', -, hclosing⟩
    exact hnone.2 (hclosing ▸ List.mem_append_right w' List.mem_cons_self))
  obtain ⟨k, hk, hthrough⟩ := h.within hhtml hc
  refine ⟨1 + k, by omega, fun n => ?_⟩
  have hmore : '>' ∉ more := fun hmem => e.not_mem_name (hname ▸ List.mem_cons_of_mem first hmem)
  have hattrs : '>' ∉ Html.Attribute.writeAll [] := List.not_mem_nil
  have hopening := Reading.through_opening hfirst hmore hattrs n
  rw [Reading.through_append, Element.opening, hname, hopening, hthrough, hweight, Int.add_assoc]

theorem style {e : Element} (he : e ∈ styles) (h : Sound html text) :
    Sound (e.opening [] ++ html ++ e.closing) text where
  flow := Flow.wrap (Html.Attribute.fit_nil _) h.flow
  shows := by
    obtain ⟨first, more, hname, -, -, hbraces⟩ := name_of_mem_styles he
    have hclose : '>' ∉ first :: more := hname ▸ e.not_mem_name
    have hshut : Html.Shows ('<' :: ('/' :: first :: more) ++ ['>']) [] :=
      .tag (by simpa using hclose) (List.forall_mem_cons.2 ⟨rfl, hbraces⟩) .nil
    have hopen := Html.Shows.tag hclose hbraces (h.shows.append hshut)
    rw [List.append_nil] at hopen
    unfold Element.opening Element.closing
    rw [hname]
    simpa [Html.Attribute.writeAll] using hopen
  within hu hc := by
    obtain ⟨k, hk, hthrough⟩ := within_style he h hu hc
    exact ⟨k, Int.le_of_lt hk, hthrough⟩

end Sound

theorem sound_of_forall
    (h : ∀ n ∈ cs, Sound (Id.run (node (Productions.plain s.options) s n)) (plainText n)) :
    Sound (markup s cs) (plainTexts cs) := by
  induction cs with
  | nil => exact .nil
  | cons n cs ih =>
    obtain ⟨hn, hcs⟩ := List.forall_mem_cons.1 h
    rw [markup_cons, plainTexts]
    exact hn.append (ih hcs)

theorem writeText_of_not_breaks {options : Markdown.Options} (h : options.breaks = false)
    (text : List Char) : writeText options text = escapeText text := by
  rw [writeText, h]
  rfl

theorem Styled.sound (h : Styled n) (hbreaks : s.options.breaks = false) :
    Sound (Id.run (node (Productions.plain s.options) s n)) (plainText n) := by
  induction h with
  | text value =>
    have hnode : Id.run (node (Productions.plain s.options) s (.text value)) =
      escapeText value.toList := writeText_of_not_breaks hbreaks value.toList
    rw [hnode]
    exact .of_text value.toList
  | code value => exact .style (e := .code) (by simp [styles]) (.of_text value.toList)
  | strong _ ih => exact .style (e := .strong) (by simp [styles]) (sound_of_forall ih)
  | emphasis _ ih => exact .style (e := .emphasis) (by simp [styles]) (sound_of_forall ih)
  | delete _ ih => exact .style (e := .deletion) (by simp [styles]) (sound_of_forall ih)

end Markup

section Letters

/-- The node of one character. -/
def letter (c : Char) : Node := .text (String.singleton c)

/-- Nodes with the text that stands right among them cut into characters. -/
def letters (cs : List Node) : List Node :=
  cs.flatMap fun
    | .text value => value.toList.map letter
    | n => [n]

/-- A character, or a styled text. -/
inductive Piece : Node → Prop where
  | char (c : Char) : Piece (letter c)
  | code (value : String) : Piece (.inlineCode value)
  | strong {cs : List Node} (h : ∀ n ∈ cs, Styled n) : Piece (.strong cs)
  | emphasis {cs : List Node} (h : ∀ n ∈ cs, Styled n) : Piece (.emphasis cs)
  | delete {cs : List Node} (h : ∀ n ∈ cs, Styled n) : Piece (.delete cs)

theorem Piece.styled {n : Node} (h : Piece n) : Styled n := by
  cases h with
  | char c => exact .text _
  | code value => exact .code value
  | strong h => exact .strong h
  | emphasis h => exact .emphasis h
  | delete h => exact .delete h

variable {s : Scene} (hbreaks : s.options.breaks = false) {n : Node} {cs : List Node}

theorem pieces_letters (h : ∀ n ∈ cs, Styled n) : ∀ n ∈ letters cs, Piece n := by
  intro n hn
  obtain ⟨m, hm, hn⟩ := List.mem_flatMap.1 hn
  have hstyled := h m hm
  cases hstyled with
  | text value =>
    obtain ⟨c, -, rfl⟩ := List.mem_map.1 hn
    exact .char c
  | code value => exact List.mem_singleton.1 hn ▸ .code value
  | strong h => exact List.mem_singleton.1 hn ▸ .strong h
  | emphasis h => exact List.mem_singleton.1 hn ▸ .emphasis h
  | delete h => exact List.mem_singleton.1 hn ▸ .delete h

theorem markup_append (s : Scene) (cs ds : List Node) :
    markup s (cs ++ ds) = markup s cs ++ markup s ds := by
  induction cs with
  | nil => rfl
  | cons n cs ih => rw [List.cons_append, markup_cons, markup_cons, ih, List.append_assoc]

theorem plainTexts_append (cs ds : List Node) :
    plainTexts (cs ++ ds) = plainTexts cs ++ plainTexts ds := by
  induction cs with
  | nil => rfl
  | cons n cs ih => rw [List.cons_append, plainTexts, plainTexts, ih, List.append_assoc]

theorem plainTexts_letter (c : Char) (cs : List Node) :
    plainTexts (letter c :: cs) = c :: plainTexts cs := by
  rw [plainTexts, letter, plainText, String.toList_singleton, List.singleton_append]

theorem plainTexts_letters (h : ∀ n ∈ cs, Styled n) : plainTexts (letters cs) = plainTexts cs := by
  have htext (l : List Char) : plainTexts (l.map letter) = l := by
    induction l with
    | nil => rfl
    | cons c l ih => rw [List.map_cons, plainTexts_letter, ih]
  induction cs with
  | nil => rfl
  | cons n cs ih =>
    obtain ⟨hn, hcs⟩ := List.forall_mem_cons.1 h
    have hcut : letters (n :: cs) = letters [n] ++ letters cs := by simp [letters]
    have hfirst : plainTexts (letters [n]) = plainText n := by
      cases hn with
      | text value =>
        rw [letters, List.flatMap_singleton, plainText]
        exact htext value.toList
      | _ => exact List.append_nil _
    rw [hcut, plainTexts_append, hfirst, ih hcs, plainTexts]

include hbreaks

theorem node_letter (c : Char) :
    Id.run (node (Productions.plain s.options) s (letter c)) = escapeTextChar c := by
  show writeText s.options (String.singleton c).toList = _
  rw [writeText_of_not_breaks hbreaks, String.toList_singleton]
  exact List.append_nil _

theorem markup_letter (c : Char) (cs : List Node) :
    markup s (letter c :: cs) = escapeTextChar c ++ markup s cs := by
  rw [markup_cons, node_letter hbreaks]

theorem markup_letters (h : ∀ n ∈ cs, Styled n) : markup s (letters cs) = markup s cs := by
  have htext (l : List Char) : markup s (l.map letter) = escapeText l := by
    induction l with
    | nil => rfl
    | cons c l ih =>
      rw [List.map_cons, markup_letter hbreaks, ih]
      rfl
  induction cs with
  | nil => rfl
  | cons n cs ih =>
    obtain ⟨hn, hcs⟩ := List.forall_mem_cons.1 h
    have hcut : letters (n :: cs) = letters [n] ++ letters cs := by simp [letters]
    have hfirst : markup s (letters [n]) = Id.run (node (Productions.plain s.options) s n) := by
      cases hn with
      | text value =>
        rw [letters, List.flatMap_singleton]
        exact (htext value.toList).trans (writeText_of_not_breaks hbreaks value.toList).symm
      | _ => exact List.append_nil _
    rw [hcut, markup_append, hfirst, ih hcs, markup_cons]

theorem sound_of_pieces (h : ∀ n ∈ cs, Piece n) : Sound (markup s cs) (plainTexts cs) :=
  sound_of_forall fun n hn => (h n hn).styled.sound hbreaks

/-- A piece is a character, or has its tags around it. -/
theorem Piece.cases_of_markup (h : Piece n) :
    (∃ c, n = letter c) ∨ ∃ e ∈ styles, ∃ html text, Sound html text ∧
      Id.run (node (Productions.plain s.options) s n) = e.opening [] ++ html ++ e.closing := by
  have hinner {cs : List Node} (h : ∀ n ∈ cs, Styled n) : Sound (markup s cs) (plainTexts cs) :=
    sound_of_forall fun n hn => (h n hn).sound hbreaks
  cases h with
  | char c => exact .inl ⟨c, rfl⟩
  | code value => exact .inr ⟨.code, by simp [styles], _, _, .of_text value.toList, rfl⟩
  | strong h => exact .inr ⟨.strong, by simp [styles], _, _, hinner h, rfl⟩
  | emphasis h => exact .inr ⟨.emphasis, by simp [styles], _, _, hinner h, rfl⟩
  | delete h => exact .inr ⟨.deletion, by simp [styles], _, _, hinner h, rfl⟩

/-- A brace in the markup is one right among the nodes, or a style is open before it. -/
theorem split_markup (h : ∀ n ∈ cs, Piece n) {u v : List Char} {c : Char}
    (hmarkup : markup s cs = u ++ c :: v) (hc : Html.isBrace c = true) :
    (∃ front back, cs = front ++ letter c :: back ∧ u = markup s front ∧ v = markup s back) ∨
    ∃ k : Int, 0 < k ∧ ∀ n, (⟨.text, n⟩ : Reading).through u = ⟨.text, n + k⟩ := by
  induction cs generalizing u with
  | nil => simp [markup, nodes] at hmarkup
  | cons n cs ih =>
    obtain ⟨hn, hcs⟩ := List.forall_mem_cons.1 h
    rw [markup_cons] at hmarkup
    obtain ⟨w, rfl, hw⟩ | ⟨w, hfirst, rfl⟩ := Html.cases_of_append_eq hmarkup
    · obtain ⟨front, back, rfl, rfl, rfl⟩ | ⟨k, hk, hthrough⟩ := ih hcs hw
      · exact .inl ⟨n :: front, back, rfl, rfl, rfl⟩
      · refine .inr ⟨k, hk, fun m => ?_⟩
        rw [Reading.through_append, Reading.through_flow (hn.styled.sound hbreaks).flow, hthrough]
    · obtain ⟨d, rfl⟩ | ⟨e, he, html, text, hsound, hnode⟩ := hn.cases_of_markup hbreaks
      · rw [node_letter hbreaks] at hfirst
        have hmem : c ∈ escapeTextChar d := hfirst ▸ List.mem_append_right u List.mem_cons_self
        obtain rfl := Html.eq_of_mem_escapeTextChar hmem hc
        rw [Html.escapeTextChar_brace hc] at hfirst
        obtain ⟨rfl, rfl⟩ : u = [] ∧ w = [] := by
          cases u with
          | nil => exact ⟨rfl, (List.cons.inj hfirst).2.symm⟩
          | cons d u => simp at hfirst
        exact .inl ⟨[], cs, rfl, rfl, rfl⟩
      · exact .inr (Sound.within_style he hsound (hnode ▸ hfirst) hc)

/-- Blanks are the markup of blanks right among the nodes. -/
theorem blank_of_markup (h : ∀ n ∈ cs, Piece n) (hblank : ∀ c ∈ markup s cs, Text.isBlank c = true) :
    ∀ n ∈ cs, ∃ c, n = letter c ∧ Text.isBlank c = true := by
  induction cs with
  | nil => simp
  | cons n cs ih =>
    obtain ⟨hn, hcs⟩ := List.forall_mem_cons.1 h
    rw [markup_cons, List.forall_mem_append] at hblank
    refine List.forall_mem_cons.2 ⟨?_, ih hcs hblank.2⟩
    obtain ⟨d, rfl⟩ | ⟨e, he, html, text, hsound, hnode⟩ := hn.cases_of_markup hbreaks
    · refine ⟨d, rfl, ?_⟩
      rw [node_letter hbreaks] at hblank
      obtain hd | ⟨-, front, hd⟩ := Html.escapeTextChar_cases d
      · exact hblank.1 d (by simp [hd])
      · exact absurd (hblank.1 ';' (by simp [hd])) (by decide)
    · rw [hnode] at hblank
      exact absurd (hblank.1 '<' (by simp [Element.opening])) (by decide)

theorem trimEnd_concat_piece (h : Piece n) (hn : ∀ c, Text.isBlank c = true → n ≠ letter c)
    (cs : List Node) : Text.trimEnd (markup s (cs ++ [n])) = markup s (cs ++ [n]) := by
  have hlast : ∃ front c, markup s [n] = front ++ [c] ∧ Text.isBlank c = false := by
    rw [markup_cons, show markup s [] = [] from rfl, List.append_nil]
    obtain ⟨d, rfl⟩ | ⟨e, he, html, text, hsound, hnode⟩ := h.cases_of_markup hbreaks
    · rw [node_letter hbreaks]
      obtain hd | ⟨-, front, hd⟩ := Html.escapeTextChar_cases d
      · exact ⟨[], d, hd, Bool.eq_false_iff.2 fun hblank => hn d hblank rfl⟩
      · exact ⟨front, ';', hd, by decide⟩
    · exact ⟨e.opening [] ++ html ++ '<' :: '/' :: e.name, '>', by simp [hnode, Element.closing],
        by decide⟩
  obtain ⟨front, c, hmarkup, hc⟩ := hlast
  rw [markup_append, hmarkup, ← List.append_assoc]
  exact Text.trimEnd_concat hc _ (by simp)

/-- The markup without the blanks at its end is that of the nodes without those at theirs. -/
theorem trimEnd_markup (h : ∀ n ∈ cs, Piece n) :
    ∃ front back, cs = front ++ back ∧ (∀ c ∈ plainTexts back, Text.isBlank c = true) ∧
      Text.trimEnd (markup s cs) = markup s front := by
  induction cs using List.reverseRecOn with
  | nil => exact ⟨[], [], rfl, by simp [plainTexts], rfl⟩
  | append_singleton cs n ih =>
    obtain ⟨hcs, hn⟩ := List.forall_mem_append.1 h
    by_cases hblank : ∃ c, Text.isBlank c = true ∧ n = letter c
    · obtain ⟨c, hc, rfl⟩ := hblank
      obtain ⟨front, back, rfl, hback, htrim⟩ := ih hcs
      have hwritten : escapeTextChar c = [c] :=
        (Html.escapeTextChar_cases c).resolve_right fun hother => by simp [hc] at hother
      refine ⟨front, back ++ [letter c], by simp, ?_, ?_⟩
      · rw [plainTexts_append, plainTexts_letter, List.forall_mem_append]
        exact ⟨hback, by simpa [plainTexts] using hc⟩
      · have hend : markup s [letter c] = [c] := by
          rw [markup_letter hbreaks, hwritten]
          rfl
        rw [markup_append, hend, Text.trimEnd_append (by simpa using hc), htrim]
    · refine ⟨cs ++ [n], [], by simp, by simp [plainTexts], ?_⟩
      exact trimEnd_concat_piece hbreaks (List.forall_mem_singleton.1 hn)
        (fun c hc heq => hblank ⟨c, hc, heq⟩) cs

end Letters

end Rendering

end Bindery
