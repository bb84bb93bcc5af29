import Bindery.Html.Tag
import Bindery.Html.Typography
import Mathlib.Data.List.Basic

/-! Markup that reads as text and tags: every tag is one of a rendered document's elements, what is
opened is closed where it should be, values stand between double quotes, and angle brackets stand
around tags only. Typographic punctuation leaves such markup what it is. -/

namespace Bindery.Html

/-- The elements of a rendered document that hold markup. -/
inductive Element where
  | paragraph
  | heading (level : Nat)
  | quotation
  | bullets
  | numbers
  | item
  | preformatted
  | code
  | table
  | tableHead
  | tableBody
  | row
  | headCell
  | cell
  | emphasis
  | strong
  | deletion
  | anchor
  deriving Repr, DecidableEq

/-- The elements of a rendered document that hold nothing and are not closed. -/
inductive VoidElement where
  | image
  | lineBreak
  | rule
  | checkbox
  deriving Repr, DecidableEq

namespace Element

def name : Element → List Char
  | paragraph => ['p']
  | heading level => 'h' :: digitsOf level
  | quotation => "blockquote".toList
  | bullets => ['u', 'l']
  | numbers => ['o', 'l']
  | item => ['l', 'i']
  | preformatted => "pre".toList
  | code => "code".toList
  | table => "table".toList
  | tableHead => "thead".toList
  | tableBody => "tbody".toList
  | row => ['t', 'r']
  | headCell => ['t', 'h']
  | cell => ['t', 'd']
  | emphasis => ['e', 'm']
  | strong => "strong".toList
  | deletion => "del".toList
  | anchor => ['a']

/-- The attributes an element may have, in their order. -/
def attributes : Element → List (List Char)
  | heading _ => ["id".toList]
  | numbers => ["start".toList]
  | code => ["class".toList]
  | headCell | cell => ["align".toList]
  | anchor => ["href".toList, "title".toList]
  | _ => []

end Element

namespace VoidElement

def name : VoidElement → List Char
  | image => "img".toList
  | lineBreak => ['b', 'r']
  | rule => ['h', 'r']
  | checkbox => "input".toList

def attributes : VoidElement → List (List Char)
  | image => ["src".toList, "alt".toList, "title".toList]
  | checkbox => ["type".toList, "disabled".toList, "checked".toList]
  | _ => []

end VoidElement

structure Attribute where
  name : List Char
  /-- The value as it stands between its quotes; some attributes have none. -/
  value : Option (List Char)
  deriving Repr, DecidableEq

namespace Attribute

def write (a : Attribute) : List Char :=
  match a.value with
  | some value => ' ' :: a.name ++ '=' :: '\x22' :: value ++ ['\x22']
  | none => ' ' :: a.name

def writeAll (attrs : List Attribute) : List Char := attrs.flatMap write

/-- Attributes with some of the names, each at most once, and with values in which no double quote
and no angle bracket stands. -/
structure Fit (attrs : List Attribute) (names : List (List Char)) : Prop where
  names : (attrs.map Attribute.name).Sublist names
  values : ∀ a ∈ attrs, ∀ value ∈ a.value, '\x22' ∉ value ∧ '<' ∉ value ∧ '>' ∉ value

theorem fit_nil (names : List (List Char)) : Fit [] names := ⟨List.nil_sublist _, by simp⟩

end Attribute

open Attribute (Fit)

def Element.opening (e : Element) (attrs : List Attribute) : List Char :=
  '<' :: (e.name ++ Attribute.writeAll attrs) ++ ['>']

def Element.closing (e : Element) : List Char := '<' :: '/' :: e.name ++ ['>']

/-- The tag of a void element; `slash` is the one before its end. -/
def VoidElement.tag (v : VoidElement) (attrs : List Attribute) (slash : Bool) : List Char :=
  '<' :: (v.name ++ Attribute.writeAll attrs ++ if slash then [' ', '/'] else []) ++ ['>']

/-- Text, void elements, and elements around such markup, one after the other. -/
inductive Flow : List Char → Prop where
  | nil : Flow []
  | char {c : Char} {rest : List Char} (hopen : c ≠ '<') (hclose : c ≠ '>') (hrest : Flow rest) :
    Flow (c :: rest)
  | void (v : VoidElement) (slash : Bool) {attrs : List Attribute} {rest : List Char}
    (hattrs : Fit attrs v.attributes) (hrest : Flow rest) : Flow (v.tag attrs slash ++ rest)
  | element {e : Element} {attrs : List Attribute} {inner rest : List Char}
    (hattrs : Fit attrs e.attributes) (hinner : Flow inner) (hrest : Flow rest) :
    Flow (e.opening attrs ++ inner ++ (e.closing ++ rest))

namespace Flow

variable {u v : List Char}

theorem append (hu : Flow u) (hv : Flow v) : Flow (u ++ v) := by
  induction hu with
  | nil => exact hv
  | char hopen hclose _ ih => exact char hopen hclose ih
  | void v slash hattrs _ ih =>
    rw [List.append_assoc]
    exact void v slash hattrs ih
  | element hattrs hinner _ _ ih =>
    rw [List.append_assoc, List.append_assoc (Element.closing _)]
    exact element hattrs hinner ih

theorem of_text (h : ∀ c ∈ u, c ≠ '<' ∧ c ≠ '>') : Flow u := by
  induction u with
  | nil => exact nil
  | cons c u ih =>
    have hc := h c List.mem_cons_self
    exact char hc.1 hc.2 (ih fun d hd => h d (List.mem_cons_of_mem _ hd))

theorem wrap {e : Element} {attrs : List Attribute} (hattrs : Fit attrs e.attributes)
    (hu : Flow u) : Flow (e.opening attrs ++ u ++ e.closing) := by
  have h := element hattrs hu nil
  rwa [List.append_nil] at h

theorem tag (x : VoidElement) (slash : Bool) {attrs : List Attribute}
    (hattrs : Fit attrs x.attributes) : Flow (x.tag attrs slash) := by
  have h := void x slash hattrs nil
  rwa [List.append_nil] at h

/-- A line end at the end belongs to the text. -/
theorem dropLast (hu : Flow u) (hlast : u.getLast? = some '\n') : Flow u.dropLast := by
  induction hu with
  | nil => exact nil
  | @char c rest hopen hclose hrest ih =>
    cases rest with
    | nil => exact nil
    | cons d rest =>
      rw [List.getLast?_cons_cons] at hlast
      exact char hopen hclose (ih hlast)
  | @void x slash attrs rest hattrs hrest ih =>
    cases rest with
    | nil =>
      rw [List.append_nil, VoidElement.tag, List.getLast?_concat] at hlast
      exact absurd (Option.some.inj hlast) (by decide)
    | cons d rest =>
      rw [List.getLast?_append_of_ne_nil _ (List.cons_ne_nil _ _)] at hlast
      rw [List.dropLast_append_of_ne_nil (List.cons_ne_nil _ _)]
      exact void x slash hattrs (ih hlast)
  | @element e attrs inner rest hattrs hinner hrest _ ih =>
    rw [← List.append_assoc] at hlast ⊢
    cases rest with
    | nil =>
      rw [List.append_nil, Element.closing, ← List.append_assoc, List.getLast?_concat] at hlast
      exact absurd (Option.some.inj hlast) (by decide)
    | cons d rest =>
      rw [List.getLast?_append_of_ne_nil _ (List.cons_ne_nil _ _)] at hlast
      rw [List.dropLast_append_of_ne_nil (List.cons_ne_nil _ _), List.append_assoc]
      exact element hattrs hinner (ih hlast)

end Flow

section Escaping

theorem not_bracket_escapeTextChar {c d : Char} (h : d ∈ escapeTextChar c) : d ≠ '<' ∧ d ≠ '>' := by
  unfold escapeTextChar at h
  split at h
  case h_4 _ hlt hgt =>
    obtain rfl := List.mem_singleton.1 h
    exact ⟨hlt, hgt⟩
  all_goals
    revert d
    simp

theorem flow_escapeText (cs : List Char) : Flow (escapeText cs) := by
  refine Flow.of_text fun d hd => ?_
  obtain ⟨c, -, hd⟩ := List.mem_flatMap.1 hd
  exact not_bracket_escapeTextChar hd

theorem quote_not_mem_escapeAttr (value : List Char) : '\x22' ∉ escapeAttr value := by
  intro hmem
  obtain ⟨c, -, hc⟩ := List.mem_flatMap.1 hmem
  unfold escapeAttrChar escapeTextChar at hc
  split at hc
  · exact absurd hc (by decide)
  · rename_i hquote
    split at hc
    · exact absurd hc (by decide)
    · exact absurd hc (by decide)
    · exact absurd hc (by decide)
    · exact hquote (List.mem_singleton.1 hc).symm

theorem not_bracket_escapeAttr {value : List Char} {d : Char} (h : d ∈ escapeAttr value) :
    d ≠ '<' ∧ d ≠ '>' := by
  obtain ⟨c, -, hc⟩ := List.mem_flatMap.1 h
  unfold escapeAttrChar at hc
  split at hc
  · exact (by simp : ∀ d ∈ "&quot;".toList, d ≠ '<' ∧ d ≠ '>') d hc
  · exact not_bracket_escapeTextChar hc

/-- Values that are escaped fit. -/
theorem fit_escaped {pairs : List (List Char × List Char)} {names : List (List Char)}
    (h : (pairs.map Prod.fst).Sublist names) :
    Fit (pairs.map fun x => ⟨x.1, some (escapeAttr x.2)⟩) names where
  names := by
    rw [List.map_map]
    exact h
  values := by
    intro a ha value hvalue
    obtain ⟨x, -, rfl⟩ := List.mem_map.1 ha
    obtain rfl := Option.mem_some.1 hvalue
    exact ⟨quote_not_mem_escapeAttr x.2, fun h => (not_bracket_escapeAttr h).1 rfl,
      fun h => (not_bracket_escapeAttr h).2 rfl⟩

theorem writeAll_escaped (pairs : List (List Char × List Char)) :
    Attribute.writeAll (pairs.map fun x => ⟨x.1, some (escapeAttr x.2)⟩) =
      pairs.flatMap fun x => writeAttr x.1 x.2 := by
  rw [Attribute.writeAll, List.flatMap_map]
  refine List.flatMap_congr fun x _ => ?_
  simp [Attribute.write, writeAttr]

end Escaping

namespace Typography

/-- A text character becomes one of its kind, with dots and hyphens behind it taken in. -/
theorem educate_spec (last : Option Char) {c : Char} (hopen : c ≠ '<') (hclose : c ≠ '>')
    (cs : List Char) : (educate last c cs).1 ≠ '<' ∧ (educate last c cs).1 ≠ '>' ∧
      ∃ taken rest, cs = taken ++ rest ∧ taken.length = (educate last c cs).2 ∧
        '<' ∉ taken := by
  unfold educate
  split
  · next rest => exact ⟨by decide, by decide, ['-', '-'], rest, rfl, rfl, by decide⟩
  · next rest _ => exact ⟨by decide, by decide, ['-'], rest, rfl, rfl, by decide⟩
  · next rest => exact ⟨by decide, by decide, ['.', '.'], rest, rfl, rfl, by decide⟩
  · refine ⟨?_, ?_, [], cs, rfl, rfl, by simp⟩ <;> dsimp only <;> split <;> decide
  · refine ⟨?_, ?_, [], cs, rfl, rfl, by simp⟩ <;> dsimp only <;> split <;> decide
  · exact ⟨hopen, hclose, [], cs, rfl, rfl, by simp⟩

/-- Inside a tag nothing is changed up to its end. -/
theorem walk_tag {inner : List Char} (h : '>' ∉ inner) (s : State) (tag rest : List Char)
    (hs : s.tag = some tag) : ∃ s', s'.tag = none ∧
      walk 0 s (inner ++ '>' :: rest) = inner ++ '>' :: walk 0 s' rest := by
  induction inner generalizing s tag with
  | nil =>
    refine ⟨⟨some '>', depthAfter s.depth ('>' :: tag).reverse, none⟩, rfl, ?_⟩
    simp [walk, hs]
  | cons c inner ih =>
    rw [List.mem_cons, not_or] at h
    obtain ⟨s', hs', hwalk⟩ := ih h.2 { s with last := some c, tag := some (c :: tag) } (c :: tag) rfl
    refine ⟨s', hs', ?_⟩
    rw [List.cons_append, walk]
    simp only [hs, if_neg (Ne.symm h.1), hwalk, List.cons_append]

/-- A whole tag stays as it is. -/
theorem walk_whole {inner : List Char} (h : '>' ∉ inner) (s : State) (hs : s.tag = none)
    (rest : List Char) : ∃ s', s'.tag = none ∧
      walk 0 s ('<' :: inner ++ ['>'] ++ rest) = '<' :: inner ++ ['>'] ++ walk 0 s' rest := by
  obtain ⟨s', hs', hwalk⟩ := walk_tag h { s with last := some '<', tag := some [] } [] rest rfl
  refine ⟨s', hs', ?_⟩
  rw [List.append_assoc, List.append_assoc, List.cons_append, List.singleton_append, walk]
  simp only [hs, if_true, hwalk, List.cons_append, List.nil_append]

/-- One character of the text. -/
theorem walk_char {c : Char} (h : c ≠ '<') (s : State) (hs : s.tag = none) (cs : List Char) :
    walk 0 s (c :: cs) =
      if s.depth > 0 then c :: walk 0 { s with last := some c } cs
      else (educate s.last c cs).1 ::
        walk (educate s.last c cs).2 { s with last := some (educate s.last c cs).1 } cs := by
  obtain ⟨last, depth, tag⟩ := s
  obtain rfl : tag = none := hs
  rw [walk]
  exact if_neg h

end Typography

theorem not_mem_writeAll {attrs : List Attribute} {names : List (List Char)} (h : Fit attrs names)
    (hnames : ∀ name ∈ names, '>' ∉ name) : '>' ∉ Attribute.writeAll attrs := by
  intro hmem
  obtain ⟨a, ha, hmem⟩ := List.mem_flatMap.1 hmem
  have hname : '>' ∉ a.name := hnames _ (h.names.subset (List.mem_map_of_mem ha))
  have hvalue := h.values a ha
  unfold Attribute.write at hmem
  split at hmem
  · next value heq =>
    have hvalue := (hvalue value heq).2.2
    simp [hname, hvalue] at hmem
  · simp [hname] at hmem

theorem Element.not_mem_attributes (e : Element) : ∀ name ∈ e.attributes, '>' ∉ name := by
  cases e with
  | heading level => exact (by decide : ∀ name ∈ ["id".toList], '>' ∉ name)
  | _ => decide

theorem VoidElement.not_mem_attributes (v : VoidElement) : ∀ name ∈ v.attributes, '>' ∉ name := by
  cases v <;> decide

theorem isDigit_of_mem_digitsOf {n : Nat} {c : Char} (h : c ∈ digitsOf n) : c.isDigit = true := by
  refine Nat.isDigit_of_mem_toDigits (by decide) (Nat.le_refl 10) (n := n) ?_
  simpa [digitsOf, toString, Nat.repr] using h

theorem Element.not_mem_name (e : Element) : '>' ∉ e.name := by
  cases e with
  | heading level =>
    show '>' ∉ 'h' :: digitsOf level
    rw [List.mem_cons, not_or]
    exact ⟨by decide, fun h => absurd (isDigit_of_mem_digitsOf h) (by decide)⟩
  | _ => decide

theorem VoidElement.not_mem_name (v : VoidElement) : '>' ∉ v.name := by
  cases v <;> decide

namespace Typography

/-- The first `skip` characters of a text are none that opens a tag. -/
def Passes (skip : Nat) (cs : List Char) : Prop :=
  ∃ taken rest, cs = taken ++ rest ∧ taken.length = skip ∧ '<' ∉ taken

theorem passes_zero (cs : List Char) : Passes 0 cs := ⟨[], cs, rfl, rfl, by simp⟩

theorem Passes.tail {skip : Nat} {c : Char} {cs : List Char} (h : Passes (skip + 1) (c :: cs)) :
    c ≠ '<' ∧ Passes skip cs := by
  obtain ⟨taken, rest, hcs, hlength, htaken⟩ := h
  cases taken with
  | nil => cases hlength
  | cons d taken =>
    rw [List.cons_append, List.cons.injEq] at hcs
    rw [List.mem_cons, not_or] at htaken
    exact ⟨hcs.1 ▸ Ne.symm htaken.1, taken, rest, hcs.2, Nat.succ.inj hlength, htaken.2⟩

theorem Passes.eq_zero {skip : Nat} {cs : List Char} (h : Passes skip ('<' :: cs)) : skip = 0 := by
  cases skip with
  | zero => rfl
  | succ skip => exact absurd rfl h.tail.1

/-- What is passed ends before the next tag. -/
theorem Passes.of_append {skip : Nat} {cs tail : List Char} (h : Passes skip (cs ++ tail))
    (htail : ∀ c ∈ tail.head?, c = '<') : Passes skip cs := by
  obtain ⟨taken, rest, hcs, hlength, htaken⟩ := h
  rcases List.append_eq_append_iff.1 hcs with ⟨more, hmore, hrest⟩ | ⟨more, hmore, -⟩
  · cases more with
    | nil => exact ⟨taken, [], by rw [hmore]; simp, hlength, htaken⟩
    | cons d more =>
      obtain rfl : d = '<' := htail d (by rw [hrest]; rfl)
      exact absurd (by rw [hmore]; simp) htaken
  · exact ⟨taken, more, hmore, hlength, htaken⟩

/-- Educated markup reads as text and tags again; what follows it begins with a tag. -/
theorem walk_flow {html : List Char} (h : Flow html) (skip : Nat) (hskip : Passes skip html)
    (s : State) (hs : s.tag = none) (tail : List Char) (htail : ∀ c ∈ tail.head?, c = '<') :
    ∃ html' s', Flow html' ∧ s'.tag = none ∧ walk skip s (html ++ tail) = html' ++ walk 0 s' tail := by
  induction h generalizing skip s tail with
  | nil =>
    obtain ⟨taken, rest, hcs, rfl, -⟩ := hskip
    obtain rfl := (List.append_eq_nil_iff.1 hcs.symm).1
    exact ⟨[], s, .nil, hs, rfl⟩
  | @char c rest hopen hclose hrest ih =>
    cases skip with
    | succ skip =>
      obtain ⟨html', s', hflow, hs', hwalk⟩ := ih skip hskip.tail.2 s hs tail htail
      exact ⟨html', s', hflow, hs', by rw [List.cons_append, walk, hwalk]⟩
    | zero =>
      by_cases hdepth : s.depth > 0
      · obtain ⟨html', s', hflow, hs', hwalk⟩ :=
          ih 0 (passes_zero _) { s with last := some c } hs tail htail
        refine ⟨c :: html', s', .char hopen hclose hflow, hs', ?_⟩
        rw [List.cons_append, walk_char hopen s hs, if_pos hdepth, hwalk, List.cons_append]
      · obtain ⟨hopen', hclose', hpasses⟩ := educate_spec s.last hopen hclose (rest ++ tail)
        obtain ⟨html', s', hflow, hs', hwalk⟩ := ih _ (Passes.of_append hpasses htail)
          { s with last := some (educate s.last c (rest ++ tail)).1 } hs tail htail
        refine ⟨_ :: html', s', .char hopen' hclose' hflow, hs', ?_⟩
        rw [List.cons_append, walk_char hopen s hs, if_neg hdepth, hwalk, List.cons_append]
  | @void v slash attrs rest hattrs hrest ih =>
    obtain rfl := hskip.eq_zero
    have hinner : '>' ∉ v.name ++ Attribute.writeAll attrs ++ if slash then [' ', '/'] else [] := by
      have hname := v.not_mem_name
      have hwritten := not_mem_writeAll hattrs v.not_mem_attributes
      cases slash <;> simp [hname, hwritten]
    obtain ⟨s₁, hs₁, hwalk₁⟩ := walk_whole hinner s hs (rest ++ tail)
    obtain ⟨html', s', hflow, hs', hwalk⟩ := ih 0 (passes_zero _) s₁ hs₁ tail htail
    refine ⟨v.tag attrs slash ++ html', s', .void v slash hattrs hflow, hs', ?_⟩
    rw [List.append_assoc, List.append_assoc, ← hwalk]
    exact hwalk₁
  | @element e attrs inner rest hattrs hinner hrest ihInner ihRest =>
    obtain rfl := hskip.eq_zero
    have hopening : '>' ∉ e.name ++ Attribute.writeAll attrs := by
      rw [List.mem_append, not_or]
      exact ⟨e.not_mem_name, not_mem_writeAll hattrs e.not_mem_attributes⟩
    have hclosing : '>' ∉ '/' :: e.name := by simp [e.not_mem_name]
    obtain ⟨s₁, hs₁, hwalk₁⟩ := walk_whole hopening s hs (inner ++ (e.closing ++ (rest ++ tail)))
    obtain ⟨inner', s₂, hinner', hs₂, hwalk₂⟩ := ihInner 0 (passes_zero _) s₁ hs₁
      (e.closing ++ (rest ++ tail)) (by rintro c ⟨⟩; rfl)
    obtain ⟨s₃, hs₃, hwalk₃⟩ := walk_whole hclosing s₂ hs₂ (rest ++ tail)
    obtain ⟨rest', s', hrest', hs', hwalk⟩ := ihRest 0 (passes_zero _) s₃ hs₃ tail htail
    refine ⟨e.opening attrs ++ inner' ++ (e.closing ++ rest'), s', .element hattrs hinner' hrest',
      hs', ?_⟩
    calc walk 0 s (e.opening attrs ++ inner ++ (e.closing ++ rest) ++ tail)
        = walk 0 s (e.opening attrs ++ (inner ++ (e.closing ++ (rest ++ tail)))) := by
          simp only [List.append_assoc]
      _ = e.opening attrs ++ walk 0 s₁ (inner ++ (e.closing ++ (rest ++ tail))) := hwalk₁
      _ = e.opening attrs ++ (inner' ++ walk 0 s₂ (e.closing ++ (rest ++ tail))) := by rw [hwalk₂]
      _ = e.opening attrs ++ (inner' ++ (e.closing ++ walk 0 s₃ (rest ++ tail))) :=
          congrArg (fun cs => e.opening attrs ++ (inner' ++ cs)) hwalk₃
      _ = e.opening attrs ++ inner' ++ (e.closing ++ rest') ++ walk 0 s' tail := by
          rw [hwalk]
          simp only [List.append_assoc]

theorem flow_educateMarkup {html : List Char} (h : Flow html) : Flow (educateMarkup html) := by
  unfold educateMarkup
  split
  · obtain ⟨html', s', hflow, -, hwalk⟩ := walk_flow h 0 (passes_zero _) {} rfl [] (by simp)
    rw [List.append_nil, walk, List.append_nil] at hwalk
    rw [hwalk]
    exact hflow
  · exact h

end Typography
end Bindery.Html
