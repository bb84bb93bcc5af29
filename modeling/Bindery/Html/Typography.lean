import Bindery.Text.Basic

/-!
Typographic punctuation for finished markup: curly quotes, dashes and ellipses in the text, while
tags and the content of verbatim elements stay as they are.
-/

namespace Bindery.Html.Typography

/-- Elements whose content is left alone. -/
def verbatim : List (List Char) :=
  ["code".toList, "pre".toList, "script".toList, "style".toList]

/-- What the walk remembers: the character written last, how deep it stands in verbatim elements,
and, inside a tag, the tag's characters so far with the latest first. -/
structure State where
  last : Option Char := none
  depth : Nat := 0
  tag : Option (List Char) := none
  deriving Repr, DecidableEq

/-- The depth after a tag, given the characters between its angle brackets and the closing one. -/
def depthAfter (depth : Nat) (tag : List Char) : Nat :=
  let tag := Text.asciiLower tag
  let (closing, rest) := match tag with
    | '/' :: rest => (true, rest)
    | _ => (false, tag)
  let name := rest.takeWhile fun c => !(Text.isBlank c || c == '>' || c == '/')
  if verbatim.contains name then (if closing then depth - 1 else depth + 1) else depth

/-- A quote opens at the start, after a blank, and after an opening mark. -/
def opensQuote : Option Char → Bool
  | none => true
  | some c => Text.isBlank c || "([\x7b\"'>\u201c\u2018".toList.contains c

/-- The typographic form of the text's first character, and how many of the following characters
it takes in. -/
def educate (last : Option Char) (c : Char) (cs : List Char) : Char × Nat :=
  match c, cs with
  | '-', '-' :: '-' :: _ => ('\u2014', 2)
  | '-', '-' :: _ => ('\u2013', 1)
  | '.', '.' :: '.' :: _ => ('\u2026', 2)
  | '\x22', _ => (if opensQuote last then '\u201c' else '\u201d', 0)
  | '\x27', _ => (if opensQuote last then '\u2018' else '\u2019', 0)
  | c, _ => (c, 0)

/-- Walks the markup; the first `skip` characters were taken in by the character before. -/
def walk : Nat → State → List Char → List Char
  | _, _, [] => []
  | skip + 1, s, _ :: cs => walk skip s cs
  | 0, s, c :: cs =>
    match s.tag with
    | some tag =>
      if c = '>' then
        c :: walk 0 { last := some c, depth := depthAfter s.depth (c :: tag).reverse, tag := none } cs
      else c :: walk 0 { s with last := some c, tag := some (c :: tag) } cs
    | none =>
      if c = '<' then c :: walk 0 { s with last := some c, tag := some [] } cs
      else if s.depth > 0 then c :: walk 0 { s with last := some c } cs
      else
        let (out, taken) := educate s.last c cs
        out :: walk taken { s with last := some out } cs

/-- Markup without a quote, an apostrophe, a hyphen or three dots in a row needs no walk. -/
def needsWalk (html : List Char) : Bool :=
  html.any (fun c => c == '\x22' || c == '\x27' || c == '-') || Text.hasInfix "...".toList html

def educateMarkup (html : List Char) : List Char :=
  if needsWalk html then walk 0 {} html else html

end Bindery.Html.Typography
