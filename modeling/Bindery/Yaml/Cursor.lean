import Bindery.Text.Basic

/-!
A place in a YAML text, and what is read there a character at a time: breaks, blanks, and the gaps
between the words of a scalar.
-/

namespace Bindery.Yaml

/-- A place in a text, counted from zero. -/
structure Mark where
  line : Nat := 0
  column : Nat := 0
  index : Nat := 0
  deriving Repr, DecidableEq, Inhabited

namespace Mark

def sameSpot (a b : Mark) : Bool := a.line == b.line && a.column == b.column

def text (m : Mark) : String :=
  if m.line = 0 && m.column = 0 then "position " ++ toString m.index
  else s!"line {m.line + 1} column {m.column + 1}"

end Mark

/-- What is wrong, where, and what was being read. -/
structure Fault where
  problem : String
  mark : Option Mark := none
  context : Option (String × Mark) := none
  deriving Repr, DecidableEq

def Fault.message (f : Fault) : String :=
  let mark := f.mark.getD {}
  let place := if mark.line = 0 && mark.column = 0 then "" else " at " ++ mark.text
  let context := match f.context with
    | some (what, start) =>
      ", " ++ what ++ (if start.sameSpot mark then "" else " at " ++ start.text)
    | none => ""
  f.problem ++ place ++ context

structure Cursor where
  rest : List Char
  mark : Mark := {}
  deriving Repr, DecidableEq

def isBreak (c : Char) : Bool :=
  c == '\n' || c == '\r' || c == '\u0085' || c == '\u2028' || c == '\u2029'

def isBlank (c : Char) : Bool := c == ' ' || c == '\t'

def isBlankOrBreak (c : Char) : Bool := isBlank c || isBreak c

/-- A blank, a break or the end of the text. -/
def opensBlank : List Char → Bool
  | [] => true
  | c :: _ => isBlankOrBreak c

/-- A break or the end of the text. -/
def opensBreak : List Char → Bool
  | [] => true
  | c :: _ => isBreak c

/-- What names are made of. -/
def isNameChar (c : Char) : Bool := Text.isAsciiAlnum c || c == '_' || c == '-'

namespace Cursor

def peek? (c : Cursor) : Option Char := c.rest.head?

/-- Passes over characters that are no breaks. -/
def skip (c : Cursor) (n : Nat) : Cursor where
  rest := c.rest.drop n
  mark := { c.mark with column := c.mark.column + n, index := c.mark.index + n }

def nextLine (c : Cursor) (width : Nat) : Cursor where
  rest := c.rest.drop width
  mark := { line := c.mark.line + 1, column := 0, index := c.mark.index + width }

/-- Passes over a break, and gives the text it stands for. -/
def takeBreak (c : Cursor) : List Char × Cursor :=
  match c.rest with
  | '\r' :: '\n' :: _ => (['\n'], c.nextLine 2)
  | b :: _ =>
    if b = '\u2028' || b = '\u2029' then ([b], c.nextLine 1)
    else if isBreak b then (['\n'], c.nextLine 1)
    else ([], c)
  | [] => ([], c)

/-- The characters at the front on which `p` holds. They must be no breaks. -/
def takeWhile (c : Cursor) (p : Char → Bool) : List Char × Cursor :=
  let cs := c.rest.takeWhile p
  (cs, c.skip cs.length)

def skipWhile (c : Cursor) (p : Char → Bool) : Cursor := (c.takeWhile p).2

/-- The rest of the line. -/
def takeLine (c : Cursor) : List Char × Cursor := c.takeWhile (!isBreak ·)

/-- Three hyphens or points alone at the front of a line. -/
def atDocumentMark (c : Cursor) : Bool :=
  c.mark.column == 0 &&
    match c.rest with
    | a :: b :: d :: rest =>
      ((a == '-' && b == '-' && d == '-') || (a == '.' && b == '.' && d == '.')) && opensBlank rest
    | _ => false

end Cursor

/-- Blanks and breaks between words: the blanks before the first break, the text of that break,
and those after it. -/
structure Gap where
  blanks : List Char := []
  first : List Char := []
  more : List Char := []
  broken : Bool := false
  deriving Repr, DecidableEq

namespace Gap

/-- What a gap leaves in the scalar: one line feed becomes a space, of several the first is lost. -/
def text (g : Gap) : List Char :=
  if g.broken then
    if g.first.head? == some '\n' then (if g.more.isEmpty then [' '] else g.more)
    else g.first ++ g.more
  else g.blanks

def add (g : Gap) (lineBreak : List Char) : Gap :=
  if g.broken then { g with more := g.more ++ lineBreak }
  else { blanks := [], first := lineBreak, more := [], broken := true }

/-- Reads a gap on. After a break, no tab may stand left of column `indent`. -/
def readOn (context : String × Mark) (indent : Nat) :
    Nat → Gap → Cursor → Except Fault (Gap × Cursor)
  | 0, g, c => .ok (g, c)
  | fuel + 1, g, c =>
    match c.peek? with
    | none => .ok (g, c)
    | some ch =>
      if isBlank ch then
        if g.broken && c.mark.column < indent && ch = '\t' then
          .error ⟨"found a tab character that violates indentation", some c.mark, some context⟩
        else
          let g := if g.broken then g else { g with blanks := g.blanks ++ [ch] }
          readOn context indent fuel g (c.skip 1)
      else if isBreak ch then
        let (lineBreak, c) := c.takeBreak
        readOn context indent fuel (g.add lineBreak) c
      else .ok (g, c)

end Gap
end Bindery.Yaml
