/-!
Lines of a document, and a cursor along one line that counts columns, a tab reaching to the next
multiple of four.
-/

namespace Bindery.Markdown

def isSpaceOrTab (c : Char) : Bool := c == ' ' || c == '\t'

def isEol (c : Char) : Bool := c == '\n' || c == '\r'

/-- A line and the line end it was written with; the last line may have none. -/
structure Line where
  text : List Char
  eol : List Char
  deriving Repr, DecidableEq, Inhabited

/-- Cuts a text into lines. `line` is the line so far, the latest character first. -/
def splitLines (line : List Char) : List Char → List Line
  | [] => if line.isEmpty then [] else [⟨line.reverse, []⟩]
  | '\r' :: '\n' :: cs => ⟨line.reverse, ['\r', '\n']⟩ :: splitLines [] cs
  | '\r' :: cs => ⟨line.reverse, ['\r']⟩ :: splitLines [] cs
  | '\n' :: cs => ⟨line.reverse, ['\n']⟩ :: splitLines [] cs
  | c :: cs => splitLines (c :: line) cs

/-- The lines with the line ends between them, without the last one. -/
def joinLines : List Line → List Char
  | [] => []
  | [l] => l.text
  | l :: ls => l.text ++ l.eol ++ joinLines ls

/-- The rest of a line from some column on. `pending` columns of a tab that was entered come
first. -/
structure Cursor where
  column : Nat
  pending : Nat
  rest : List Char
  deriving Repr, DecidableEq, Inhabited

def tabWidth : Nat := 4

namespace Cursor

def start (cs : List Char) : Cursor := ⟨0, 0, cs⟩

/-- The columns of blanks at the front of a text that starts in `column`. -/
def blankColumns (column : Nat) : List Char → Nat
  | ' ' :: cs => blankColumns (column + 1) cs + 1
  | '\t' :: cs =>
    let width := tabWidth - column % tabWidth
    blankColumns (column + width) cs + width
  | _ => 0

def indent (c : Cursor) : Nat := c.pending + blankColumns (c.column + c.pending) c.rest

def isBlank (c : Cursor) : Bool := c.rest.all isSpaceOrTab

/-- Moves on by at most `n` columns of blanks. -/
def skip : Nat → Cursor → Cursor
  | 0, c => c
  | n + 1, ⟨column, pending + 1, rest⟩ => skip n ⟨column + 1, pending, rest⟩
  | n + 1, ⟨column, 0, ' ' :: rest⟩ => skip n ⟨column + 1, 0, rest⟩
  | n + 1, ⟨column, 0, '\t' :: rest⟩ =>
    skip n ⟨column + 1, tabWidth - column % tabWidth - 1, rest⟩
  | _ + 1, c => c

/-- Past all blanks. -/
def skipBlanks (c : Cursor) : Cursor := c.skip c.indent

/-- Moves on by `n` characters that are no tabs. -/
def advance (n : Nat) (c : Cursor) : Cursor := ⟨c.column + n, 0, c.rest.drop n⟩

/-- What is left of the line, a split tab written as spaces. -/
def text (c : Cursor) : List Char := List.replicate c.pending ' ' ++ c.rest

end Cursor
end Bindery.Markdown
