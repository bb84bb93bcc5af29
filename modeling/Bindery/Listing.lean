import Bindery.Text.Basic

/-!
Listing a text with line numbers, for a page that is printed instead of written.
-/

namespace Bindery.Listing

/-- The width of a printed row in bytes. -/
def printWidth : Nat := 100

/-- Cuts a line into pieces of at most `width` bytes between characters. `row` is the piece so
far, the latest character first, and `used` its width. -/
def splitRow (width : Nat) : List Char → Nat → List Char → List (List Char)
  | row, _, [] => [row.reverse]
  | row, used, c :: cs =>
    if used + c.utf8Size > width && used > 0 then
      row.reverse :: splitRow width [c] c.utf8Size cs
    else splitRow width (c :: row) (used + c.utf8Size) cs

def rows (width : Nat) (line : List Char) : List (List Char) := splitRow width [] 0 line

/-- The lines to print: a final line feed closes the last line and opens no other. -/
def printedLines (code : List Char) : List (List Char) :=
  let ls := Text.lines code
  if ls.length > 1 && ls.getLast? == some [] then ls.dropLast else ls

def padLeft (width : Nat) (cs : List Char) : List Char :=
  List.replicate (width - cs.length) ' ' ++ cs

def numberText (n : Nat) : List Char := (toString n).toList

/-- One line of code as printed rows; only the first row carries the number. -/
def printLine (width digits number : Nat) (line : List Char) : List Char :=
  match rows width line with
  | [] => []
  | first :: more =>
    padLeft digits (numberText number) ++ ". ".toList ++ first ++ ['\n'] ++
      more.flatMap fun row => List.replicate (digits + 2) ' ' ++ row ++ ['\n']

/-- The listing of `code`: numbered rows between two rules. -/
def render (width : Nat) (code : List Char) : List Char :=
  let ls := printedLines code
  let digits := (numberText ls.length).length
  let rule := List.replicate (width + digits + 2) '='
  "\nPrint content to stdout\n".toList ++ rule ++ ['\n'] ++
    (ls.zipIdx 1).flatMap (fun (line, number) => printLine width digits number line) ++
    rule ++ ['\n']

end Bindery.Listing
