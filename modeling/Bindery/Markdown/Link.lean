import Bindery.Text.Basic
import Bindery.Markdown.Entity
import Bindery.Markdown.Line
import Bindery.Text.Case
import Bindery.Text.Punctuation

/-!
The parts of links: labels, destinations and titles, the resource after an inline link, and link
definitions. Each reader gives what it read, as written, and the text after it.
-/

namespace Bindery.Markdown

/-- Writes out escapes and character references, and drops blanks around line ends. -/
def decodeFrom : Nat → List Char → List Char
  | _, [] => []
  | skip + 1, _ :: cs => decodeFrom skip cs
  | 0, c :: cs =>
    if c = '\\' then
      match cs with
      | d :: _ => if Text.isAsciiPunctuation d then d :: decodeFrom 1 cs else c :: decodeFrom 0 cs
      | [] => [c]
    else if c = '&' then
      match Entity.read? cs with
      | some (value, taken) => value.toList ++ decodeFrom taken cs
      | none => c :: decodeFrom 0 cs
    else if isSpaceOrTab c then
      let more := (cs.takeWhile isSpaceOrTab).length
      match cs.drop more with
      | d :: _ => if isEol d then decodeFrom more cs else c :: decodeFrom 0 cs
      | [] => c :: decodeFrom 0 cs
    else if isEol c then c :: decodeFrom (cs.takeWhile isSpaceOrTab).length cs
    else c :: decodeFrom 0 cs

def decode (cs : List Char) : List Char := decodeFrom 0 cs

/-- A label reduced to what two labels of one definition share: single spaces, and one case. -/
def normalizeLabel (label : List Char) : List Char :=
  let isGap (c : Char) := isSpaceOrTab c || isEol c
  let words := (Text.splitOn isGap label).filter (!·.isEmpty)
  Text.toUpper (Text.toLower (Text.join [' '] words))

/-- The identifier of a definition or reference. -/
def identifierOf (label : List Char) : List Char := Text.toLower (normalizeLabel label)

def labelLimit : Nat := 999

/-- A label after its opening bracket, up to its closing one. `seen` is what was read, the latest
character first, and `escaped` holds after a backslash. -/
def labelBody (escaped : Bool) (seen : List Char) : List Char → Option (List Char × List Char)
  | [] => none
  | c :: cs =>
    if seen.length > labelLimit then none
    else if escaped && (c == '[' || c == ']' || c == '\\') then labelBody false (c :: seen) cs
    else if c = '[' then none
    else if c = ']' then
      if seen.all (fun d => isSpaceOrTab d || isEol d) then none else some (seen.reverse, cs)
    else labelBody (c == '\\') (c :: seen) cs

def label? (cs : List Char) : Option (List Char × List Char) := labelBody false [] cs

/-- A destination between angle brackets, after the opening one. -/
def enclosedBody (escaped : Bool) (seen : List Char) : List Char → Option (List Char × List Char)
  | [] => none
  | c :: cs =>
    if isEol c then none
    else if escaped && (c == '<' || c == '>' || c == '\\') then enclosedBody false (c :: seen) cs
    else if c = '<' then none
    else if c = '>' then some (seen.reverse, cs)
    else enclosedBody (c == '\\') (c :: seen) cs

/-- A bare destination with balanced parentheses, at most `limit` deep, `depth` of them open. -/
def bareBody (limit depth : Nat) (escaped : Bool) (seen : List Char) :
    List Char → Option (List Char × List Char)
  | [] => if depth = 0 then some (seen.reverse, []) else none
  | c :: cs =>
    if escaped && (c == '(' || c == ')' || c == '\\') then
      bareBody limit depth false (c :: seen) cs
    else if depth = 0 && (c == ')' || isSpaceOrTab c || isEol c) then some (seen.reverse, c :: cs)
    else if c = '(' then
      if depth < limit then bareBody limit (depth + 1) false (c :: seen) cs else none
    else if c = ')' then bareBody limit (depth - 1) false (c :: seen) cs
    else if c.toNat ≤ 0x20 || c.toNat = 0x7F then none
    else bareBody limit depth (c == '\\') (c :: seen) cs

def destination? (limit : Nat) (cs : List Char) : Option (List Char × List Char) :=
  match cs with
  | [] => none
  | c :: rest =>
    if c = '<' then enclosedBody false [] rest
    else if c.toNat ≤ 0x20 || c.toNat = 0x7F || c = ')' then none
    else bareBody limit 0 false [] cs

/-- A title after its opening mark, up to `close`. -/
def titleBody (close : Char) (escaped : Bool) (seen : List Char) :
    List Char → Option (List Char × List Char)
  | [] => none
  | c :: cs =>
    if escaped && (c == close || c == '\\') then titleBody close false (c :: seen) cs
    else if c = close then some (seen.reverse, cs)
    else titleBody close (c == '\\') (c :: seen) cs

def title? (cs : List Char) : Option (List Char × List Char) :=
  match cs with
  | c :: rest =>
    if c = '\x22' || c = '\x27' then titleBody c false [] rest
    else if c = '(' then titleBody ')' false [] rest
    else none
  | [] => none

def dropGap (cs : List Char) : List Char := cs.dropWhile fun c => isSpaceOrTab c || isEol c

def startsWithGap (cs : List Char) : Bool :=
  match cs with
  | c :: _ => isSpaceOrTab c || isEol c
  | [] => false

/-- Where an inline link leads: its destination and title as written. -/
structure Resource where
  url : List Char
  title : Option (List Char)
  deriving Repr, DecidableEq

def destinationLimit : Nat := 32

/-- The end of a resource, when nothing but its closing parenthesis is left of it. -/
def closeResource (r : Resource) (cs : List Char) : Option (Resource × List Char) :=
  match cs with
  | ')' :: rest => some (r, rest)
  | _ => none

/-- A resource after its opening parenthesis. -/
def resource? (cs : List Char) : Option (Resource × List Char) :=
  let cs := dropGap cs
  match cs with
  | ')' :: rest => some (⟨[], none⟩, rest)
  | _ =>
    match destination? destinationLimit cs with
    | none => none
    | some (url, rest) =>
      if startsWithGap rest then
        let rest := dropGap rest
        match rest with
        | c :: _ =>
          if c == '\x22' || c == '\x27' || c == '(' then
            match title? rest with
            | some (t, rest) => closeResource ⟨url, some t⟩ (dropGap rest)
            | none => none
          else closeResource ⟨url, none⟩ rest
        | [] => none
      else closeResource ⟨url, none⟩ rest

/-- A link definition as written. -/
structure Definition where
  label : List Char
  url : List Char
  title : Option (List Char)
  deriving Repr, DecidableEq

/-- The text after the rest of a line that holds blanks only. -/
def blankLineEnd? (cs : List Char) : Option (List Char) :=
  match cs.dropWhile isSpaceOrTab with
  | [] => some []
  | '\r' :: '\n' :: rest => some rest
  | c :: rest => if isEol c then some rest else none

/-- The definition at the front of a paragraph's text, and the text after its last line. -/
def definition? (cs : List Char) : Option (Definition × List Char) :=
  match cs.dropWhile isSpaceOrTab with
  | '[' :: rest =>
    match label? rest with
    | some (label, ':' :: rest) =>
      match destination? rest.length (dropGap rest) with
      | none => none
      | some (url, rest) =>
        let bare := (blankLineEnd? rest).map fun rest => (⟨label, url, none⟩, rest)
        if startsWithGap rest then
          match title? (dropGap rest) with
          | some (t, after) =>
            match blankLineEnd? after with
            | some after => some (⟨label, url, some t⟩, after)
            | none => bare
          | none => bare
        else bare
    | _ => none
  | _ => none

/-- The definitions at the front of a paragraph's text, at most `steps` of them, and the text they
leave. -/
def definitions : Nat → List Char → List Definition × List Char
  | 0, cs => ([], cs)
  | steps + 1, cs =>
    match definition? cs with
    | some (d, rest) =>
      let (ds, rest) := definitions steps rest
      (d :: ds, rest)
    | none => ([], cs)

end Bindery.Markdown
