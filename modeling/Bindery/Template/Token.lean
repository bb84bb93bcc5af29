import Bindery.Template.Value
import Bindery.Text.Basic
import Bindery.Text.Numeral

/-!
The tokens of a template. Text stands between tags; a hyphen inside a tag's mark takes the blanks
on that side of the tag away.
-/

namespace Bindery.Template

/-- The marks that set tags off from text. -/
structure Marks where
  blockOpen : List Char
  blockClose : List Char
  commentOpen : List Char
  commentClose : List Char

namespace Marks

def outputOpen : List Char := ['\x7b', '\x7b']

def outputClose : List Char := ['\x7d', '\x7d']

def standard : Marks :=
  ⟨['\x7b', '%'], ['%', '\x7d'], ['\x7b', '#'], ['#', '\x7d']⟩

/-- Marks for the text of documents, in which only expressions are looked for. -/
def content : Marks :=
  ⟨['\x01', '%'], ['%', '\x01'], ['\x01', '#'], ['#', '\x01']⟩

end Marks

inductive Token where
  | text (cs : List Char)
  | outputOpen
  | outputClose
  | blockOpen
  | blockClose
  | name (s : String)
  | str (s : String)
  | num (n : Number)
  | mark (s : String)
  deriving Repr, BEq, Inhabited

namespace Token

inductive Tag where
  | output
  | block
  | comment
  deriving Repr, DecidableEq

/-- The tag that opens at the front of a text, and the text after its mark. -/
def tagAt? (m : Marks) (cs : List Char) : Option (Tag × List Char) :=
  match Text.afterWord? Marks.outputOpen cs with
  | some rest => some (.output, rest)
  | none =>
    match Text.afterWord? m.blockOpen cs with
    | some rest => some (.block, rest)
    | none => (Text.afterWord? m.commentOpen cs).map (.comment, ·)

/-- The text before the first tag, that tag, and the text after its mark. -/
def splitTag (m : Marks) : List Char → List Char × Option (Tag × List Char)
  | [] => ([], none)
  | c :: cs =>
    match tagAt? m (c :: cs) with
    | some found => ([], some found)
    | none =>
      let (before, found) := splitTag m cs
      (c :: before, found)

/-- Takes the sign off that says how blanks before a tag are treated: whether it is a hyphen. -/
def takeSign : List Char → Bool × List Char
  | '-' :: cs => (true, cs)
  | '+' :: cs => (false, cs)
  | cs => (false, cs)

/-- The text after a closing mark, and whether it takes blanks away. -/
def afterClose? (close cs : List Char) : Option (Bool × List Char) :=
  match Text.afterWord? close cs with
  | some rest => some (false, rest)
  | none =>
    match Text.afterWord? ('-' :: close) cs with
    | some rest => some (true, rest)
    | none => (Text.afterWord? ('+' :: close) cs).map (false, ·)

/-- The text after a comment, and whether it takes blanks away. -/
def afterComment? (m : Marks) : List Char → Option (Bool × List Char)
  | [] => none
  | c :: cs =>
    match Text.afterWord? m.commentClose (c :: cs) with
    | some rest => some (false, rest)
    | none =>
      match Text.afterWord? ('-' :: m.commentClose) (c :: cs) with
      | some rest => some (true, rest)
      | none => afterComment? m cs

/-- The text after a block that holds one word: whether its closing mark takes blanks away. -/
def afterWordBlock? (m : Marks) (word cs : List Char) : Option (Bool × List Char) :=
  (Text.afterWord? word (cs.dropWhile Text.isBlank)).bind fun rest =>
    afterClose? m.blockClose (rest.dropWhile Text.isBlank)

/-- The raw text up to the block that ends it, whether blanks before and after that block are
taken away, and the text after it. -/
def rawText? (m : Marks) : List Char → Option (List Char × Bool × Bool × List Char)
  | [] => none
  | c :: cs =>
    let ending := (Text.afterWord? m.blockOpen (c :: cs)).bind fun rest =>
      let (before, rest) := takeSign rest
      (afterWordBlock? m "endraw".toList rest).map fun (after, rest) => ([], before, after, rest)
    match ending with
    | some found => some found
    | none => (rawText? m cs).map fun (raw, rest) => (c :: raw, rest)

def isNameStart (c : Char) : Bool := c.isAlpha || c == '_'

def isNameChar (c : Char) : Bool := c.isAlphanum || c == '_'

def simpleEscape? (c : Char) : Option Char :=
  match c with
  | '\x22' | '\\' | '/' | '\x27' => some c
  | 'b' => some '\x08'
  | 'f' => some '\x0c'
  | 'n' => some '\n'
  | 'r' => some '\r'
  | 't' => some '\t'
  | _ => none

/-- The characters of a quoted text, escapes written out. The first `skip` were read already. -/
def unescape : Nat → List Char → Except Fault (List Char)
  | _, [] => .ok []
  | skip + 1, _ :: cs => unescape skip cs
  | 0, c :: cs =>
    if c = '\\' then
      match cs with
      | [] => .error .badEscape
      | d :: rest =>
        match simpleEscape? d with
        | some e => (unescape 1 cs).map (e :: ·)
        | none =>
          let width := if d = 'u' then 4 else if d = 'x' then 2 else 0
          let digits := rest.take width
          if width = 0 || digits.length < width ||
              !digits.all (fun x => (Text.hexDigit? x).isSome) then .error .badEscape
          else
            (unescape (width + 1) cs).map (Char.ofNat (Text.numeral 16 digits) :: ·)
    else (unescape 0 cs).map (c :: ·)

/-- A quoted text up to its closing mark, still escaped, and the text after it. -/
def quotedBody (quote : Char) (escaped : Bool) : List Char → Option (List Char × List Char)
  | [] => none
  | c :: cs =>
    if escaped then (quotedBody quote false cs).map fun (s, rest) => (c :: s, rest)
    else if c = quote then some ([], cs)
    else (quotedBody quote (c == '\\') cs).map fun (s, rest) => (c :: s, rest)

/-- The characters of a number: a run of digits with a point and an exponent. `stage` counts what
came: 0 in the whole part, 1 behind the point, 2 behind the exponent's mark, 3 in the exponent. -/
def numberLength (stage : Nat) : List Char → Nat
  | [] => 0
  | c :: cs =>
    if c = '.' && stage = 0 then numberLength 1 cs + 1
    else if (c = 'e' || c = 'E') && stage ≤ 1 then numberLength 2 cs + 1
    else if (c = '+' || c = '-') && stage = 2 then numberLength 3 cs + 1
    else if c.isDigit then numberLength (if stage = 2 then 3 else stage) cs + 1
    else if c = '_' then numberLength stage cs + 1
    else 0

def base? (c : Char) : Option Nat :=
  if c = 'x' || c = 'X' then some 16
  else if c = 'o' || c = 'O' then some 8
  else if c = 'b' || c = 'B' then some 2
  else none

/-- A number from its characters; an underscore may stand anywhere but at the end. -/
def numberOf (base : Nat) (cs : List Char) : Except Fault Number :=
  let digits := cs.filter (· != '_')
  if cs.getLast? == some '_' then .error .syntaxError
  else
    match Decimal.digits? base digits with
    | some n => if n < 1 <<< 128 then .ok (.int n) else .error .syntaxError
    | none =>
      match if base = 10 then Decimal.float? digits else none with
      | some x => .ok (.float x)
      | none => .error .syntaxError

/-- A number and the text after it. -/
def number (cs : List Char) : Except Fault (Number × List Char) :=
  match cs with
  | '0' :: c :: rest =>
    match base? c with
    | some base =>
      let digits := rest.takeWhile fun d => d == '_' || (Text.hexDigit? d).any (· < base)
      (numberOf base digits).map fun n => (n, rest.drop digits.length)
    | none => plain cs
  | cs => plain cs
where
  plain (cs : List Char) : Except Fault (Number × List Char) :=
    let n := numberLength 0 cs
    (numberOf 10 (cs.take n)).map fun x => (x, cs.drop n)

def longMarks : List String := ["//", "**", "==", "!=", ">=", "<="]

def shortMarks : List Char := "+-*/%.,:~|=><()[]\x7b\x7d".toList

/-- The next token of an expression, from its first character on, and the text after it. -/
def next (c : Char) (cs : List Char) : Except Fault (Token × List Char) :=
  if isNameStart c then
    let more := cs.takeWhile isNameChar
    .ok (.name (String.ofList (c :: more)), cs.drop more.length)
  else if c.isDigit then do
    let (n, rest) ← number (c :: cs)
    return (.num n, rest)
  else if c = '\x22' || c = '\x27' then
    match quotedBody c false cs with
    | some (body, rest) => (unescape 0 body).map fun s => (.str (String.ofList s), rest)
    | none => .error .syntaxError
  else
    let pair := String.ofList (c :: cs.take 1)
    if longMarks.contains pair then .ok (.mark pair, cs.drop 1)
    else if shortMarks.contains c then .ok (.mark c.toString, cs)
    else .error .syntaxError

/-- How much deeper in brackets a token leads. -/
def deepen (depth : Int) : Token → Int
  | .mark s =>
    if s == "(" || s == "[" || s == "\x7b" then depth + 1
    else if s == ")" || s == "]" || s == "\x7d" then depth - 1
    else depth
  | _ => depth

/-- The tokens of a tag up to its closing mark, which counts outside brackets only; whether it
takes blanks away, and the text after it. At most `steps` characters are read. -/
def inTag (close : List Char) :
    Nat → Int → List Char → Except Fault (List Token × Bool × List Char)
  | 0, _, _ => .error .syntaxError
  | steps + 1, depth, cs =>
    match cs with
    | [] => .error .syntaxError
    | c :: more =>
      if Text.isBlank c then inTag close steps depth more
      else
        match (if depth = 0 then afterClose? close cs else none) with
        | some (trims, rest) => .ok ([], trims, rest)
        | none => do
          let (t, rest) ← next c more
          let (ts, found) ← inTag close steps (deepen depth t) rest
          return (t :: ts, found)

/-- The tokens of a text, at most `steps` of its tags. `trims` holds when the tag before takes
blanks away. -/
def readFrom (m : Marks) : Nat → Bool → List Char → Except Fault (List Token)
  | 0, _, _ => .error .syntaxError
  | steps + 1, trims, cs =>
    let (lead, found) := splitTag m cs
    let lead := if trims then lead.dropWhile Text.isBlank else lead
    let put (lead : List Char) (ts : List Token) := if lead.isEmpty then ts else .text lead :: ts
    match found with
    | none => .ok (put lead [])
    | some (tag, rest) =>
      let (sign, rest) := takeSign rest
      let lead := if sign then Text.trimEnd lead else lead
      match tag with
      | .comment =>
        match afterComment? m rest with
        | some (trims, rest) => (readFrom m steps trims rest).map (put lead)
        | none => .error .syntaxError
      | .output => do
        let (ts, trims, rest) ← inTag Marks.outputClose (rest.length + 1) 0 rest
        let more ← readFrom m steps trims rest
        return put lead (.outputOpen :: ts ++ .outputClose :: more)
      | .block =>
        match afterWordBlock? m "raw".toList rest with
        | some (after, rest) =>
          match rawText? m rest with
          | some (raw, before, trims, rest) =>
            let raw := if after then raw.dropWhile Text.isBlank else raw
            let raw := if before then Text.trimEnd raw else raw
            (readFrom m steps trims rest).map fun more => put lead (put raw more)
          | none => .error .syntaxError
        | none => do
          let (ts, trims, rest) ← inTag m.blockClose (rest.length + 1) 0 rest
          let more ← readFrom m steps trims rest
          return put lead (.blockOpen :: ts ++ .blockClose :: more)

/-- A template without the line end it closes with. -/
def dropFinalEol (cs : List Char) : List Char :=
  match cs.reverse with
  | '\n' :: '\r' :: rest => rest.reverse
  | '\n' :: rest => rest.reverse
  | _ => cs

def read (m : Marks) (source : List Char) : Except Fault (List Token) :=
  readFrom m (source.length + 1) false (dropFinalEol source)

end Token
end Bindery.Template
