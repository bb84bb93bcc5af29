import Bindery.Json.Basic
import Bindery.Text.Basic
import Bindery.Text.Numeral

/-!
Reading structured data from text. What is wrong with a text, and where, is part of the answer.
A later field of a name replaces an earlier one.
-/

namespace Bindery.Json

/-- What a text lacks or holds that it must not. -/
inductive Cause where
  | endInList | endInObject | endInString | endInValue
  | expectedColon | expectedListEnd | expectedObjectEnd | expectedIdent | expectedValue
  | badEscape | badNumber | outOfRange | controlCharacter | keyNotString | loneSurrogate
  | trailingComma | trailingText | endOfHexEscape | tooDeep
  deriving Repr, DecidableEq

def Cause.message : Cause → String
  | .endInList => "EOF while parsing a list"
  | .endInObject => "EOF while parsing an object"
  | .endInString => "EOF while parsing a string"
  | .endInValue => "EOF while parsing a value"
  | .expectedColon => "expected `:`"
  | .expectedListEnd => "expected `,` or `]`"
  | .expectedObjectEnd => "expected `,` or `\x7d`"
  | .expectedIdent => "expected ident"
  | .expectedValue => "expected value"
  | .badEscape => "invalid escape"
  | .badNumber => "invalid number"
  | .outOfRange => "number out of range"
  | .controlCharacter => "control character (\\u0000-\\u001F) found while parsing a string"
  | .keyNotString => "key must be a string"
  | .loneSurrogate => "lone leading surrogate in hex escape"
  | .trailingComma => "trailing comma"
  | .trailingText => "trailing characters"
  | .endOfHexEscape => "unexpected end of hex escape"
  | .tooDeep => "recursion limit exceeded"

/-- A cause with the text left where it was seen; `ahead` when the fault is the next character
and not the one read last. -/
structure Fault where
  cause : Cause
  rest : List Char
  ahead : Bool
  deriving Repr, DecidableEq

/-- A cause with its line and the byte on that line. -/
structure ParseError where
  cause : Cause
  line : Nat
  column : Nat
  deriving Repr, DecidableEq

def ParseError.message (e : ParseError) : String :=
  s!"{e.cause.message} at line {e.line} column {e.column}"

/-- The reading of a `T` from the front of a text. -/
abbrev Reading (T : Type) := Except Fault (T × List Char)

def failAt {T : Type} (cause : Cause) (rest : List Char) : Reading T :=
  .error ⟨cause, rest, false⟩

def failAhead {T : Type} (cause : Cause) (rest : List Char) : Reading T :=
  .error ⟨cause, rest, true⟩

def isSpace (c : Char) : Bool := c == ' ' || c == '\n' || c == '\t' || c == '\r'

def skipSpace (cs : List Char) : List Char := cs.dropWhile isSpace

def word (value : Json) : List Char → List Char → Reading Json
  | [], cs => .ok (value, cs)
  | _ :: _, [] => failAt .endInValue []
  | w :: ws, c :: cs => if w = c then word value ws cs else failAt .expectedIdent cs

/-- Four hexadecimal digits. -/
def hex4 : List Char → Reading Nat
  | a :: b :: c :: d :: rest =>
    match Text.hexDigit? a, Text.hexDigit? b, Text.hexDigit? c, Text.hexDigit? d with
    | some w, some x, some y, some z => .ok (((w * 16 + x) * 16 + y) * 16 + z, rest)
    | _, _, _, _ => failAt .badEscape rest
  | _ => failAt .endInString []

/-- The character written after `\u`. -/
def unicodeEscape (cs : List Char) : Except Fault (Char × List Char) := do
  let (n, rest) ← hex4 cs
  if 0xDC00 ≤ n && n ≤ 0xDFFF then failAt .loneSurrogate rest
  else if 0xD800 ≤ n && n ≤ 0xDBFF then
    match rest with
    | '\\' :: 'u' :: more =>
      let (m, rest) ← hex4 more
      if 0xDC00 ≤ m && m ≤ 0xDFFF then
        return (Char.ofNat (0x10000 + (n - 0xD800) * 0x400 + (m - 0xDC00)), rest)
      else failAt .loneSurrogate rest
    | '\\' :: _ :: more => failAt .endOfHexEscape more
    | ['\\'] => failAt .endInString []
    | _ :: more => failAt .endOfHexEscape more
    | [] => failAt .endInString []
  else return (Char.ofNat n, rest)

def escape (cs : List Char) : Reading Char :=
  match cs with
  | [] => failAt .endInString []
  | c :: rest =>
    match c with
    | '\x22' => .ok ('\x22', rest)
    | '\\' => .ok ('\\', rest)
    | '/' => .ok ('/', rest)
    | 'b' => .ok ('\x08', rest)
    | 'f' => .ok ('\x0c', rest)
    | 'n' => .ok ('\n', rest)
    | 'r' => .ok ('\r', rest)
    | 't' => .ok ('\t', rest)
    | 'u' => unicodeEscape rest
    | _ => failAt .badEscape rest

/-- The rest of a string after its opening quote; `seen` is what was read, the latest first. -/
def stringBody : Nat → List Char → List Char → Reading String
  | 0, _, cs => failAt .endInString cs
  | _ + 1, _, [] => failAt .endInString []
  | fuel + 1, seen, c :: cs =>
    if c = '\x22' then .ok (String.ofList seen.reverse, cs)
    else if c = '\\' then
      match escape cs with
      | .ok (d, rest) => stringBody fuel (d :: seen) rest
      | .error e => .error e
    else if c.toNat < 0x20 then failAt .controlCharacter cs
    else stringBody fuel (c :: seen) cs

def isDigit (c : Char) : Bool := '0' ≤ c && c ≤ '9'

def digitValue (c : Char) : Nat := c.toNat - 48

/-- The digits at the front that fit 64 bits, as a number. -/
def fittingDigits (limit : Nat) : Nat → List Char → Nat × List Char
  | n, c :: cs =>
    if isDigit c && n * 10 + digitValue c ≤ limit then
      fittingDigits limit (n * 10 + digitValue c) cs
    else (n, c :: cs)
  | n, [] => (n, [])

def wordLimit : Nat := 1 <<< 64 - 1

def exponentLimit : Nat := 1 <<< 31 - 1

/-- The float nearest to a significand, scaled by one power of ten at a time. -/
def scaleFloat : Nat → Float → Int → Option Float
  | 0, f, _ => some f
  | fuel + 1, f, e =>
    if e.natAbs ≤ 308 then
      let power := Float.ofScientific 1 false e.natAbs
      if e ≥ 0 then
        let g := f * power
        if g.isInf then none else some g
      else some (f / power)
    else if f == 0 then some f
    else if e ≥ 0 then none
    else scaleFloat fuel (f / Float.ofScientific 1 false 308) (e + 308)

def floatOf (negative : Bool) (significand : Nat) (exponent : Int) (rest : List Char) :
    Reading Number :=
  match scaleFloat (exponent.natAbs / 308 + 2) significand.toFloat exponent with
  | some f => .ok (.float (if negative then -f else f), rest)
  | none => failAt .outOfRange rest

def exponentPart (negative : Bool) (significand : Nat) (start : Int) (cs : List Char) :
    Reading Number :=
  let (down, cs) := match cs with
    | '+' :: rest => (false, rest)
    | '-' :: rest => (true, rest)
    | _ => (false, cs)
  match cs with
  | [] => failAt .endInValue []
  | c :: rest =>
    if isDigit c then
      let (e, rest) := fittingDigits exponentLimit (digitValue c) rest
      match rest with
      | d :: more =>
        if isDigit d then
          if significand ≠ 0 && !down then failAt .outOfRange more
          else .ok (.float (if negative then -0.0 else 0.0), rest.dropWhile isDigit)
        else floatOf negative significand (if down then start - e else start + e) rest
      | [] => floatOf negative significand (if down then start - e else start + e) rest
    else failAt .badNumber rest

def isExponentMark (c : Char) : Bool := c == 'e' || c == 'E'

def decimalPart (negative : Bool) (significand : Nat) (start : Int) (cs : List Char) :
    Reading Number :=
  match cs with
  | [] => failAhead .endInValue []
  | c :: _ =>
    if isDigit c then
      let (n, rest) := fittingDigits wordLimit significand cs
      let exponent := start - ((cs.length - rest.length : Nat) : Int)
      match rest.dropWhile isDigit with
      | d :: more =>
        if isExponentMark d then exponentPart negative n exponent more
        else floatOf negative n exponent (d :: more)
      | [] => floatOf negative n exponent []
    else failAhead .badNumber cs

/-- What follows an integer part. -/
def numberTail (negative : Bool) (n : Nat) (cs : List Char) : Reading Number :=
  match cs with
  | '.' :: rest => decimalPart negative n 0 rest
  | c :: rest =>
    if isExponentMark c then exponentPart negative n 0 rest else whole cs
  | [] => whole []
where
  whole (cs : List Char) : Reading Number :=
    if !negative then .ok (.int n, cs)
    else if n = 0 || n > 1 <<< 63 then .ok (.float (-n.toFloat), cs)
    else .ok (.int (-n), cs)

/-- An integer part too long for 64 bits makes a float. -/
def longNumber (negative : Bool) (n : Nat) (cs : List Char) : Reading Number :=
  let rest := cs.dropWhile isDigit
  let exponent : Int := (cs.length - rest.length : Nat)
  match rest with
  | '.' :: more => decimalPart negative n exponent more
  | c :: more =>
    if isExponentMark c then exponentPart negative n exponent more
    else floatOf negative n exponent rest
  | [] => floatOf negative n exponent []

def number (negative : Bool) (cs : List Char) : Reading Number :=
  match cs with
  | [] => failAt .endInValue []
  | c :: rest =>
    if c = '0' then
      match rest with
      | d :: _ => if isDigit d then failAhead .badNumber rest else numberTail negative 0 rest
      | [] => numberTail negative 0 []
    else if isDigit c then
      let (n, rest) := fittingDigits wordLimit (digitValue c) rest
      match rest with
      | d :: _ => if isDigit d then longNumber negative n rest else numberTail negative n rest
      | [] => numberTail negative n []
    else failAt .badNumber rest

def numeric (r : Reading Number) : Reading Json := r.map fun (n, rest) => (.num n, rest)

mutual

/-- A value, with at most `depth` lists and objects inside each other. -/
def value : Nat → Nat → List Char → Reading Json
  | 0, _, cs => failAhead .tooDeep cs
  | fuel + 1, depth, cs =>
    let cs := skipSpace cs
    match cs with
    | [] => failAhead .endInValue []
    | c :: rest =>
      if c = 'n' then word .null "ull".toList rest
      else if c = 't' then word (.bool true) "rue".toList rest
      else if c = 'f' then word (.bool false) "alse".toList rest
      else if c = '-' then numeric (number true rest)
      else if isDigit c then numeric (number false cs)
      else if c = '\x22' then
        (stringBody (rest.length + 1) [] rest).map fun (s, rest) => (.str s, rest)
      else if c = '[' then
        match depth with
        | 0 => failAhead .tooDeep cs
        | 1 => failAhead .tooDeep cs
        | depth + 2 => (items fuel (depth + 1) true rest).map fun (vs, rest) => (.arr vs, rest)
      else if c = '{' then
        match depth with
        | 0 => failAhead .tooDeep cs
        | 1 => failAhead .tooDeep cs
        | depth + 2 =>
          (fields fuel (depth + 1) true [] rest).map fun (fs, rest) => (.obj fs, rest)
      else failAhead .expectedValue cs

/-- The items of a list up to its closing bracket. -/
def items : Nat → Nat → Bool → List Char → Reading (List Json)
  | 0, _, _, cs => failAhead .tooDeep cs
  | fuel + 1, depth, first, cs =>
    match skipSpace cs with
    | [] => failAhead .endInList []
    | c :: rest =>
      if c = ']' then .ok ([], rest)
      else if !first && c ≠ ',' then failAhead .expectedListEnd (c :: rest)
      else
        let rest := if first then c :: rest else skipSpace rest
        match rest with
        | [] => failAhead .endInValue []
        | d :: _ =>
          if d = ']' then failAhead .trailingComma rest
          else
            match value fuel depth rest with
            | .error e => .error e
            | .ok (v, rest) => (items fuel depth false rest).map fun (vs, rest) => (v :: vs, rest)

/-- The fields of an object up to its closing brace, on top of those read before. -/
def fields : Nat → Nat → Bool → Fields → List Char → Reading Fields
  | 0, _, _, _, cs => failAhead .tooDeep cs
  | fuel + 1, depth, first, seen, cs =>
    match skipSpace cs with
    | [] => failAhead .endInObject []
    | c :: rest =>
      if c = '}' then .ok (seen, rest)
      else if !first && c ≠ ',' then failAhead .expectedObjectEnd (c :: rest)
      else
        let rest := if first then c :: rest else skipSpace rest
        match rest with
        | [] => failAhead .endInValue []
        | d :: more =>
          if d = '}' then failAhead .trailingComma rest
          else if d ≠ '\x22' then failAhead .keyNotString rest
          else
            match stringBody (more.length + 1) [] more with
            | .error e => .error e
            | .ok (name, rest) =>
              match skipSpace rest with
              | [] => failAhead .endInObject []
              | e :: rest =>
                if e ≠ ':' then failAhead .expectedColon (e :: rest)
                else
                  match value fuel depth rest with
                  | .error e => .error e
                  | .ok (v, rest) => fields fuel depth false (Fields.insert name v seen) rest

end

/-- The place of a fault in the text it was found in. -/
def Fault.locate (e : Fault) (text : List Char) : ParseError :=
  let before := text.take (text.length - e.rest.length)
  let line := (before.reverse.takeWhile (· != '\n')).reverse
  let width := Text.byteWidth line
  { cause := e.cause
    line := before.count '\n' + 1
    column := if e.ahead && !e.rest.isEmpty then width + 1 else width }

/-- The nesting that is read at most. -/
def depthLimit : Nat := 128

/-- Reads a text that holds one value and nothing else. -/
def parse (s : String) : Except ParseError Json :=
  let cs := s.toList
  match value (2 * cs.length + 4) depthLimit cs with
  | .error e => .error (e.locate cs)
  | .ok (v, rest) =>
    let rest := skipSpace rest
    if rest.isEmpty then .ok v else .error (Fault.locate ⟨.trailingText, rest, true⟩ cs)

end Bindery.Json
