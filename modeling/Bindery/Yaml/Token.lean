import Bindery.Yaml.Scalar

/-!
The tokens of a YAML text. Collections in blocks open and close by indentation. A key without a
mark of its own is known only by the colon after it, so a place among the tokens is remembered for
every key that may come.
-/

namespace Bindery.Yaml

inductive Token where
  | version (major minor : Nat)
  | tagDirective (handle tagPrefix : List Char)
  | documentStart
  | documentEnd
  | blockSequenceStart
  | blockMappingStart
  | blockEnd
  | flowSequenceStart
  | flowSequenceEnd
  | flowMappingStart
  | flowMappingEnd
  | blockEntry
  | flowEntry
  | key
  | value
  | alias (name : List Char)
  | anchor (name : List Char)
  | tag (handle suffix : List Char)
  | scalar (text : List Char) (isPlain : Bool)
  | streamEnd
  deriving Repr, DecidableEq

/-- A place where a key may begin. -/
structure PossibleKey where
  mark : Mark
  /-- The number of tokens before it. -/
  number : Nat
  /-- Nothing but a key may stand there. -/
  required : Bool
  deriving Repr, DecidableEq

structure Scanner where
  cursor : Cursor
  /-- The number of open flow collections. -/
  flow : Nat := 0
  /-- The column of the open block collection, and of those around it. -/
  indent : Int := -1
  outer : List Int := []
  keyAllowed : Bool := true
  /-- The possible key of every open flow collection, and of the blocks around them. -/
  keys : List (Option PossibleKey) := [none]
  tokens : List (Token × Mark) := []
  deriving Repr

namespace Scanner

abbrev Scan := Except Fault Scanner

def fail {T : Type} (s : Scanner) (problem : String) (context : Option (String × Mark) := none) :
    Except Fault T :=
  .error ⟨problem, some s.cursor.mark, context⟩

def add (s : Scanner) (t : Token) (mark : Mark) : Scanner := { s with tokens := s.tokens ++ [(t, mark)] }

def insertAt {T : Type} (n : Nat) (t : T) (ts : List T) : List T := ts.take n ++ t :: ts.drop n

/-- Adds a token for the next `width` characters. -/
def mark (s : Scanner) (t : Token) (width : Nat) : Scanner :=
  { s.add t s.cursor.mark with cursor := s.cursor.skip width }

def setKey (s : Scanner) (key : Option PossibleKey) : Scanner :=
  { s with keys := key :: s.keys.tail }

def key? (s : Scanner) : Option PossibleKey := s.keys.head?.join

def missingColon (s : Scanner) (k : PossibleKey) : Scan :=
  s.fail "could not find expected ':'" (some ("while scanning a simple key", k.mark))

/-- Gives up the key that was possible here. -/
def removeKey (s : Scanner) : Scan :=
  match s.key? with
  | some k => if k.required then s.missingColon k else .ok (s.setKey none)
  | none => .ok s

/-- Remembers this place as that of a possible key. -/
def saveKey (s : Scanner) : Scan := do
  if s.keyAllowed then
    let required := s.flow = 0 && s.indent == s.cursor.mark.column
    let k : PossibleKey := ⟨s.cursor.mark, s.tokens.length, required⟩
    return (← s.removeKey).setKey (some k)
  else return s

/-- The longest key that needs no mark. -/
def keyLimit : Nat := 1024

/-- A key stands on one line and is not too long. -/
def validKey? (s : Scanner) : Except Fault (Option PossibleKey) :=
  match s.key? with
  | none => .ok none
  | some k =>
    let here := s.cursor.mark
    if k.mark.line < here.line || k.mark.index + keyLimit < here.index then
      if k.required then do
        let _ ← s.missingColon k
        return none
      else .ok none
    else .ok (some k)

/-- Opens a block collection at a column, when that lies deeper than the open one. -/
def roll (s : Scanner) (column : Nat) (number : Nat) (t : Token) (mark : Mark) : Scanner :=
  if s.flow = 0 && s.indent < column then
    { s with
      outer := s.indent :: s.outer
      indent := column
      tokens := insertAt number (t, mark) s.tokens }
  else s

/-- Closes the block collections deeper than a column. -/
def unroll (column : Int) : List Int → Scanner → Scanner
  | outer, s =>
    if s.flow = 0 && s.indent > column then
      match outer with
      | [] => s
      | i :: outer =>
        unroll column outer { s.add .blockEnd s.cursor.mark with indent := i, outer }
    else s

def closeTo (s : Scanner) (column : Int) : Scanner := unroll column s.outer s

/-- Says whether a key may begin at the next token. -/
def allowing (s : Scanner) (keyAllowed : Bool) : Scanner := { s with keyAllowed }

/-- Passes over blanks, comments and breaks up to the next token. -/
def toNext : Nat → Scanner → Scanner
  | 0, s => s
  | fuel + 1, s =>
    let tabs := s.flow > 0 || !s.keyAllowed
    let c := s.cursor.skipWhile fun ch => ch == ' ' || (tabs && ch == '\t')
    let c := if c.peek? == some '#' then c.takeLine.2 else c
    if c.peek?.any isBreak then
      toNext fuel { s with cursor := c.takeBreak.2, keyAllowed := s.keyAllowed || s.flow = 0 }
    else { s with cursor := c }

/-- A token that ends all blocks. -/
def closeAll (s : Scanner) : Scan := do
  return (← (s.closeTo (-1)).removeKey).allowing false

def isUriChar (flowMarks : Bool) (c : Char) : Bool :=
  isNameChar c || ";/?:@&=+$.%!~*'()".toList.contains c || (flowMarks && ",[]".toList.contains c)

/-- The octets of a text in which octets may be written by number. -/
def octets? : List Char → Option (List UInt8)
  | [] => some []
  | '%' :: a :: b :: rest => do
    let x ← Text.hexDigit? a
    let y ← Text.hexDigit? b
    return (x * 16 + y).toUInt8 :: (← octets? rest)
  | '%' :: _ => none
  | c :: rest => do return c.toString.toUTF8.toList ++ (← octets? rest)

/-- What follows the handle of a tag. -/
def uri (s : Scanner) (what : String) (start : Mark) (flowMarks mayBeEmpty : Bool) :
    Except Fault (List Char × Scanner) := do
  let (cs, cursor) := s.cursor.takeWhile (isUriChar flowMarks)
  let s := { s with cursor }
  if cs.isEmpty && !mayBeEmpty then
    s.fail "did not find expected tag URI" (some (what, start))
  else
    match (octets? cs).bind fun bytes => String.fromUTF8? ⟨bytes.toArray⟩ with
    | some text => return (text.toList, s)
    | none => s.fail "found an incorrect leading UTF-8 octet" (some (what, start))

/-- An exclamation mark, or a name between two of them; also whether it ends in one. -/
def handle (s : Scanner) : List Char × Bool × Scanner :=
  let (name, c) := (s.cursor.skip 1).takeWhile isNameChar
  if c.peek? == some '!' then ('!' :: name ++ ['!'], true, { s with cursor := c.skip 1 })
  else ('!' :: name, false, { s with cursor := c })

def scanTag (s : Scanner) : Scan := do
  let start := s.cursor.mark
  let what := "while scanning a tag"
  let (handle, suffix, s) ← show Except Fault (List Char × List Char × Scanner) from do
    if s.cursor.rest[1]? == some '<' then
      let (suffix, s) ← { s with cursor := s.cursor.skip 2 }.uri "while parsing a tag" start true false
      if s.cursor.peek? == some '>' then
        return ([], suffix, { s with cursor := s.cursor.skip 1 })
      else s.fail "did not find the expected '>'" (some (what, start))
    else
      let (handle, closed, s) := s.handle
      if closed then
        let (suffix, s) ← s.uri "while parsing a tag" start false false
        return (handle, suffix, s)
      else
        let (more, s) ← s.uri "while parsing a tag" start false true
        match handle.drop 1 ++ more with
        | [] => return ([], ['!'], s)
        | suffix => return (['!'], suffix, s)
  if opensBlank s.cursor.rest || (s.flow > 0 && s.cursor.peek? == some ',') then
    return s.add (.tag handle suffix) start
  else s.fail "did not find expected whitespace or line break" (some (what, start))

def scanAnchor (s : Scanner) (isAlias : Bool) : Scan :=
  let start := s.cursor.mark
  let (name, c) := (s.cursor.skip 1).takeWhile isNameChar
  let s := { s with cursor := c }
  if name.isEmpty || !(opensBlank c.rest || c.peek?.any "?:,]\x7d%@\x60".toList.contains) then
    s.fail "did not find expected alphabetic or numeric character"
      (some (if isAlias then "while scanning an alias" else "while scanning an anchor", start))
  else .ok (s.add (if isAlias then .alias name else .anchor name) start)

/-- A number of a version. -/
def versionNumber (s : Scanner) (start : Mark) : Except Fault (Nat × Scanner) :=
  let what := some ("while scanning a %YAML directive", start)
  let (ds, c) := s.cursor.takeWhile Scalar.isDigit
  let s := { s with cursor := c }
  if ds.length > 9 then s.fail "found extremely long version number" what
  else if ds.isEmpty then s.fail "did not find expected version number" what
  else .ok (Text.numeral 10 ds, s)

def scanDirective (s : Scanner) : Scan := do
  let start := s.cursor.mark
  let what := some ("while scanning a directive", start)
  let (name, c) := (s.cursor.skip 1).takeWhile isNameChar
  let s := { s with cursor := c }
  if name.isEmpty then s.fail "could not find expected directive name" what
  if !opensBlank c.rest then s.fail "found unexpected non-alphabetical character" what
  let s := { s with cursor := c.skipWhile isBlank }
  let s ← show Scan from do
    if name = "YAML".toList then
      let (major, s) ← s.versionNumber start
      if s.cursor.peek? != some '.' then
        s.fail "did not find expected digit or '.' character"
          (some ("while scanning a %YAML directive", start))
      let (minor, s) ← { s with cursor := s.cursor.skip 1 }.versionNumber start
      return s.add (.version major minor) start
    else if name = "TAG".toList then
      let within := some ("while scanning a %TAG directive", start)
      if s.cursor.peek? != some '!' then
        s.fail "did not find expected '!'" (some ("while scanning a directive", start))
      let (handle, closed, s) := s.handle
      if !closed && handle != ['!'] then
        s.fail "did not find expected '!'" (some ("while parsing a directive", start))
      if !s.cursor.peek?.any isBlank then s.fail "did not find expected whitespace" within
      let s := { s with cursor := s.cursor.skipWhile isBlank }
      let (tagPrefix, s) ← s.uri "while parsing a %TAG directive" start true false
      if !opensBlank s.cursor.rest then
        s.fail "did not find expected whitespace or line break" within
      return s.add (.tagDirective handle tagPrefix) start
    else s.fail "found unknown directive name" what
  let c := s.cursor.skipWhile isBlank
  let c := if c.peek? == some '#' then c.takeLine.2 else c
  let s := { s with cursor := c }
  if !opensBreak c.rest then s.fail "did not find expected comment or line break" what
  return { s with cursor := c.takeBreak.2 }

def openFlow (s : Scanner) (t : Token) : Scan := do
  let s ← s.saveKey
  return { s with keys := none :: s.keys, flow := s.flow + 1, keyAllowed := true }.mark t 1

def closeFlow (s : Scanner) (t : Token) : Scan := do
  let s ← s.removeKey
  let s := if s.flow > 0 then { s with flow := s.flow - 1, keys := s.keys.tail } else s
  return (s.allowing false).mark t 1

def entry (s : Scanner) : Scan := do
  let s ← show Scan from
    if s.flow > 0 then return s
    else if s.keyAllowed then
      return s.roll s.cursor.mark.column s.tokens.length .blockSequenceStart s.cursor.mark
    else s.fail "block sequence entries are not allowed in this context"
  return ((← s.removeKey).allowing true).mark .blockEntry 1

def explicitKey (s : Scanner) : Scan := do
  let s ← show Scan from
    if s.flow > 0 then return s
    else if s.keyAllowed then
      return s.roll s.cursor.mark.column s.tokens.length .blockMappingStart s.cursor.mark
    else s.fail "mapping keys are not allowed in this context"
  return ((← s.removeKey).allowing (s.flow = 0)).mark .key 1

def scanValue (s : Scanner) : Scan := do
  match ← s.validKey? with
  | some k =>
    let s := { s with tokens := insertAt k.number (.key, k.mark) s.tokens }
    let s := s.roll k.mark.column k.number .blockMappingStart k.mark
    return ((s.setKey none).allowing false).mark .value 1
  | none =>
    let s := s.setKey none
    let s ← show Scan from
      if s.flow > 0 then return s
      else if s.keyAllowed then
        return s.roll s.cursor.mark.column s.tokens.length .blockMappingStart s.cursor.mark
      else s.fail "mapping values are not allowed in this context"
    return (s.allowing (s.flow = 0)).mark .value 1

def scalarToken (s : Scanner) (start : Mark) (text : List Char) (isPlain : Bool) (c : Cursor) :
    Scanner :=
  { s.add (.scalar text isPlain) start with cursor := c }

/-- A character that opens no plain scalar. -/
def isIndicator (c : Char) : Bool := "-?:,[]\x7b\x7d#&*!|>'\x22%@\x60".toList.contains c

def opensPlain (s : Scanner) : Bool :=
  match s.cursor.rest with
  | [] => false
  | c :: more =>
    !(isBlankOrBreak c || isIndicator c) || (c == '-' && !more.head?.any isBlank) ||
      (s.flow == 0 && (c == '?' || c == ':') && !opensBlank more)

/-- Reads one token, with the ends of blocks before it. The text must not be at its end. -/
def next (s : Scanner) : Scan := do
  let start := s.cursor.mark
  match s.cursor.rest with
  | [] => return s
  | c :: more =>
    let marked := opensBlank more
    if start.column = 0 && c = '%' then (← s.closeAll).scanDirective
    else if s.cursor.atDocumentMark then
      return (← s.closeAll).mark (if c = '-' then .documentStart else .documentEnd) 3
    else if c = '[' then s.openFlow .flowSequenceStart
    else if c = '\x7b' then s.openFlow .flowMappingStart
    else if c = ']' then s.closeFlow .flowSequenceEnd
    else if c = '\x7d' then s.closeFlow .flowMappingEnd
    else if c = ',' then return ((← s.removeKey).allowing true).mark .flowEntry 1
    else if c = '-' && marked then s.entry
    else if c = '?' && (s.flow > 0 || marked) then s.explicitKey
    else if c = ':' && (s.flow > 0 || marked) then s.scanValue
    else if c = '*' || c = '&' then
      ((← s.saveKey).allowing false).scanAnchor (c == '*')
    else if c = '!' then ((← s.saveKey).allowing false).scanTag
    else if (c = '|' || c = '>') && s.flow = 0 then
      let s := (← s.removeKey).allowing true
      let (text, cursor) ← Scalar.block (c == '|') s.indent s.cursor
      return s.scalarToken start text false cursor
    else if c = '\x27' || c = '\x22' then
      let s := (← s.saveKey).allowing false
      let (text, cursor) ← Scalar.quoted (c == '\x22') s.cursor
      return s.scalarToken start text false cursor
    else if s.opensPlain then
      let s := (← s.saveKey).allowing false
      let (text, broken, cursor) ← Scalar.plain (s.flow > 0) (s.indent + 1).toNat s.cursor
      return { s.scalarToken start text true cursor with keyAllowed := broken }
    else
      s.fail "found character that cannot start any token"
        (some ("while scanning for the next token", start))

/-- The end of the text ends its last line. -/
def finish (s : Scanner) : Scan := do
  let m := s.cursor.mark
  let m := if m.column = 0 then m else { m with line := m.line + 1, column := 0 }
  let s ← { s with cursor := { s.cursor with mark := m } }.closeAll
  return s.add .streamEnd m

def run : Nat → Scanner → Scan
  | 0, s => .ok s
  | fuel + 1, s => do
    let s := s.toNext (s.cursor.rest.length + 1)
    let s := s.closeTo s.cursor.mark.column
    if s.cursor.rest.isEmpty then s.finish else run fuel (← s.next)

end Scanner

/-- Characters a text may hold. -/
def isAllowed (c : Char) : Bool :=
  let n := c.toNat
  n == 0x09 || n == 0x0A || n == 0x0D || (0x20 ≤ n && n ≤ 0x7E) || n == 0x85 ||
    (0xA0 ≤ n && n ≤ 0xFFFD) || 0x10000 ≤ n

/-- The tokens of a text, each with the mark of its start. -/
def Token.scan (text : List Char) : Except Fault (List (Token × Mark)) := do
  let before := text.takeWhile isAllowed
  if before.length < text.length then
    throw ⟨s!"control characters are not allowed at position {Text.byteWidth before}", none, none⟩
  let text := if text.head? == some '\uFEFF' then text.drop 1 else text
  return (← Scanner.run (text.length + 1) { cursor := ⟨text, {}⟩ }).tokens

end Bindery.Yaml
