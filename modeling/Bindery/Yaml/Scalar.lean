import Bindery.Text.Numeral
import Bindery.Yaml.Cursor

/-!
The scalars of a YAML text: quoted, plain, and in blocks of lines.
-/

namespace Bindery.Yaml.Scalar

def quotedContext (start : Mark) : String × Mark := ("while scanning a quoted scalar", start)

/-- The character of an escape of one letter. -/
def escaped? : Char → Option Char
  | '0' => some '\x00'
  | 'a' => some '\x07'
  | 'b' => some '\x08'
  | 't' | '\t' => some '\t'
  | 'n' => some '\n'
  | 'v' => some '\x0b'
  | 'f' => some '\x0c'
  | 'r' => some '\r'
  | 'e' => some '\x1b'
  | ' ' => some ' '
  | '\x22' => some '\x22'
  | '/' => some '/'
  | '\\' => some '\\'
  | 'N' => some '\u0085'
  | '_' => some '\u00a0'
  | 'L' => some '\u2028'
  | 'P' => some '\u2029'
  | _ => none

/-- The number of digits after an escape by number. -/
def escapeWidth? : Char → Option Nat
  | 'x' => some 2
  | 'u' => some 4
  | 'U' => some 8
  | _ => none

/-- The character after a backslash. -/
def escape (start : Mark) (c : Cursor) : Except Fault (Char × Cursor) :=
  let context := some ("while parsing a quoted scalar", start)
  match c.rest with
  | _ :: d :: digits =>
    match escaped? d with
    | some e => .ok (e, c.skip 2)
    | none =>
      match escapeWidth? d with
      | none => .error ⟨"found unknown escape character", some c.mark, context⟩
      | some width =>
        let c := c.skip 2
        let ds := digits.take width
        if ds.length < width || ds.any fun h => (Text.hexDigit? h).isNone then
          .error ⟨"did not find expected hexdecimal number", some c.mark, context⟩
        else
          let n := Text.numeral 16 ds
          if (0xD800 ≤ n && n ≤ 0xDFFF) || n > 0x10FFFF then
            .error ⟨"found invalid Unicode character escape code", some c.mark, context⟩
          else .ok (Char.ofNat n, c.skip width)
  | _ => .error ⟨"found unknown escape character", some c.mark, context⟩

/-- A quoted scalar after its opening quote. -/
def quotedFrom (start : Mark) (double : Bool) : Nat → Cursor → Except Fault (List Char × Cursor)
  | 0, c => .error ⟨"found unexpected end of stream", some c.mark, some (quotedContext start)⟩
  | fuel + 1, c =>
    if c.atDocumentMark then
      .error ⟨"found unexpected document indicator", some c.mark, some (quotedContext start)⟩
    else
      let on (before : List Char) (c : Cursor) : Except Fault (List Char × Cursor) := do
        let (cs, c) ← quotedFrom start double fuel c
        return (before ++ cs, c)
      let gap (g : Gap) (c : Cursor) : Except Fault (List Char × Cursor) := do
        let (g, c) ← g.readOn (quotedContext start) 0 (c.rest.length + 1) c
        on g.text c
      match c.rest with
      | [] => .error ⟨"found unexpected end of stream", some c.mark, some (quotedContext start)⟩
      | ch :: more =>
        if isBlankOrBreak ch then gap {} c
        else if ch = (if double then '\x22' else '\x27') then
          if !double && more.head? == some '\x27' then on ['\x27'] (c.skip 2)
          else .ok ([], c.skip 1)
        else if double && ch = '\\' then
          if more.head?.any isBreak then gap { broken := true } (c.skip 1).takeBreak.2
          else do
            let (e, c) ← escape start c
            on [e] c
        else on [ch] (c.skip 1)

def quoted (double : Bool) (c : Cursor) : Except Fault (List Char × Cursor) :=
  quotedFrom c.mark double (c.rest.length + 1) (c.skip 1)

def isFlowMark (c : Char) : Bool :=
  c == ',' || c == '[' || c == ']' || c == '\x7b' || c == '\x7d'

/-- A plain scalar, after a gap that is lost when nothing follows it. The answer tells whether a
gap with a break was passed at its end. -/
def plainFrom (start : Mark) (inFlow : Bool) (indent : Nat) :
    Nat → Option Gap → Cursor → Except Fault (List Char × Bool × Cursor)
  | 0, _, c => .ok ([], false, c)
  | fuel + 1, gap, c =>
    let stop : Except Fault (List Char × Bool × Cursor) := .ok ([], gap.any (·.broken), c)
    if gap.isSome && (c.atDocumentMark || c.peek? == some '#') then stop
    else
      match c.rest with
      | [] => stop
      | ch :: more =>
        let context := ("while scanning a plain scalar", start)
        if isBlankOrBreak ch then do
          let (g, c) ← Gap.readOn context indent (c.rest.length + 1) {} c
          if !inFlow && c.mark.column < indent then return ([], g.broken, c)
          else plainFrom start inFlow indent fuel (some g) c
        else if inFlow && ch = ':' && more.head?.any fun d => isFlowMark d || d == '?' then
          .error ⟨"found unexpected ':'", some c.mark, some context⟩
        else if (ch = ':' && opensBlank more) || (inFlow && isFlowMark ch) then stop
        else do
          let (cs, broken, c) ← plainFrom start inFlow indent fuel none (c.skip 1)
          return ((gap.map Gap.text).getD [] ++ ch :: cs, broken, c)

def plain (inFlow : Bool) (indent : Nat) (c : Cursor) :
    Except Fault (List Char × Bool × Cursor) :=
  plainFrom c.mark inFlow indent (c.rest.length + 1) none c

/-- What becomes of the breaks at the end of a block. -/
inductive Chomping where
  | strip
  | clip
  | keep
  deriving Repr, DecidableEq

def blockContext (start : Mark) : String × Mark := ("while scanning a block scalar", start)

/-- The indentation and the empty lines before a line of a block, with the widest column seen. An
indentation of zero is not known yet. -/
def indentFrom (start : Mark) (indent : Nat) :
    Nat → Nat → Cursor → Except Fault (List Char × Nat × Cursor)
  | 0, widest, c => .ok ([], widest, c)
  | fuel + 1, widest, c =>
    let spaces := (c.rest.takeWhile (· == ' ')).length
    let c := c.skip (if indent = 0 then spaces else min spaces (indent - c.mark.column))
    let widest := max widest c.mark.column
    match c.peek? with
    | none => .ok ([], widest, c)
    | some ch =>
      if ch = '\t' && (indent = 0 || c.mark.column < indent) then
        .error ⟨"found a tab character where an indentation space is expected", some c.mark,
          some (blockContext start)⟩
      else if isBreak ch then do
        let (lineBreak, c) := c.takeBreak
        let (more, widest, c) ← indentFrom start indent fuel widest c
        return (lineBreak ++ more, widest, c)
      else .ok ([], widest, c)

/-- The lines of a block: its text, its last break, and the empty lines after it. `lead` is the
break before the line, `empty` the empty lines after that, and `wasBlank` holds when the line
before opened with a blank. -/
def blockLines (start : Mark) (literal : Bool) (indent : Nat) :
    Nat → List Char → List Char → Bool → Cursor →
    Except Fault (List Char × List Char × List Char × Cursor)
  | 0, lead, empty, _, c => .ok ([], lead, empty, c)
  | fuel + 1, lead, empty, wasBlank, c =>
    match c.peek? with
    | none => .ok ([], lead, empty, c)
    | some ch =>
      if c.mark.column ≠ indent then .ok ([], lead, empty, c)
      else do
        let folds := !literal && lead.head? == some '\n' && !wasBlank && !isBlank ch
        let before := if folds then (if empty.isEmpty then [' '] else []) else lead
        let (line, c) := c.takeLine
        let (lineBreak, c) := c.takeBreak
        let (more, _, c) ← indentFrom start indent (c.rest.length + 1) 0 c
        let (cs, lead, tail, c) ←
          blockLines start literal indent fuel lineBreak more (isBlank ch) c
        return (before ++ empty ++ line ++ cs, lead, tail, c)

def chomping? : Char → Option Chomping
  | '+' => some .keep
  | '-' => some .strip
  | _ => none

def isDigit (c : Char) : Bool := '0' ≤ c && c ≤ '9'

/-- The marks after the opening of a block: how its end is chomped, and its indentation. -/
def header (start : Mark) (c : Cursor) : Except Fault (Chomping × Nat × Cursor) := do
  let chomp (c : Cursor) : Option Chomping × Cursor :=
    match c.peek?.bind chomping? with
    | some ch => (some ch, c.skip 1)
    | none => (none, c)
  let width (c : Cursor) : Except Fault (Nat × Cursor) :=
    match c.peek? with
    | some d =>
      if d = '0' then
        .error ⟨"found an indentation indicator equal to 0", some c.mark,
          some (blockContext start)⟩
      else if isDigit d then .ok (d.toNat - 48, c.skip 1)
      else .ok (0, c)
    | none => .ok (0, c)
  let (first, c) := chomp c
  let (increment, c) ← width c
  let (second, c) := if first.isNone && increment ≠ 0 then chomp c else (none, c)
  return ((first.or second).getD .clip, increment, c)

/-- A block of lines inside a collection of indentation `parent`. -/
def block (literal : Bool) (parent : Int) (c : Cursor) : Except Fault (List Char × Cursor) := do
  let start := c.mark
  let (chomping, increment, c) ← header start (c.skip 1)
  let c := c.skipWhile isBlank
  let c := if c.peek? == some '#' then c.takeLine.2 else c
  unless opensBreak c.rest do
    throw ⟨"did not find expected comment or line break", some c.mark, some (blockContext start)⟩
  let c := c.takeBreak.2
  let given : Nat :=
    if increment = 0 then 0 else if parent ≥ 0 then parent.toNat + increment else increment
  let (empty, widest, c) ← indentFrom start given (c.rest.length + 1) 0 c
  let indent := if given = 0 then max (max widest (parent + 1).toNat) 1 else given
  let (cs, lead, tail, c) ← blockLines start literal indent (c.rest.length + 1) [] empty false c
  let ending := match chomping with
    | .strip => []
    | .clip => lead
    | .keep => lead ++ tail
  return (cs ++ ending, c)

end Bindery.Yaml.Scalar
