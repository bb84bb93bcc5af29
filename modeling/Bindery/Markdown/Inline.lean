import Bindery.Markdown.Autolink
import Bindery.Markdown.Entity
import Bindery.Markdown.Link
import Bindery.Markdown.Node
import Bindery.Markdown.RawHtml
import Bindery.Text.Punctuation

/-!
The nodes of running text. One scan from the left gives pieces and resolves brackets; runs of
emphasis marks are paired afterwards, each level of brackets on its own.
-/

namespace Bindery.Markdown.Inline

/-- A piece of text. Mail addresses are looked for in `plain` text, whose latest character comes
first; `fixed` text was written as an escape or a character reference. -/
inductive Piece where
  | plain (reversed : List Char)
  | fixed (cs : List Char)
  | node (n : Node)
  | run (mark : Char) (size : Nat) (opens closes : Bool)
  deriving Inhabited

def pushChar (c : Char) : List Piece → List Piece
  | .plain cs :: ps => .plain (c :: cs) :: ps
  | ps => .plain [c] :: ps

/-- Pushes plain text, its first character first. -/
def pushText (cs : List Char) (ps : List Piece) : List Piece := cs.foldl (fun ps c => pushChar c ps) ps

/-- An open bracket: what stands before it, latest first, and the text after it. A link inside it
takes away that it can be one itself. -/
structure Bracket where
  image : Bool
  active : Bool
  before : List Piece
  after : List Char
  deriving Inhabited

structure Scan where
  /-- The pieces since the innermost open bracket, latest first. -/
  pieces : List Piece
  brackets : List Bracket
  previous : Option Char
  deriving Inhabited

/-- What running text depends on. -/
structure Setting where
  gfm : Bool
  inTable : Bool
  defined : List Char → Bool

/-! Emphasis. -/

/-- A run that pairs with no other is plain text. -/
def Piece.settle : Piece → Piece
  | .run mark size _ _ => .plain (List.replicate size mark)
  | p => p

/-- Settles pieces and merges the plain text in them. -/
def joinPlain : List Piece → List Piece
  | [] => []
  | p :: ps =>
    match p.settle, joinPlain ps with
    | .plain cs, .plain ds :: rest => .plain (cs ++ ds) :: rest
    | p, rest => p :: rest

def pushNode (n : Node) : List Node → List Node
  | [] => [n]
  | m :: ns =>
    match n, m with
    | .text s, .text t => .text (s ++ t) :: ns
    | _, _ => n :: m :: ns

def textNode (cs : List Char) : Node := .text (String.ofList cs)

def linkOf (found : Autolink.Found) : Node :=
  .link (String.ofList found.url) none [textNode found.shown]

def partNode : Autolink.Part → Node
  | .text cs => textNode cs
  | .link found => linkOf found

/-- The nodes of a piece. -/
def pieceNodes (mails : Bool) : Piece → List Node
  | .plain reversed =>
    let cs := reversed.reverse
    if mails then (Autolink.mailParts [] 0 cs).map partNode
    else if cs.isEmpty then [] else [textNode cs]
  | .fixed cs => [textNode cs]
  | .node n => [n]
  | .run mark size _ _ => [textNode (List.replicate size mark)]

/-- The nodes of pieces that come latest first. -/
def nodesOf (mails : Bool) (pieces : List Piece) : List Node :=
  let nodes := (joinPlain pieces).reverse.flatMap (pieceNodes mails)
  nodes.foldr pushNode []

/-- Does a closing run of `size` marks pair with this opening one? -/
def pairs (mark : Char) (size : Nat) (opens : Bool) : Piece → Bool
  | .run m n o c =>
    o && m == mark &&
      !((c || opens) && size % 3 != 0 && (n + size) % 3 == 0) &&
      (mark != '~' || (n == size && size ≤ 2))
  | _ => false

/-- Closes a run against pieces that come latest first. At most `steps` pairs are made. -/
def closeRun (mails : Bool) (mark : Char) (opens closes : Bool) :
    Nat → Nat → List Piece → List Piece
  | _, 0, ps => ps
  | 0, size, ps => .run mark size opens closes :: ps
  | steps + 1, size, ps =>
    let inner := ps.takeWhile (!pairs mark size opens ·)
    match ps.drop inner.length with
    | .run _ openSize o c :: before =>
      let taken := if openSize > 1 && size > 1 then 2 else 1
      let nodes := nodesOf mails inner
      let node :=
        if mark = '~' then Node.delete nodes
        else if taken = 2 then .strong nodes else .emphasis nodes
      let before :=
        if openSize = taken then before else .run mark (openSize - taken) o c :: before
      closeRun mails mark opens closes steps (size - taken) (.node node :: before)
    | _ => .run mark size opens closes :: ps

/-- Pairs the runs of a level, its pieces latest first. -/
def pairRuns (mails : Bool) (pieces : List Piece) : List Piece :=
  pieces.foldr (fun p done =>
    match p with
    | .run mark size opens closes =>
      if closes then closeRun mails mark opens closes size size done else p :: done
    | p => p :: done) []

def resolve (mails : Bool) (pieces : List Piece) : List Node := nodesOf mails (pairRuns mails pieces)

inductive Surrounding where
  | blank
  | mark
  | other
  deriving DecidableEq

def surrounding (c : Option Char) : Surrounding :=
  match c with
  | none => .blank
  | some c =>
    if Text.isBlank c then .blank else if Text.isPunctuation c then .mark else .other

/-- A run of marks between two characters. Underscores inside a word neither open nor close. -/
def runBetween (gfm : Bool) (before after : Option Char) (mark : Char) (size : Nat) : Piece :=
  let b := surrounding before
  let a := surrounding after
  let touches (c : Option Char) : Bool :=
    mark != '~' && (c == some '*' || c == some '_' || (gfm && c == some '~'))
  let opens := a == .other || (a == .mark && b != .other) || touches after
  let closes := b == .other || (b == .mark && a != .other) || touches before
  if mark = '_' then .run mark size (opens && (b != .other || !closes)) (closes && (a != .other || !opens))
  else .run mark size opens closes

/-! Code. -/

/-- The length of the code before the next run of exactly `size` backticks. `run` of them stand
right before the text. -/
def codeLength? (size run length : Nat) : List Char → Option Nat
  | [] => if run = size then some (length - run) else none
  | c :: cs =>
    if c = '\x60' then codeLength? size (run + 1) (length + 1) cs
    else if run = size then some (length - run)
    else codeLength? size 0 (length + 1) cs

/-- Code without the one space that sets it off on either side. -/
def trimCode (cs : List Char) : List Char :=
  if cs.head? == some ' ' && cs.getLast? == some ' ' && !cs.all (· == ' ') then
    cs.tail.dropLast
  else cs

/-- A bar in a table cell's code is written with a backslash. -/
def unescapeBars : List Char → List Char
  | [] => []
  | c :: cs =>
    if c = '\\' && cs.head? == some '|' then unescapeBars cs else c :: unescapeBars cs

/-- HTML as written, without the indentation of its lines. -/
def dropIndents : Nat → List Char → List Char
  | _, [] => []
  | skip + 1, _ :: cs => dropIndents skip cs
  | 0, c :: cs =>
    if isEol c then c :: dropIndents (cs.takeWhile isSpaceOrTab).length cs
    else c :: dropIndents 0 cs

/-! Brackets. -/

inductive Target where
  | resource (r : Resource)
  | reference (kind : ReferenceKind) (label : List Char)

/-- Where a closed bracket leads by the text after it, and how much of that text it takes. -/
def target? (defined : List Char → Bool) (label cs : List Char) : Option (Target × Nat) :=
  let own := defined label
  let shortcut := if own then some (Target.reference .shortcut label, 0) else none
  match cs with
  | '(' :: rest =>
    match resource? rest with
    | some (r, after) => some (.resource r, cs.length - after.length)
    | none => shortcut
  | '[' :: rest =>
    let collapsed :=
      if own && rest.head? == some ']' then some (Target.reference .collapsed label, 2) else none
    match label? rest with
    | some (l, after) =>
      if defined l then some (.reference .full l, cs.length - after.length) else collapsed
    | none => collapsed
  | _ => shortcut

def decoded (cs : List Char) : String := String.ofList (decode cs)

def linkNode (target : Target) (children : List Node) : Node :=
  match target with
  | .resource r => .link (decoded r.url) (r.title.map decoded) children
  | .reference kind label =>
    .linkReference (String.ofList (identifierOf label)) (some (decoded label)) kind children

def imageNode (target : Target) (children : List Node) : Node :=
  let alt := Node.literals children
  match target with
  | .resource r => .image (decoded r.url) (r.title.map decoded) alt
  | .reference kind label =>
    .imageReference (String.ofList (identifierOf label)) (some (decoded label)) kind alt

/-- A closing bracket before the text `cs`; the characters of it that were taken. -/
def closeBracket (setting : Setting) (cs : List Char) (st : Scan) : Scan × Nat :=
  match st.brackets with
  | [] => ({ st with pieces := pushChar ']' st.pieces }, 0)
  | b :: outer =>
    let label := b.after.take (b.after.length - cs.length - 1)
    match (if b.active then target? setting.defined label cs else none) with
    | none =>
      let opening := if b.image then ['!', '['] else ['[']
      let pieces := pushChar ']' (st.pieces ++ pushText opening b.before)
      ({ st with pieces, brackets := outer }, 0)
    | some (target, taken) =>
      if b.image then
        let node := imageNode target (resolve setting.gfm st.pieces)
        ({ st with pieces := .node node :: b.before, brackets := outer }, taken)
      else
        let node := linkNode target (resolve false st.pieces)
        let outer := outer.map fun o => { o with active := o.active && o.image }
        ({ st with pieces := .node node :: b.before, brackets := outer }, taken)

/-! The scan. -/

/-- The blanks at the end of plain text, and the pieces without them. -/
def takeBlanks : List Piece → List Char × List Piece
  | .plain cs :: ps =>
    let blanks := cs.takeWhile isSpaceOrTab
    let rest := cs.drop blanks.length
    (blanks, if rest.isEmpty then ps else .plain rest :: ps)
  | ps => ([], ps)

/-- A line end, `eol` its characters: two spaces before it break the line. -/
def endLine (eol : List Char) (ps : List Piece) : List Piece :=
  let (blanks, ps) := takeBlanks ps
  if blanks.length ≥ 2 && blanks.all (· == ' ') then .node .lineBreak :: ps else pushText eol ps

/-- The line end that a text starts with, and the blanks after it. -/
def eolOf (cs : List Char) : List Char × Nat :=
  let eol := match cs with
    | '\r' :: '\n' :: _ => ['\r', '\n']
    | c :: _ => [c]
    | [] => []
  (eol, ((cs.drop eol.length).takeWhile isSpaceOrTab).length)

/-- Reads what starts with `c`: the state after it, and how many characters of `cs` it took. -/
def step (setting : Setting) (c : Char) (cs : List Char) (st : Scan) : Scan × Nat :=
  let plain := ({ st with pieces := pushChar c st.pieces }, 0)
  let put (p : Piece) (taken : Nat) : Scan × Nat := ({ st with pieces := p :: st.pieces }, taken)
  let run := (cs.takeWhile (· == c)).length
  if c = '\\' then
    match cs with
    | d :: _ =>
      if isEol d then
        let (eol, blanks) := eolOf cs
        put (.node .lineBreak) (eol.length + blanks)
      else if Text.isAsciiPunctuation d then put (.fixed [d]) 1
      else plain
    | [] => plain
  else if isEol c then
    let (eol, blanks) := eolOf (c :: cs)
    ({ st with pieces := endLine eol st.pieces }, eol.length - 1 + blanks)
  else if c = '&' then
    match Entity.read? cs with
    | some (value, taken) => put (.fixed value.toList) taken
    | none => plain
  else if c = '\x60' then
    let rest := cs.drop run
    match codeLength? (run + 1) 0 0 rest with
    | some n =>
      let code := rest.take n
      let value := trimCode (if setting.inTable then unescapeBars code else code)
      put (.node (.inlineCode (String.ofList value))) (run + n + run + 1)
    | none => ({ st with pieces := pushText (List.replicate (run + 1) c) st.pieces }, run)
  else if c = '<' then
    match Autolink.bracketed? cs with
    | some (found, rest) => put (.node (linkOf found)) (cs.length - rest.length)
    | none =>
      match RawHtml.inline? cs with
      | some rest =>
        let taken := cs.length - rest.length
        put (.node (.html (String.ofList (c :: dropIndents 0 (cs.take taken))))) taken
      | none => plain
  else if c = '*' || c = '_' || (setting.gfm && c = '~') then
    put (runBetween setting.gfm st.previous (cs.drop run).head? c (run + 1)) run
  else if c = '!' && cs.head? == some '[' then
    ({ st with pieces := [], brackets := ⟨true, true, st.pieces, cs.drop 1⟩ :: st.brackets }, 1)
  else if c = '[' then
    ({ st with pieces := [], brackets := ⟨false, true, st.pieces, cs⟩ :: st.brackets }, 0)
  else if c = ']' then closeBracket setting cs st
  else if setting.gfm then
    match Autolink.literal? st.previous (c :: cs) with
    | some found => put (.node (linkOf found)) (found.shown.length - 1)
    | none => plain
  else plain

/-- Reads a text whose first `skip` characters were taken already. -/
def scan (setting : Setting) : Nat → Scan → List Char → Scan
  | _, st, [] => st
  | skip + 1, st, c :: cs => scan setting skip { st with previous := some c } cs
  | 0, st, c :: cs =>
    let (st, taken) := step setting c cs st
    scan setting taken { st with previous := some c } cs

/-- Gives up the brackets that nothing closed. -/
def unwind (pieces : List Piece) : List Bracket → List Piece
  | [] => pieces
  | b :: outer =>
    let opening := if b.image then ['!', '['] else ['[']
    unwind (pieces ++ pushText opening b.before) outer

/-- The nodes of a text, as it stands at the front. -/
def readFrom (setting : Setting) (cs : List Char) : List Node :=
  let st := scan setting 0 ⟨[], [], none⟩ cs
  let pieces := unwind st.pieces st.brackets
  resolve setting.gfm (takeBlanks pieces).2

/-- The nodes of a text without the blanks around it. -/
def read (setting : Setting) (cs : List Char) : List Node :=
  readFrom setting (cs.dropWhile isSpaceOrTab)

end Bindery.Markdown.Inline
