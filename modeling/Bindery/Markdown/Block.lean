import Bindery.Markdown.Line
import Bindery.Markdown.Link
import Bindery.Markdown.Node
import Bindery.Markdown.RawHtml
import Bindery.Text.Basic

/-!
The blocks of a document with the text in them unread. A block is built line by line: a line
continues the containers it can, opens new ones, and what is left of it goes to the leaf that is
open or starts another.
-/

namespace Bindery.Markdown

inductive Block where
  | paragraph (text : List Char)
  | heading (depth : Nat) (text : List Char)
  | thematicBreak
  | code (value : List Char) (lang info : List Char)
  | html (value : List Char)
  | definition (d : Definition)
  | table (align : List (Option Align)) (rows : List (List (List Char)))
  | quote (children : List Block)
  | list (ordered : Bool) (start : Option Nat) (spread : Bool) (items : List Block)
  | item (spread : Bool) (children : List Block)
  deriving Repr, Inhabited

namespace Block

/-- What a container collects: blocks, list items that belong to no list yet, and blank lines. -/
inductive Entry where
  | block (b : Block)
  | item (marker : Char) (number : Nat) (spread : Bool) (children : List Block)
  | blank
  deriving Repr, Inhabited

namespace Entry

def isBlank : Entry → Bool
  | blank => true
  | _ => false

end Entry

/-- The items at the front of a container that go into one list. -/
structure Run where
  marker : Char
  number : Nat
  spread : Bool
  items : List Block
  deriving Repr, Inhabited

def Run.list (r : Run) : Block :=
  let ordered := r.marker == '.' || r.marker == ')'
  .list ordered (if ordered then some r.number else none) r.spread r.items

/-- The blocks of the entries from some place on. `gap` holds after a blank line at the front, and
`spread` when one stands between two blocks. -/
structure Gathered where
  run : Option Run
  gap : Bool
  spread : Bool
  blocks : List Block
  deriving Repr, Inhabited

namespace Gathered

def empty : Gathered := ⟨none, false, false, []⟩

def close (g : Gathered) : Gathered :=
  match g.run with
  | none => g
  | some r => { g with run := none, blocks := r.list :: g.blocks }

/-- Readies the front for another block. -/
def parted (g : Gathered) : Gathered :=
  let g := g.close
  { g with gap := false, spread := g.spread || (g.gap && !g.blocks.isEmpty) }

def add (g : Gathered) : Entry → Gathered
  | .blank => { g with gap := true }
  | .block b =>
    let g := g.parted
    { g with blocks := b :: g.blocks }
  | .item marker number spread children =>
    let node := Block.item spread children
    let fresh := { g.parted with run := some ⟨marker, number, false, [node]⟩ }
    match g.run with
    | none => fresh
    | some r =>
      if r.marker = marker then
        { g with gap := false, run := some ⟨marker, number, r.spread || g.gap, node :: r.items⟩ }
      else fresh

end Gathered

/-- The blocks of a container's entries, the latest entry first. -/
def gather (entries : List Entry) : Gathered := (entries.foldl Gathered.add Gathered.empty).close

/-- An open container, its entries latest first. An item that started blank ends at a blank line. -/
inductive Frame where
  | quote (entries : List Entry)
  | item (marker : Char) (number width : Nat) (blankStart : Bool) (entries : List Entry)
  deriving Repr, Inhabited

namespace Frame

def push (e : Entry) : Frame → Frame
  | quote entries => quote (e :: entries)
  | item marker number width blankStart entries => item marker number width blankStart (e :: entries)

/-- What a closed container leaves to the one around it, latest first. Blank lines at the end of
an item stand after it. -/
def close : Frame → List Entry
  | quote entries => [.block (.quote (gather entries).blocks)]
  | item marker number _ _ entries =>
    let g := gather entries
    entries.takeWhile Entry.isBlank ++ [.item marker number g.spread g.blocks]

/-- The rest of a line that continues the container. -/
def continue? (c : Cursor) : Frame → Option (Frame × Cursor)
  | quote entries =>
    let bare := c.skipBlanks
    if c.indent < tabWidth && bare.rest.head? == some '>' then
      some (quote entries, (bare.advance 1).skip 1)
    else none
  | item marker number width blankStart entries =>
    if c.isBlank then
      if blankStart then none else some (item marker number width false entries, c.skip width)
    else if c.indent ≥ width then some (item marker number width false entries, c.skip width)
    else none

end Frame

/-- Continues containers, the outermost first: those that go on, those that do not, and the rest
of the line. -/
def continueFrames (c : Cursor) : List Frame → List Frame × List Frame × Cursor
  | [] => ([], [], c)
  | f :: fs =>
    match f.continue? c with
    | none => ([], f :: fs, c)
    | some (f, c) =>
      let (kept, lost, c) := continueFrames c fs
      (f :: kept, lost, c)

def isThematicBreak (c : Cursor) : Bool :=
  let marks := c.rest.filter (!isSpaceOrTab ·)
  c.indent < tabWidth && marks.length ≥ 3 &&
    (marks.all (· == '*') || marks.all (· == '-') || marks.all (· == '_'))

def openQuote? (c : Cursor) : Option (Frame × Cursor) :=
  let bare := c.skipBlanks
  if bare.rest.head? == some '>' then some (.quote [], (bare.advance 1).skip 1) else none

/-- The marker at the front of a text: the mark, the number, and how wide it is. A paragraph is
interrupted by no other number than a plain 1. -/
def itemMarker? (interrupting : Bool) (cs : List Char) : Option (Char × Nat × Nat) :=
  match cs with
  | c :: _ =>
    if c = '*' || c = '+' || c = '-' then some (c, 0, 1)
    else
      let digits := cs.takeWhile Char.isDigit
      let number := digits.foldl (fun n d => n * 10 + (d.toNat - 48)) 0
      if digits.isEmpty || digits.length > 9 || (interrupting && digits != ['1']) then none
      else
        match cs.drop digits.length with
        | d :: _ => if d = '.' || d = ')' then some (d, number, digits.length + 1) else none
        | [] => none
  | [] => none

def openItem? (interrupting : Bool) (c : Cursor) : Option (Frame × Cursor) :=
  let bare := c.skipBlanks
  match itemMarker? interrupting bare.rest with
  | none => none
  | some (marker, number, size) =>
    let after := bare.advance size
    if after.isBlank then
      if interrupting then none
      else some (.item marker number (c.indent + size + 1) true [], after)
    else if after.indent = 0 then none
    else
      let gap := if after.indent ≤ tabWidth then after.indent else 1
      some (.item marker number (c.indent + size + gap) false [], after.skip gap)

def openFrame? (interrupting : Bool) (c : Cursor) : Option (Frame × Cursor) :=
  if c.indent ≥ tabWidth then none
  else
    match openQuote? c with
    | some opened => some opened
    | none => if isThematicBreak c then none else openItem? interrupting c

/-- The containers a line opens, at most `steps` of them and the innermost first, on top of
`frames`. -/
def openFrames (interrupting : Bool) :
    Nat → List Frame → Cursor → List Frame × Cursor
  | 0, frames, c => (frames, c)
  | steps + 1, frames, c =>
    match openFrame? interrupting c with
    | none => (frames, c)
    | some (f, c) => openFrames interrupting steps (f :: frames) c

/-- A block that is open, its lines latest first. A setext heading is followed by `underlined`,
for the line after it reads differently. -/
inductive Leaf where
  | none
  | underlined
  | paragraph (lines : List Line)
  | indented (lines : List Line)
  | fenced (mark : Char) (size indent : Nat) (lang info : List Char) (lines : List Line)
  | html (kind : RawHtml.Kind) (lines : List Line)
  | table (align : List (Option Align)) (rows : List (List (List Char)))
  deriving Inhabited

namespace Leaf

def isParagraph : Leaf → Bool
  | paragraph _ => true
  | _ => false

/-- Is every line the leaf's own until one closes it? -/
def isRaw : Leaf → Bool
  | fenced .. | html .. => true
  | _ => false

/-- Does a line that left its containers still belong to the text in them? -/
def isLazy : Leaf → Bool
  | paragraph _ | underlined => true
  | _ => false

end Leaf

/-- The blocks of a paragraph's text: the definitions at its front, and the rest. -/
def ofParagraph (lines : List Line) : List Definition × List Char :=
  let text := joinLines lines.reverse
  definitions lines.length text

/-- A closed leaf as entries, latest first. -/
def Leaf.close : Leaf → List Entry
  | .none | .underlined => []
  | .paragraph lines =>
    let (ds, rest) := ofParagraph lines
    let text := if rest.isEmpty then [] else [Entry.block (.paragraph rest)]
    text ++ (ds.map fun d => Entry.block (.definition d)).reverse
  | .indented lines =>
    let blanks := lines.takeWhile (·.text.all isSpaceOrTab)
    let value := joinLines (lines.drop blanks.length).reverse
    blanks.map (fun _ => .blank) ++ [.block (.code value [] [])]
  | .fenced _ _ _ lang info lines => [.block (.code (joinLines lines.reverse) lang info)]
  | .html _ lines => [.block (.html (joinLines lines.reverse))]
  | .table align rows => [.block (.table align rows.reverse)]

/-- A document under construction: its entries, latest first, the open containers, innermost
first, and the open leaf. -/
structure Building where
  entries : List Entry
  frames : List Frame
  leaf : Leaf
  deriving Inhabited

namespace Building

def empty : Building := ⟨[], [], .none⟩

def push (b : Building) (e : Entry) : Building :=
  match b.frames with
  | [] => { b with entries := e :: b.entries }
  | f :: fs => { b with frames := f.push e :: fs }

/-- Pushes entries that come latest first. -/
def pushAll (b : Building) (es : List Entry) : Building := es.foldr (fun e b => b.push e) b

def closeLeaf (b : Building) : Building :=
  let entries := b.leaf.close
  { b with leaf := .none }.pushAll entries

/-- Closes the `n` innermost containers, and the leaf in them. -/
def closeFrames : Nat → Building → Building
  | 0, b => b
  | n + 1, b =>
    let b := b.closeLeaf
    match b.frames with
    | [] => b
    | f :: fs => closeFrames n ({ b with frames := fs }.pushAll f.close)

def add (b : Building) (block : Block) : Building := b.closeLeaf.push (.block block)

def start (b : Building) (leaf : Leaf) : Building := { b.closeLeaf with leaf }

end Building

/-- A line that opens fenced code. -/
def fence? (c : Cursor) : Option Leaf :=
  let cs := c.skipBlanks.rest
  match cs with
  | mark :: _ =>
    if mark = '\x60' || mark = '~' then
      let size := (cs.takeWhile (· == mark)).length
      let info := Text.dropEndWhile isSpaceOrTab ((cs.drop size).dropWhile isSpaceOrTab)
      if size < 3 || (mark == '\x60' && info.contains mark) then none
      else
        let lang := info.takeWhile (!isSpaceOrTab ·)
        let more := (info.drop lang.length).dropWhile isSpaceOrTab
        some (.fenced mark size c.indent (decode lang) (decode more) [])
    else none
  | [] => none

def closesFence (mark : Char) (size : Nat) (c : Cursor) : Bool :=
  let cs := c.skipBlanks.rest
  let run := (cs.takeWhile (· == mark)).length
  c.indent < tabWidth && run ≥ size && (cs.drop run).all isSpaceOrTab

/-- The text of a heading without its closing marks. -/
def headingText (cs : List Char) : List Char :=
  let content := Text.dropEndWhile isSpaceOrTab (cs.dropWhile isSpaceOrTab)
  let core := Text.dropEndWhile (· == '#') content
  match core.getLast? with
  | none => []
  | some c => if isSpaceOrTab c then Text.dropEndWhile isSpaceOrTab core else content

def heading? (c : Cursor) : Option Block :=
  let cs := c.skipBlanks.rest
  let depth := (cs.takeWhile (· == '#')).length
  let rest := cs.drop depth
  if depth = 0 || depth > 6 then none
  else
    match rest with
    | [] => some (.heading depth [])
    | d :: _ => if isSpaceOrTab d then some (.heading depth (headingText rest)) else none

/-- The depth of the heading that a line underlines. -/
def underline? (c : Cursor) : Option Nat :=
  let cs := Text.dropEndWhile isSpaceOrTab c.skipBlanks.rest
  if c.indent ≥ tabWidth || cs.isEmpty then none
  else if cs.all (· == '=') then some 1
  else if cs.all (· == '-') then some 2
  else none

/-- Cuts a table row at its bars; one after a backslash is text. `cell` is the cell so far, the
latest character first. -/
def splitCells (escaped : Bool) (cell : List Char) : List Char → List (List Char)
  | [] => [cell.reverse]
  | c :: cs =>
    if escaped then splitCells false (c :: cell) cs
    else if c = '|' then cell.reverse :: splitCells false [] cs
    else if c = '\\' then
      splitCells (cs.head? == some '|' || cs.head? == some '\\') (c :: cell) cs
    else splitCells false (c :: cell) cs

def trimBlanks (cs : List Char) : List Char :=
  Text.dropEndWhile isSpaceOrTab (cs.dropWhile isSpaceOrTab)

/-- The cells of a row, without the empty ones outside its outer bars. No row is without cells. -/
def rowCells (cs : List Char) : List (List Char) :=
  let row := trimBlanks cs
  let cells := (splitCells false [] (if row.head? == some '|' then row.tail else row)).map trimBlanks
  if cells.length > 1 && cells.getLast? == some [] then cells.dropLast else cells

/-- How a cell of the delimiter row aligns its column. -/
def alignment? (cell : List Char) : Option (Option Align) :=
  let left := cell.head? == some ':'
  let body := if left then cell.tail else cell
  let right := body.getLast? == some ':'
  let dashes := if right then body.dropLast else body
  if dashes.isEmpty || !dashes.all (· == '-') then none
  else
    match left, right with
    | true, true => some (some .center)
    | true, false => some (some .left)
    | false, true => some (some .right)
    | false, false => some none

/-- The columns of a delimiter row under a head of `width` cells. -/
def delimiters? (width : Nat) (c : Cursor) : Option (List (Option Align)) :=
  let row := c.skipBlanks.rest
  if c.indent ≥ tabWidth || !row.any (fun d => d == '|' || d == ':') then none
  else
    match (rowCells row).mapM alignment? with
    | some align => if align.length = width && width > 0 then some align else none
    | none => none

/-- A line that turns the last line of a paragraph into the head of a table. -/
def tableHead? (gfm : Bool) (lines : List Line) (c : Cursor) :
    Option (List Line × Leaf) :=
  match lines with
  | head :: before =>
    let start := Cursor.start head.text
    if !gfm || start.indent ≥ tabWidth || trimBlanks head.text == ['|'] then none
    else
      let cells := rowCells head.text
      (delimiters? cells.length c).map fun align => (before, .table align [cells])
  | [] => none

/-- The block that a line starts by its first mark. A complete tag starts none inside a
paragraph. -/
def starts (inParagraph : Bool) (c : Cursor) (line : Line) (b : Building) : Option Building :=
  if c.indent ≥ tabWidth then none
  else
    match fence? c with
    | some leaf => some (b.start leaf)
    | none =>
      match RawHtml.blockKind? c.skipBlanks.rest with
      | some kind =>
        if inParagraph && kind == .complete then none
        else if RawHtml.closes kind line.text then some (b.add (.html line.text))
        else some (b.start (.html kind [line]))
      | none => (heading? c).map b.add

/-- A line of running text. -/
def addText (line : Line) (b : Building) : Building :=
  match b.leaf with
  | .paragraph lines => { b with leaf := .paragraph (line :: lines) }
  | _ => b.start (.paragraph [line])

/-- An underline below a paragraph or below another underline. Without text above it, it is text
itself. -/
def addUnderline (depth : Nat) (line : Line) (b : Building) : Building :=
  match b.leaf with
  | .paragraph lines =>
    let (ds, rest) := ofParagraph lines
    let b := { b with leaf := .none }.pushAll (ds.map fun d => Entry.block (.definition d)).reverse
    if rest.isEmpty then b.start (.paragraph [line])
    else { b.add (.heading depth rest) with leaf := .underlined }
  | _ => b.start (.paragraph [line])

/-- The rest of a line for the leaf that is open, or a new one. A line that came out of a paragraph
is `interrupting` in the containers it opened too. -/
def addFlow (gfm interrupting : Bool) (c : Cursor) (eol : List Char) (b : Building) : Building :=
  let line : Line := ⟨c.text, eol⟩
  let inParagraph := interrupting || b.leaf.isParagraph
  if c.isBlank then
    match b.leaf with
    | .indented lines => { b with leaf := .indented (⟨(c.skip tabWidth).text, eol⟩ :: lines) }
    | _ => b.closeLeaf.push .blank
  else if c.indent ≥ tabWidth && !inParagraph then
    let code : Line := ⟨(c.skip tabWidth).text, eol⟩
    match b.leaf with
    | .indented lines => { b with leaf := .indented (code :: lines) }
    | _ => b.start (.indented [code])
  else
    match starts inParagraph c line b with
    | some b => b
    | none =>
      let underline := if b.leaf.isLazy then underline? c else none
      match underline with
      | some depth => addUnderline depth line b
      | none =>
        if isThematicBreak c then b.add .thematicBreak
        else
          match b.leaf with
          | .paragraph lines =>
            match tableHead? gfm lines c with
            | some (before, grid) => { b with leaf := .paragraph before }.start grid
            | none => addText line b
          | .table align rows => { b with leaf := .table align (rowCells line.text :: rows) }
          | _ => addText line b

/-- A line for a raw leaf. -/
def addRaw (c : Cursor) (eol : List Char) (b : Building) : Building :=
  match b.leaf with
  | .fenced mark size indent lang info lines =>
    if closesFence mark size c then b.closeLeaf
    else
      let line : Line := ⟨(c.skip indent).text, eol⟩
      { b with leaf := .fenced mark size indent lang info (line :: lines) }
  | .html kind lines =>
    let line : Line := ⟨c.text, eol⟩
    if RawHtml.closedByBlank kind && c.isBlank then b.closeLeaf.push .blank
    else
      let b := { b with leaf := .html kind (line :: lines) }
      if RawHtml.closes kind line.text then b.closeLeaf else b
  | _ => b

/-- Does a line outside its containers go on with the text in them? -/
def isLazyLine (c : Cursor) (eol : List Char) (b : Building) : Bool :=
  b.leaf.isLazy && !c.isBlank && (starts false c ⟨c.text, eol⟩ b).isNone && !isThematicBreak c

def addLine (gfm : Bool) (b : Building) (l : Line) : Building :=
  let (kept, lost, c) := continueFrames (Cursor.start l.text) b.frames.reverse
  let b := { b with frames := lost.reverse ++ kept.reverse }
  if lost.isEmpty && b.leaf.isRaw then addRaw c l.eol b
  else
    let interrupting := lost.isEmpty && b.leaf.isParagraph
    let (opened, rest) := openFrames interrupting c.rest.length [] c
    if !opened.isEmpty then
      let b := (b.closeFrames lost.length).closeLeaf
      let b := { b with frames := opened ++ b.frames }
      if rest.isBlank then b else addFlow gfm interrupting rest l.eol b
    else if lost.isEmpty then addFlow gfm false c l.eol b
    else if isLazyLine c l.eol b then addText ⟨c.text, l.eol⟩ b
    else addFlow gfm false c l.eol (b.closeFrames lost.length)

/-- The last line end belongs to HTML that nothing closed. -/
def finishLeaf (b : Building) : Building :=
  match b.leaf with
  | .html kind lines =>
    if RawHtml.closedByBlank kind then b
    else { b with leaf := .html kind (⟨[], []⟩ :: lines) }
  | _ => b

def ofLines (gfm : Bool) (ls : List Line) : List Block :=
  let b := finishLeaf (ls.foldl (addLine gfm) Building.empty)
  (gather (b.closeFrames b.frames.length).closeLeaf.entries).blocks

end Block
end Bindery.Markdown
