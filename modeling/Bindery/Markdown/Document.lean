import Bindery.Markdown.Block
import Bindery.Markdown.Inline
import Bindery.Markdown.Options

/-!
The tree of a Markdown text: its blocks, with the running text in them read under the definitions
of the whole document.
-/

namespace Bindery.Markdown

mutual

/-- The labels that a block defines, normalized. -/
def Block.labels : Block → List (List Char)
  | .definition d => [normalizeLabel d.label]
  | .quote children | .item _ children => labelsOf children
  | .list _ _ _ items => labelsOf items
  | _ => []

def labelsOf : List Block → List (List Char)
  | [] => []
  | b :: bs => b.labels ++ labelsOf bs

end

/-- The box at the front of a task: whether it is checked, and the text after it. A blank and
something more have to follow. -/
def taskBox? (cs : List Char) : Option (Bool × List Char) :=
  let isGap (c : Char) := isSpaceOrTab c || isEol c
  match cs.dropWhile isSpaceOrTab with
  | '[' :: mark :: ']' :: rest =>
    if !(rest.head?.map isGap).getD false || rest.all isGap then none
    else if mark = 'x' || mark = 'X' then some (true, rest)
    else if isGap mark then some (false, rest)
    else none
  | _ => none

/-- A text without the one blank or line end at its front. -/
def dropBoxGap : List Char → List Char
  | '\r' :: '\n' :: cs => cs
  | c :: cs => if isSpaceOrTab c || isEol c then cs else c :: cs
  | [] => []

/-- The children of a task, the first paragraph without the blank behind the box. -/
def closeGap : List Node → List Node
  | .paragraph (.text s :: ns) :: rest =>
    let cs := dropBoxGap s.toList
    .paragraph (if cs.isEmpty then ns else .text (String.ofList cs) :: ns) :: rest
  | ns => ns

def cellNode (setting : Inline.Setting) (cell : List Char) : Node :=
  .tableCell (Inline.read { setting with inTable := true } cell)

def rowNode (setting : Inline.Setting) (cells : List (List Char)) : Node :=
  .tableRow (cells.map (cellNode setting))

def nonEmpty (cs : List Char) : Option String :=
  if cs.isEmpty then none else some (String.ofList cs)

def definitionNode (d : Definition) : Node :=
  .definition (String.ofList (identifierOf d.label)) (some (Inline.decoded d.label))
    (Inline.decoded d.url) (d.title.map Inline.decoded)

mutual

def Block.node (setting : Inline.Setting) : Block → Node
  | .paragraph text => .paragraph (Inline.read setting text)
  | .heading depth text => .heading depth (Inline.read setting text)
  | .thematicBreak => .thematicBreak
  | .code value lang info => .code (String.ofList value) (nonEmpty lang) (nonEmpty info)
  | .html value => .html (String.ofList value)
  | .definition d => definitionNode d
  | .table align rows => .table align (rows.map (rowNode setting))
  | .quote children => .blockquote (nodesOf setting children)
  | .list ordered start spread items => .list ordered start spread (nodesOf setting items)
  | .item spread children =>
    let (checked, nodes) := itemNodes setting children
    .listItem spread checked (if checked.isSome then closeGap nodes else nodes)

/-- The children of an item, and whether they are a task: only definitions come before the
paragraph with the box. -/
def itemNodes (setting : Inline.Setting) : List Block → Option Bool × List Node
  | [] => (none, [])
  | .definition d :: bs =>
    let (checked, nodes) := itemNodes setting bs
    (checked, definitionNode d :: nodes)
  | .paragraph text :: bs =>
    match if setting.gfm then taskBox? text else none with
    | some (checked, rest) =>
      (some checked, .paragraph (Inline.readFrom setting rest) :: nodesOf setting bs)
    | none => (none, .paragraph (Inline.read setting text) :: nodesOf setting bs)
  | b :: bs => (none, b.node setting :: nodesOf setting bs)

def nodesOf (setting : Inline.Setting) : List Block → List Node
  | [] => []
  | b :: bs => b.node setting :: nodesOf setting bs

end

/-- The text that is read: a mark of byte order in front is none of it. -/
def readable (cs : List Char) : List Char := if cs.head? == some '\uFEFF' then cs.tail else cs

/-- The nodes of a document. -/
def tokenize (source : String) (options : Options) : List Node :=
  let blocks := Block.ofLines options.gfm (splitLines [] (readable source.toList))
  let labels := labelsOf blocks
  let setting : Inline.Setting :=
    ⟨options.gfm, false, fun label => labels.contains (normalizeLabel label)⟩
  nodesOf setting blocks

end Bindery.Markdown
