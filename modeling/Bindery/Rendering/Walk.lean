import Bindery.Html.Escape
import Bindery.Html.Typography
import Bindery.Markdown.Node
import Bindery.Markdown.Options
import Bindery.Text.Case

/-!
Rendering a tree to HTML. The walk writes all nodes itself but headings, links, images and raw
HTML, which it leaves to productions that may have effects of their own.
-/

namespace Bindery

open Markdown

/-- How the nodes are written that a page can adjust. -/
structure Productions (m : Type → Type) where
  heading (level : Nat) (html raw : List Char) : m (List Char)
  link (href : List Char) (title : Option (List Char)) (html : List Char) : m (List Char)
  image (src : List Char) (title : Option (List Char)) (alt : List Char) : m (List Char)
  html (markup : List Char) : m (List Char)

namespace Rendering

mutual

/-- The plain text of a node as a heading shows it. -/
def plainText : Node → List Char
  | .text v | .inlineCode v => v.toList
  | .lineBreak => [' ']
  | .image _ _ alt => alt.toList
  | .root cs | .paragraph cs | .heading _ cs | .blockquote cs | .list _ _ _ cs
  | .listItem _ _ cs | .table _ cs | .tableRow cs | .tableCell cs | .emphasis cs | .strong cs
  | .delete cs | .link _ _ cs | .linkReference _ _ _ cs | .footnoteDefinition _ _ cs =>
    plainTexts cs
  | _ => []

def plainTexts : List Node → List Char
  | [] => []
  | n :: ns => plainText n ++ plainTexts ns

end

/-- The plain text of nodes without the blanks around it. -/
def textOf (nodes : List Node) : List Char := Text.trim (plainTexts nodes)

/-- Where a reference leads. -/
structure Destination where
  url : String
  title : Option String
  deriving Repr, DecidableEq

def foldIdentifier (identifier : String) : List Char := Text.toLower identifier.toList

mutual

/-- The definitions in a node, in the order of the document. -/
def destinations : Node → List (List Char × Destination)
  | .definition identifier _ url title => [(foldIdentifier identifier, ⟨url, title⟩)]
  | .root cs | .paragraph cs | .heading _ cs | .blockquote cs | .list _ _ _ cs
  | .listItem _ _ cs | .table _ cs | .tableRow cs | .tableCell cs | .emphasis cs | .strong cs
  | .delete cs | .link _ _ cs | .linkReference _ _ _ cs | .footnoteDefinition _ _ cs =>
    allDestinations cs
  | _ => []

def allDestinations : List Node → List (List Char × Destination)
  | [] => []
  | n :: ns => destinations n ++ allDestinations ns

end

/-- What surrounds a node. -/
structure Scene where
  options : Markdown.Options
  defined : List (List Char × Destination)
  /-- The nearest list is tight. -/
  tight : Bool
  /-- The node stands in running text. -/
  phrasing : Bool

/-- The first definition of an identifier counts. -/
def Scene.destination? (s : Scene) (identifier : String) : Option Destination :=
  s.defined.lookup (foldIdentifier identifier)

def Scene.inText (s : Scene) : Scene := { s with phrasing := true }

def Scene.inList (s : Scene) (spread : Bool) : Scene := { s with tight := !spread }

def endsLine (cs : List Char) : Bool := cs.getLast? == some '\n'

def breakTag (options : Markdown.Options) : List Char :=
  (if options.xhtml then "<br />" else "<br>").toList

/-- Text as HTML; with `breaks`, every line end in it breaks the line. -/
def writeText (options : Markdown.Options) (cs : List Char) : List Char :=
  if options.breaks then
    Text.join (breakTag options ++ ['\n']) ((Text.lines cs).map Html.escapeText)
  else Html.escapeText cs

/-- An element without attributes. -/
def element (name : String) (html : List Char) : List Char :=
  ("<" ++ name ++ ">").toList ++ html ++ ("</" ++ name ++ ">").toList

def listOpening (ordered : Bool) (start : Option Nat) : List Char :=
  match ordered, start with
  | true, some n => if n = 1 then "<ol>\n".toList else s!"<ol start=\"{n}\">\n".toList
  | true, none => "<ol>\n".toList
  | false, _ => "<ul>\n".toList

def listClosing (ordered : Bool) : List Char := (if ordered then "</ol>\n" else "</ul>\n").toList

def checkbox (options : Markdown.Options) (checked : Option Bool) : List Char :=
  match checked with
  | none => []
  | some checked =>
    "<input type=\"checkbox\" disabled".toList ++ (if checked then " checked".toList else []) ++
      (if options.xhtml then " /> " else "> ").toList

/-- A list item. In a tight list its end stays on the line of its content. -/
def itemTag (s : Scene) (checked : Option Bool) (html : List Char) : List Char :=
  let html := if s.tight && endsLine html then html.dropLast else html
  "<li>".toList ++ checkbox s.options checked ++ html ++ "</li>\n".toList

def codeBlock (options : Markdown.Options) (value : String) (lang : Option String) : List Char :=
  let classText := match lang with
    | some lang =>
      " class=\"".toList ++ Html.escapeAttr (options.langPrefix ++ lang).toList ++ "\"".toList
    | none => []
  "<pre><code".toList ++ classText ++ ['>'] ++ Html.escapeText value.toList ++
    (if value.isEmpty then [] else ['\n']) ++ "</code></pre>\n".toList

def alignText : Option Align → List Char
  | some .left => " align=\"left\"".toList
  | some .right => " align=\"right\"".toList
  | some .center => " align=\"center\"".toList
  | none => []

def cellTag (head : Bool) (align : Option Align) (html : List Char) : List Char :=
  let name := if head then ['t', 'h'] else ['t', 'd']
  '<' :: name ++ alignText align ++ ['>'] ++ html ++ '<' :: '/' :: name ++ ['>']

/-- A paragraph. A tight list writes none around the text of its items. -/
def paragraphTag (s : Scene) (html : List Char) : List Char :=
  if s.tight then html else "<p>".toList ++ html ++ "</p>\n".toList

variable {m : Type → Type} [Monad m]

mutual

/-- The HTML of a node. -/
def node (p : Productions m) (s : Scene) : Node → m (List Char)
  | .root children => nodes p s children
  | .text value => pure (writeText s.options value.toList)
  | .paragraph children => do
    return paragraphTag s (← nodes p s.inText children)
  | .heading depth children => do
    let html ← nodes p s.inText children
    return (← p.heading depth html (textOf children)) ++ ['\n']
  | .link url title children => do
    let html ← nodes p s children
    p.link url.toList (title.map String.toList) html
  | .linkReference identifier _ _ children => do
    let html ← nodes p s children
    match s.destination? identifier with
    | some d => p.link d.url.toList (d.title.map String.toList) html
    | none => return html
  | .image url title alt => p.image url.toList (title.map String.toList) alt.toList
  | .imageReference identifier _ _ alt =>
    match s.destination? identifier with
    | some d => p.image d.url.toList (d.title.map String.toList) alt.toList
    | none => pure (Html.escapeText alt.toList)
  | .html value => do
    let html ← p.html value.toList
    return if s.phrasing || endsLine html then html else html ++ ['\n']
  | .strong children => do return element "strong" (← nodes p s children)
  | .emphasis children => do return element "em" (← nodes p s children)
  | .delete children => do return element "del" (← nodes p s children)
  | .inlineCode value => pure (element "code" (Html.escapeText value.toList))
  | .lineBreak => pure (breakTag s.options ++ ['\n'])
  | .list ordered start spread children => do
    let html ← nodes p (s.inList spread) children
    return listOpening ordered start ++ html ++ listClosing ordered
  | .listItem _ checked children => do
    return itemTag s checked (← nodes p s children)
  | .code value lang _ => pure (codeBlock s.options value lang)
  | .blockquote children => do
    return "<blockquote>\n".toList ++ (← nodes p s children) ++ "</blockquote>\n".toList
  | .thematicBreak => pure (if s.options.xhtml then "<hr />\n" else "<hr>\n").toList
  | .table align children => do
    let html ← table p s align children
    return "<table>\n<thead>\n".toList ++ html ++ "</table>\n".toList
  | _ => pure []

def nodes (p : Productions m) (s : Scene) : List Node → m (List Char)
  | [] => pure []
  | n :: ns => do
    let html ← node p s n
    return html ++ (← nodes p s ns)

/-- The head and the body of a table from its rows. -/
def table (p : Productions m) (s : Scene) (align : List (Option Align)) :
    List Node → m (List Char)
  | [] => pure "</thead>\n".toList
  | first :: rest => do
    let head ← row p s align true first
    let body ← rows p s align rest
    return head ++ "</thead>\n".toList ++
      if rest.isEmpty then [] else "<tbody>\n".toList ++ body ++ "</tbody>\n".toList

def rows (p : Productions m) (s : Scene) (align : List (Option Align)) :
    List Node → m (List Char)
  | [] => pure []
  | n :: ns => do
    let html ← row p s align false n
    return html ++ (← rows p s align ns)

def row (p : Productions m) (s : Scene) (align : List (Option Align)) (head : Bool) :
    Node → m (List Char)
  | .tableRow cs => do
    return "<tr>".toList ++ (← cells p s align head cs) ++ "</tr>\n".toList
  | _ => pure []

def cells (p : Productions m) (s : Scene) (align : List (Option Align)) (head : Bool) :
    List Node → m (List Char)
  | [] => pure []
  | n :: ns => do
    let html ← cell p s (align.head?.getD none) head n
    return html ++ (← cells p s align.tail head ns)

def cell (p : Productions m) (s : Scene) (align : Option Align) (head : Bool) :
    Node → m (List Char)
  | .tableCell cs => do return cellTag head align (← nodes p s.inText cs)
  | _ => pure []

end

/-- The HTML of a document. Definitions count for the whole of it, before or after their use. -/
def document (p : Productions m) (options : Markdown.Options) (tree : List Node) :
    m (List Char) := do
  let html ← nodes p ⟨options, allDestinations tree, false, false⟩ tree
  return if options.smartypants then Html.Typography.educateMarkup html else html

end Rendering
end Bindery
