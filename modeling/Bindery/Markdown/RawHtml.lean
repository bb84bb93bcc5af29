import Bindery.Markdown.Line
import Bindery.Text.Basic

/-!
Raw HTML: the tags, comments, instructions and declarations that stand in text, and the marks that
open and close blocks of HTML.
-/

namespace Bindery.Markdown.RawHtml

def isGap (c : Char) : Bool := isSpaceOrTab c || isEol c

def isTagNameChar (c : Char) : Bool := c.isAlphanum || c == '-'

def isAttrStart (c : Char) : Bool := c.isAlpha || c == ':' || c == '_'

def isAttrChar (c : Char) : Bool := isAttrStart c || c.isDigit || c == '-' || c == '.'

/-- The text after the first occurrence of `word`. -/
def after? (word cs : List Char) : Option (List Char) :=
  match Text.afterWord? word cs, cs with
  | some rest, _ => some rest
  | none, _ :: rest => after? word rest
  | none, [] => none

/-- How far the reading of an opening tag has come. -/
inductive TagState where
  | between
  | name
  | afterName
  | beforeValue
  | bare
  | quoted (mark : Char)
  | afterQuote
  | slash

/-- The rest of an opening tag after its name; the text after its end. -/
def attributes (state : TagState) : List Char → Option (List Char)
  | [] => none
  | c :: cs =>
    match state with
    | .between | .afterQuote =>
      if c = '>' then some cs
      else if c = '/' then attributes .slash cs
      else if isGap c then attributes .between cs
      else if isAttrStart c && (state matches .between) then attributes .name cs
      else none
    | .name =>
      if isAttrChar c then attributes .name cs
      else if isGap c then attributes .afterName cs
      else if c = '=' then attributes .beforeValue cs
      else if c = '>' then some cs
      else if c = '/' then attributes .slash cs
      else none
    | .afterName =>
      if isGap c then attributes .afterName cs
      else if c = '=' then attributes .beforeValue cs
      else if c = '>' then some cs
      else if c = '/' then attributes .slash cs
      else if isAttrStart c then attributes .name cs
      else none
    | .beforeValue =>
      if isGap c then attributes .beforeValue cs
      else if c = '\x22' || c = '\x27' then attributes (.quoted c) cs
      else if "<=>\x60".toList.contains c then none
      else attributes .bare cs
    | .bare =>
      if isGap c then attributes .between cs
      else if c = '>' then some cs
      else if c = '/' then attributes .slash cs
      else if "\"'<=\x60".toList.contains c then none
      else attributes .bare cs
    | .quoted mark => if c = mark then attributes .afterQuote cs else attributes (.quoted mark) cs
    | .slash => if c = '>' then some cs else none

/-- An opening tag after its `<`. -/
def openTag? (cs : List Char) : Option (List Char) :=
  match cs with
  | c :: _ =>
    if c.isAlpha then
      match cs.dropWhile isTagNameChar with
      | d :: rest =>
        if d = '>' || d = '/' || isGap d then attributes .between (d :: rest) else none
      | [] => none
    else none
  | [] => none

/-- A closing tag after its `</`. -/
def closeTag? (cs : List Char) : Option (List Char) :=
  match cs with
  | c :: _ =>
    if c.isAlpha then
      match (cs.dropWhile isTagNameChar).dropWhile isGap with
      | '>' :: rest => some rest
      | _ => none
    else none
  | [] => none

/-- The text after the raw HTML that a `<` opens. -/
def inline? (cs : List Char) : Option (List Char) :=
  match cs with
  | '!' :: '-' :: '-' :: rest => after? "-->".toList ('-' :: '-' :: rest)
  | '!' :: '[' :: rest =>
    (Text.afterWord? "CDATA[".toList rest).bind fun rest => after? "]]>".toList rest
  | '!' :: c :: rest => if c.isAlpha then after? ">".toList rest else none
  | '?' :: rest => after? "?>".toList rest
  | '/' :: rest => closeTag? rest
  | _ => openTag? cs

/-- The kinds of HTML blocks, by what ends them. -/
inductive Kind where
  | raw
  | comment
  | instruction
  | declaration
  | cdata
  | basic
  | complete
  deriving Repr, DecidableEq

def rawNames : List String := ["pre", "script", "style", "textarea"]

def blockNames : List String := [
  "address", "article", "aside", "base", "basefont", "blockquote", "body", "caption", "center",
  "col", "colgroup", "dd", "details", "dialog", "dir", "div", "dl", "dt", "fieldset",
  "figcaption", "figure", "footer", "form", "frame", "frameset", "h1", "h2", "h3", "h4", "h5",
  "h6", "head", "header", "hr", "html", "iframe", "legend", "li", "link", "main", "menu",
  "menuitem", "nav", "noframes", "ol", "optgroup", "option", "p", "param", "search", "section",
  "summary", "table", "tbody", "td", "tfoot", "th", "thead", "title", "tr", "track", "ul"]

def lowerName (cs : List Char) : String :=
  String.ofList (Text.asciiLower (cs.takeWhile isTagNameChar))

/-- The kind of block a line opens with a tag. `rest` is the text after the tag's first bracket
and its slash, if it has one. -/
def tagKind? (closing : Bool) (rest : List Char) : Option Kind :=
  match rest with
  | [] => none
  | c :: _ =>
    if !c.isAlpha then none
    else
      let name := lowerName rest
      let after := rest.dropWhile isTagNameChar
      let ends := match after with
        | [] => true
        | d :: _ => isSpaceOrTab d || d == '/' || d == '>'
      if !ends then none
      else if after.head? != some '/' && !closing && rawNames.contains name then some .raw
      else if blockNames.contains name then
        if after.head? == some '/' && after.tail.head? != some '>' then none else some .basic
      else
        let tail := if closing then closeTag? rest else openTag? rest
        match tail with
        | some tail => if tail.all isSpaceOrTab then some .complete else none
        | none => none

/-- The kind of block that a line opens, its indentation taken off. -/
def blockKind? (cs : List Char) : Option Kind :=
  match cs with
  | '<' :: '!' :: '-' :: '-' :: _ => some .comment
  | '<' :: '!' :: '[' :: rest =>
    if "CDATA[".toList.isPrefixOf rest then some .cdata else none
  | '<' :: '!' :: c :: _ => if c.isAlpha then some .declaration else none
  | '<' :: '?' :: _ => some .instruction
  | '<' :: '/' :: rest => tagKind? true rest
  | '<' :: rest => tagKind? false rest
  | _ => none

/-- Does a line close the block it stands in? A basic or complete block is closed by a blank line
and by nothing else. -/
def closes (kind : Kind) (line : List Char) : Bool :=
  match kind with
  | .raw => rawNames.any fun name => Text.hasInfix ("</" ++ name ++ ">").toList (Text.asciiLower line)
  | .comment => Text.hasInfix "-->".toList line
  | .instruction => Text.hasInfix "?>".toList line
  | .declaration => line.contains '>'
  | .cdata => Text.hasInfix "]]>".toList line
  | .basic | .complete => false

def closedByBlank : Kind → Bool
  | .basic | .complete => true
  | _ => false

end Bindery.Markdown.RawHtml
