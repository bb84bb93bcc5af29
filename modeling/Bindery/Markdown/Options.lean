import Bindery.Json.Record

/-!
The options of one document: what is read as Markdown, and how it is rendered.
-/

namespace Bindery.Markdown

structure Options where
  /-- Literal autolinks, strikethrough, tables and task items are read. -/
  gfm : Bool := true
  /-- Headings without a marker get an id from their text. -/
  headerIds : Bool := true
  /-- The start of ids taken from text. -/
  headerPrefix : String := ""
  /-- The start of the class that names a code block's language. -/
  langPrefix : String := "language-"
  /-- Typographic punctuation in the rendered text. -/
  smartypants : Bool := false
  /-- Void elements close themselves. -/
  xhtml : Bool := false
  /-- Line ends in text break the line. -/
  breaks : Bool := false
  deriving Repr, DecidableEq, Inhabited

namespace Options

def fieldNames : List String :=
  ["gfm", "headerIds", "headerPrefix", "langPrefix", "smartypants", "xhtml", "breaks"]

def ofJson (v : Json) : Json.Reads Options := do
  let fs ← v.record "MarkdownOptions" fieldNames
  let absent : Options := {}
  return {
    gfm := ← fs.read "gfm" absent.gfm Json.boolean
    headerIds := ← fs.read "headerIds" absent.headerIds Json.boolean
    headerPrefix := ← fs.read "headerPrefix" absent.headerPrefix Json.string
    langPrefix := ← fs.read "langPrefix" absent.langPrefix Json.string
    smartypants := ← fs.read "smartypants" absent.smartypants Json.boolean
    xhtml := ← fs.read "xhtml" absent.xhtml Json.boolean
    breaks := ← fs.read "breaks" absent.breaks Json.boolean }

def toFields (o : Options) : Json.Fields := Json.Fields.ofList [
  ("gfm", .bool o.gfm), ("headerIds", .bool o.headerIds), ("headerPrefix", .str o.headerPrefix),
  ("langPrefix", .str o.langPrefix), ("smartypants", .bool o.smartypants),
  ("xhtml", .bool o.xhtml), ("breaks", .bool o.breaks)]

def toJson (o : Options) : Json := .obj o.toFields

end Options
end Bindery.Markdown
