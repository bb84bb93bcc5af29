import Bindery.Project.Session
import Bindery.Template.Evaluation

/-!
The page that merged documents are set in: a template with its own assets. The content is a
template too, though only its expressions count; blocks and comments need marks that no rendered
document holds.
-/

namespace Bindery

/-- The page of a project that names no layout. -/
def standardPage : String := "\n".intercalate [
  "<!doctype html>",
  "<html lang=\"\x7b\x7b lang \x7d\x7d\">",
  "<head>",
  "<meta charset=\"utf-8\">",
  "<meta name=\"viewport\" content=\"width=device-width, initial-scale=1.0\">",
  "<title>\x7b\x7b title \x7d\x7d</title>",
  "<style>",
  "body\x7bfont:16px/1.5 Helvetica,Arial,Verdana,sans-serif;margin:0 auto;padding:1rem;" ++
    "max-width:960px\x7d",
  "nav\x7bposition:fixed;top:1rem;right:-4px;border:4px solid rgba(0,0,0,.1);" ++
    "background:#fff;padding:.5rem\x7d",
  "nav a\x7bdisplay:block;text-decoration:none\x7d",
  "pre,code\x7bfont-family:Monaco,Courier,monospace\x7d",
  "blockquote\x7bpadding:1rem 2rem;margin:2rem 0;border-left:4px solid #ddd;" ++
    "background:#f8f8f8;color:#777\x7d",
  "</style>",
  "</head>",
  "<body>",
  "<nav>",
  "\x7b%- for h in headings %\x7d",
  "<a href=\"#\x7b\x7b h.id \x7d\x7d\">\x7b\x7b h.title|escape \x7d\x7d</a>",
  "\x7b%- endfor %\x7d",
  "</nav>",
  "\x7b\x7b content \x7d\x7d",
  "</body>",
  "</html>",
  ""]

structure Layout where
  /-- The directory its own assets are read from. -/
  dir : Option Path := none
  template : String := standardPage
  deriving Repr, DecidableEq

namespace Layout

/-- The directory and the file of a layout: a directory holds its page in `index.html`. -/
def placeOf (tree : FileTree) (path : Path) : Path × Path :=
  if tree.isDirectory path then (path, path.join ⟨"index.html"⟩)
  else (path.parent?.getD ⟨""⟩, path)

/-- Reads a layout. One whose file is missing has the standard page. -/
def load (layout : Option Path) (root : Path) : Work Layout := do
  match layout with
  | none => return {}
  | some layout =>
    let tree := (← get).tree
    let path := root.resolve layout
    let (dir, file) := placeOf tree path
    Work.ask [path, file]
    if tree.isFile file then
      return { dir := some dir, template := ← Work.read file }
    else
      Work.log .debug ("layout " ++ file.text ++ " not found, using the default page")
      return { dir := some dir }

/-- Names of the page's values that no data overrides. -/
def pageValues (content : String) (headings : List Heading) : List (String × Template.Value) :=
  [("content", .str content true),
    ("headings", .list (headings.map fun h => Template.Value.ofJson h.toJson))]

/-- The page of a template: the content is filled in with the data alone, the template with the
data, the content and the headings. -/
def fill (template content : List Char) (headings : List Heading) (data : Json.Fields) :
    Except Template.Fault (List Char) := do
  let values := Template.Value.ofFields data
  let content ← Template.render .content content values
  Template.render .standard template (pageValues (String.ofList content) headings ++ values)

/-- The template with a token for every local file it names. -/
def withTokens (l : Layout) (registry : RegistryId) (root : Path) : StateM Store (List Char) :=
  Html.Reference.redirect
    (fun target => modifyGet fun store =>
      let (store, token) := Productions.register registry (l.dir.getD root) target store
      (token, store))
    l.template.toList

def render (l : Layout) (content : String) (headings : List Heading) (data : Json.Fields)
    (registry : RegistryId) (root : Path) : Work String := do
  let template ← Work.register (l.withTokens registry root).run
  let page ← Work.ofExcept .template (fill template content.toList headings data)
  return String.ofList page

end Layout
end Bindery
