import Bindery.Asset.Registry
import Bindery.Heading
import Bindery.Html.Reference
import Bindery.Html.Tag
import Bindery.Rendering.Walk
import Bindery.Selector

/-!
The productions of a page: plain ones that only write markup, and linking ones that register the
local files a document refers to and keep the outline of its headings.
-/

namespace Bindery

/-- What can be wrong with a document's markup. -/
inductive MarkupError where
  | parse (message : String) (line column : Nat)
  | selector (e : SelectorError)
  deriving Repr, DecidableEq

def MarkupError.message : MarkupError → String
  | .parse message line column => s!"Parse error at {line}:{column}: {message}"
  | .selector e => e.message

namespace Productions

/-- Markup and nothing else. -/
def plain (options : Markdown.Options) : Productions Id where
  heading level html raw :=
    Html.headingTag level
      (Heading.chooseId raw none options.headerIds options.headerPrefix.toList) html
  link href title html := Html.anchorTag [] href title html
  image src title alt := Html.imageTag [] src title alt options.xhtml
  html markup := markup

/-- What linking productions leave behind: registered files, and the outline in order. -/
structure Recording where
  store : Store
  outline : List Heading := []

/-- An error keeps what was recorded before it. -/
abbrev Linking := ExceptT MarkupError (StateM Recording)

/-- Registers the file that `target` names in the directory `base`, and gives its token. -/
def register (registry : RegistryId) (base : Path) (target : List Char) (store : Store) :
    Store × List Char :=
  let (store, done) :=
    store.register registry (base.resolve ⟨String.ofList target⟩).text none
  (store, done.token.text.toList)

/-- The token of a local target. -/
def linkFile (registry : RegistryId) (base : Path) (target : List Char) : Linking (List Char) :=
  modifyGet fun r =>
    let (store, token) := register registry base target r.store
    (token, { r with store })

/-- A reference as it is written: a token when it is local, itself otherwise. -/
def reference (registry : RegistryId) (base : Path) (href : List Char) : Linking (List Char) :=
  match Html.Reference.localTarget href with
  | some target => linkFile registry base target
  | none => pure href

/-- Splits a title into the attributes it asks for and the title that is left. -/
def titleAttrs (title : Option (List Char)) :
    Except MarkupError (List Char × Option (List Char)) :=
  match title with
  | some t =>
    if Selector.opens t then
      match Selector.parse t with
      | .ok s => .ok (s.attrText, none)
      | .error e => .error (.selector e)
    else .ok ([], title)
  | none => .ok ([], none)

/-- Markup in which every local file is registered in `registry`, read from `base`. -/
def linking (options : Markdown.Options) (registry : RegistryId) (base : Path) :
    Productions Linking where
  heading level html raw := do
    let (title, marker) := Heading.extractMarker raw
    let id := Heading.chooseId title marker options.headerIds options.headerPrefix.toList
    let html := if marker.isSome then Heading.stripMarker html else html
    let entry : Heading := ⟨level, String.ofList (Text.trimEnd title), id.map String.ofList⟩
    modify fun r => { r with outline := r.outline ++ [entry] }
    return Html.headingTag level id html
  link href title html := do
    let href ← reference registry base href
    let (attrs, title) ← titleAttrs title
    return Html.anchorTag attrs href title html
  image src title alt := do
    let src ← reference registry base src
    let (attrs, title) ← titleAttrs title
    return Html.imageTag attrs src title alt options.xhtml
  html markup := Html.Reference.redirect (linkFile registry base) markup

end Productions

namespace Rendering

def plainDocument (options : Markdown.Options) (tree : List Markdown.Node) : List Char :=
  Id.run (document (Productions.plain options) options tree)

/-- Renders with linking productions: the HTML, or what was wrong, and what was recorded. -/
def linkedDocument (options : Markdown.Options) (registry : RegistryId) (base : Path)
    (store : Store) (tree : List Markdown.Node) :
    Except MarkupError (List Char) × Productions.Recording :=
  ((document (Productions.linking options registry base) options tree).run).run { store }

end Rendering
end Bindery
