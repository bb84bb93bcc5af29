import Bindery.Markdown.Document
import Bindery.Project.Session

/-!
One source file on its way from text to markup: it is read and split into nodes when its bundle is
made, and rendered when the bundle's page is generated.
-/

namespace Bindery

structure Document where
  source : Path
  /-- The registry of what this document refers to. -/
  registry : RegistryId
  /-- The options as the plugins left them. -/
  options : Markdown.Options := {}
  nodes : List Markdown.Node := []
  outline : List Heading := []
  /-- The markup, with tokens for paths. -/
  result : String := ""

namespace Document

/-- Reads the source with the declaration after it, and splits it into nodes. -/
def read (declaration : Option Path) (plugins : List Plugin) (marked : Markdown.Options)
    (d : Document) : Work Document := do
  let body ← Work.read d.source
  let extra ← match declaration with
    | some path => Work.read path
    | none => pure ""
  let nodes := Markdown.tokenize (body ++ extra) marked
  let (nodes, options) ← Work.runPlugins Plugin.tokenizeHook plugins nodes marked
  let nodes ← Work.ofExcept id nodes
  Work.log .debug s!"tokenized {d.source.text} ({nodes.length} nodes)"
  return { d with nodes, options }

/-- Renders the nodes. Local references are read from the source's directory. -/
def render (d : Document) : Work (List Char × List Heading) := do
  let base := d.source.parent?.getD ⟨"."⟩
  let (html, outline) ← Work.register fun store =>
    let (html, made) := Rendering.linkedDocument d.options d.registry base store d.nodes
    ((html, made.outline), made.store)
  return (← Work.ofExcept .markup html, outline)

end Document
end Bindery
