import Bindery.Page.Wrap
import Bindery.Project.Entry

/-!
Where a page goes and what is put around its documents.
-/

namespace Bindery

structure Output where
  /-- Before every document. -/
  intro : Option Wrap := none
  /-- After every document. -/
  outro : Option Wrap := none
  /-- The page's file, below `dist` when that is set. -/
  file : Option Path := none
  /-- The output root. -/
  dist : Option Path := none
  /-- A template, or a directory that holds one. -/
  layout : Option Path := none
  /-- Template data. -/
  data : Json.Fields := []

namespace Output

def distDir (o : Output) (root : Path) : Path :=
  match o.dist with
  | some dist => root.resolve dist
  | none => root

/-- The page's file. Below `dist` a single entry gives its own path with extension `html`; a page
without a file is printed. -/
def fileFor (o : Output) (entry : Entry) (root : Path) : Option Path :=
  match o.file, o.dist with
  | some file, some _ => some ((o.distDir root).resolve file)
  | some file, none => some (root.resolve file)
  | none, some _ =>
    entry.scalar?.map fun path =>
      (o.distDir root).resolve ((root.relative (root.resolve ⟨path⟩)).withExtension "html")
  | none, none => none

def path : Json → Json.Reads Path
  | .str s => .ok ⟨s⟩
  | v => .error (.wrongType v "path string")

def wrap (v : Json) : Json.Reads Wrap := v.string.map Wrap.text

def ofJson (v : Json) : Json.Reads Output := do
  let fs ← v.record "OutputOptions" ["intro", "outro", "file", "dist", "layout", "data"]
  return {
    intro := ← fs.read "intro" none (Json.nullable wrap)
    outro := ← fs.read "outro" none (Json.nullable wrap)
    file := ← fs.read "file" none (Json.nullable path)
    dist := ← fs.read "dist" none (Json.nullable path)
    layout := ← fs.read "layout" none (Json.nullable path)
    data := ← fs.read "data" [] Json.object }

end Output
end Bindery
