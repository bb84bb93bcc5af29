import Bindery.Asset.Registry

/-!
Placing assets in the output tree and putting paths in the place of their tokens.
-/

namespace Bindery

/-- The output tree of one page. -/
structure Relocation where
  /-- The working root. -/
  root : Path
  /-- The output root. -/
  dist : Path
  /-- The directory of the page's layout. -/
  layoutDir : Option Path
  /-- The page's file; a preview has none. -/
  outfile : Option Path
  deriving Repr, DecidableEq

namespace Relocation

def isPreview (plan : Relocation) : Bool := plan.outfile.isNone

/-- The directory a source keeps its place below: the layout's for what belongs to a layout apart
from the working root, else the working root. -/
def baseFor (plan : Relocation) (source : Path) : Path :=
  match plan.layoutDir with
  | some dir =>
    if dir.components ≠ plan.root.components && dir.isWithin source then dir else plan.root
  | none => plan.root

/-- Gives an asset its place. A source outside the working root gets none. -/
def place (plan : Relocation) (a : Asset) : Asset :=
  let source := a.source.normalize
  if plan.root.isWithin source then
    let via := "./" ++ ((plan.baseFor source).relative source).url
    { a with source, via := some via, target := some (plan.dist.resolve ⟨via⟩) }
  else { a with source, via := none, target := none }

/-- The text that stands for a placed asset in the page. -/
def replacement (plan : Relocation) (a : Asset) : String :=
  match plan.outfile with
  | some outfile => ((outfile.parent?.getD plan.root).relative (a.target.getD a.source)).url
  | none => a.via.getD a.source.url

/-- A page on its way through relocation, with the replacements made in it so far. -/
structure Pass where
  html : String
  store : Store
  made : List (Token × String) := []

def step (plan : Relocation) (pass : Pass) (slot : Token × CellId) : Pass :=
  let (token, cell) := slot
  let store := pass.store.modifyCell cell plan.place
  match store.asset? cell with
  | none => { pass with store }
  | some a =>
    let new := plan.replacement a
    if Text.hasInfix token.text.toList pass.html.toList then
      { html := token.substitute pass.html new, store, made := pass.made ++ [(token, new)] }
    else { pass with store }

/-- Places every asset of a registry, in order, and replaces its token in the page. -/
def run (plan : Relocation) (html : String) (store : Store) (registry : RegistryId) : Pass :=
  (store.snapshot registry).foldl plan.step { html, store }

end Relocation
end Bindery
