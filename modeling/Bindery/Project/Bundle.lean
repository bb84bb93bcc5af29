import Bindery.Asset.Relocation
import Bindery.Listing
import Bindery.Page.Layout
import Bindery.Page.Wrap
import Bindery.Project.Document
import Bindery.Project.Settings

/-!
A bundle sets its documents in one page. Its documents are rendered and wrapped in order, and every
Markdown document that one of them links to is compiled to a page of its own, before the page is
filled in. Then the assets get their places, the page is written or printed, and the bundle that
was asked for copies the assets of the whole session.
-/

namespace Bindery

/-- What a bundle is made from. -/
structure Brief where
  input : Entry
  root : Path
  declare : Option Path := none
  mapping : Mapping := []
  marked : Markdown.Options := {}
  plugins : List Plugin := []

structure Bundle where
  brief : Brief
  output : Output
  registry : RegistryId
  documents : List Document
  /-- The page's file when a link asked for this bundle. -/
  target : Option Path := none

/-- A page before its assets have places. -/
structure Generated where
  html : String
  outline : List Heading
  registry : RegistryId
  plan : Relocation

inductive AssetStatus where
  /-- Copied, or in place already. -/
  | ok
  | notFound
  /-- Left alone, since it lies outside the working root. -/
  | outside
  | failed (f : FileFault)
  deriving Repr, DecidableEq

structure AssetReport where
  source : Path
  target : Option Path
  status : AssetStatus
  deriving Repr, DecidableEq

structure WriteReport where
  /-- The page's file, unless the page was printed. -/
  outfile : Option Path := none
  assets : List AssetReport := []
  /-- The lines logged for the page and its assets. -/
  advisories : List String := []
  deriving Repr, DecidableEq

/-- Work on a bundle. A failure keeps what was done to the bundle. -/
abbrev Making := ExceptT Failure (StateT Bundle (StateM Bench))

instance : MonadLift Work Making := ⟨fun w => ExceptT.mk (StateT.lift w.run)⟩

namespace Making

def bundle : Making Bundle := ExceptT.mk do return .ok (← get)

def modifyBundle (f : Bundle → Bundle) : Making Unit :=
  ExceptT.mk do
    modify f
    return .ok ()

def modifyDocument (i : Nat) (f : Document → Document) : Making Unit :=
  modifyBundle fun b => { b with documents := b.documents.modify i f }

/-- Does all of `w` to a bundle, and forgets the bundle. -/
def within {α : Type} (b : Bundle) (w : Making α) : Work α :=
  ExceptT.mk do return (← w.run.run b).1

end Making

namespace Bundle

/-- Makes a bundle below the registry `master` and reads its documents in order. -/
def make (brief : Brief) (output : Output) (master : RegistryId) (target : Option Path := none) :
    Work Bundle := do
  let newChild (r : RegistryId) : Work RegistryId := do
    let (store, child) := (← Work.session).store.newChild r
    Work.modifyStore fun _ => store
    return child
  let registry ← newChild master
  let declaration := brief.declare.map (brief.root.resolve ·)
  let documents ← (brief.input.files brief.mapping brief.root).mapM fun source => do
    return { source, registry := ← newChild registry : Document }
  let documents ← documents.mapM (·.read declaration brief.plugins brief.marked)
  return { brief, output, registry, documents, target }

/-- The page's file, unless the page is printed. -/
def outfile (b : Bundle) : Option Path :=
  b.target.or (b.output.fileFor b.brief.input b.brief.root)

def isNested (b : Bundle) : Bool := b.target.isSome

open Making (bundle modifyBundle modifyDocument)

/-- Renders a document and runs the plugins over its markup. -/
def transform (i : Nat) (d : Document) : Making Unit := do
  let (html, outline) ← d.render
  modifyDocument i ({ · with outline })
  let (result, options) ←
    Work.runPlugins Plugin.transformHook (← bundle).brief.plugins (String.ofList html) d.options
  modifyDocument i ({ · with options })
  let result ← (Work.ofExcept id result : Work String)
  modifyDocument i ({ · with result })
  let size := (← Work.session).store.size d.registry
  Work.log .debug s!"transformed {d.source.text} ({size} assets)"

/-- Puts the wraps around a document. The data they leave is the bundle's from then on. -/
def wrap (i : Nat) : Making Unit := do
  let b ← bundle
  match b.documents[i]? with
  | none => return
  | some d =>
    let done := wrapDocument (b.output.intro.getD .nothing) (b.output.outro.getD .nothing)
      ⟨d.outline, d.result, i + 1, b.documents.length, b.output.data⟩
    modifyBundle fun b => { b with output := { b.output with data := done.data } }
    modifyDocument i ({ · with outline := done.headings, result := done.result })

/-- A linked document that is to be compiled, and where to. -/
structure Link where
  source : Path
  target : Path
  deriving Repr, DecidableEq

/-- Makes a page of the linked document in a cell, and gives the link when the page is not there
yet. Links to what is no Markdown document, or is a page already, are left alone; neither a preview
nor a link of a document to itself asks for compilation. -/
def markLink? (plan : Relocation) (current : Path) (cell : CellId) : Work (Option Link) := do
  match (← Work.session).store.asset? cell with
  | none => return none
  | some a =>
    if a.isMarked || !a.source.isMarkdown then return none
    let source := a.source.normalize
    let page := source.withExtension "html"
    let placed := plan.place { a with source := page, isMarked := true }
    Work.modifyStore (·.modifyCell cell fun _ => placed)
    if plan.isPreview || source = current then return none
    return some { source, target := placed.target.getD page }

/-- What a bundle compiles for a link to a document. -/
def nested (b : Bundle) (link : Link) : Work Bundle :=
  make { b.brief with input := .one link.source.text } b.output b.registry (some link.target)

/-- The line that tells what became of an asset, unless the session is silent. -/
def advise (root : Path) (r : AssetReport) : Work (Option String) := do
  if (← Work.session).silent then return none
  let source := (root.relative r.source).text
  let target := ((r.target.map (root.relative ·)).map (·.text)).getD ""
  let line := match r.status with
    | .ok => source ++ " => " ++ target ++ "    ok"
    | .notFound => source ++ " => " ++ target ++ "    not found"
    | .outside => source ++ "    not in working directory"
    | .failed f => source ++ " => " ++ target ++ "    failed: " ++ f.message
  Work.log (if r.status = .ok then .info else .warning) line
  return some line

/-- Copies an asset to its place. It is looked for in the tree as it was `before` the copies. -/
def copyAsset (before tree : FileTree) (a : Asset) : FileTree × AssetStatus :=
  match a.target with
  | none => (tree, .outside)
  | some target =>
    if !before.isFile a.source then (tree, .notFound)
    else if a.source = target then (tree, .ok)
    else
      match tree.copy a.source target with
      | .ok tree => (tree, .ok)
      | .error f => (tree, .failed f)

/-- Copies assets in order. -/
def copyAssets (before : FileTree) : FileTree → List Asset → FileTree × List AssetReport
  | tree, [] => (tree, [])
  | tree, a :: rest =>
    let (tree, status) := copyAsset before tree a
    let (tree, reports) := copyAssets before tree rest
    (tree, ⟨a.source, a.target, status⟩ :: reports)

/-- Copies every asset of a registry that is no page. -/
def materialize (registry : RegistryId) : Work (List AssetReport) := do
  let b ← get
  let assets := (b.session.store.assetsOf registry).filter (!·.isMarked)
  Work.ask (assets.flatMap fun a => a.source :: a.target.toList)
  let (tree, reports) := copyAssets b.tree b.tree assets
  modify fun b => { b with tree }
  return reports

/-- Gives the assets their places and puts paths for tokens. -/
def settle (g : Generated) : Work Relocation.Pass := do
  let pass := g.plan.run g.html (← Work.session).store g.registry
  Work.modifyStore fun _ => pass.store
  pass.made.forM fun (token, new) =>
    Work.log .debug ("relocate " ++ token.text ++ " -> " ++ new)
  return pass

/-- The page with paths for its tokens. -/
def relocate (g : Generated) : Work String := return (← settle g).html

/-- Writes a generated page, or prints it when it has no file. -/
def emit (b : Bundle) (g : Generated) : Work WriteReport := do
  let pass ← settle g
  match g.plan.outfile with
  | none =>
    Work.put (.printed (String.ofList (Listing.render Listing.printWidth pass.html.toList)))
    return {}
  | some outfile =>
    Work.write outfile pass.html
    Work.record ⟨outfile, pass.made⟩
    let pages : List AssetReport := b.documents.map fun d => ⟨d.source, some outfile, .ok⟩
    let root := b.brief.root
    let lines ← pages.filterMapM (advise root)
    let assets ←
      if b.isNested then pure []
      else materialize ((← Work.session).store.rootOf b.registry)
    let more ← assets.filterMapM (advise root)
    return { outfile := some outfile, assets, advisories := lines ++ more }

/-- Compiles a linked document, by `inner`, unless that was done before. -/
def follow (inner : Making Generated) (link : Link) : Making Unit := do
  if (← Work.session).finished.contains link.source then return
  Work.log .debug ("nested bundle " ++ link.source.text ++ " -> " ++ link.target.text)
  Work.noteLinked link.source
  let b ← (← bundle).nested link
  let _ ← Making.within b do
    let g ← inner
    emit (← bundle) g

/-- Compiles what the reference of a document in a cell links to. -/
def followCell (inner : Making Generated) (plan : Relocation) (current : Path) (cell : CellId) :
    Making Unit := do
  match ← markLink? plan current cell with
  | some link => follow inner link
  | none => return

/-- Compiles what a document links to, in order of its first references. -/
def followAll (inner : Making Generated) (plan : Relocation) (d : Document) : Making Unit := do
  (← Work.session).store.snapshot d.registry |>.forM fun (_, cell) =>
    followCell inner plan d.source cell

/-- Takes one document through the first pass. -/
def pass (inner : Making Generated) (plan : Relocation) (i : Nat) (d : Document) : Making Unit := do
  Work.enter d.source
  transform i d
  wrap i
  followAll inner plan d
  Work.leave d.source

/-- Sets the documents in the page, and compiles what they link to by `inner`. -/
def setPage (inner : Making Generated) : Making Generated := do
  let b ← bundle
  let root := b.brief.root
  let layout ← Layout.load b.output.layout root
  let plan : Relocation := ⟨root, b.output.distDir root, layout.dir, b.outfile⟩
  b.documents.zipIdx.forM fun (d, i) => pass inner plan i d
  let b ← bundle
  let outline := b.documents.flatMap (·.outline)
  let content := "\n".intercalate (b.documents.map (·.result))
  let html ← layout.render content outline b.output.data b.registry root
  return { html, outline, registry := b.registry, plan }

/-- The first pass, with at most `depth` bundles on their way at once. -/
def generateWithin : Nat → Making Generated
  | 0 => throw .tooDeep
  | depth + 1 => setPage (generateWithin depth)

end Bundle

/-- Enough for any chain of documents that link to each other. A document that is taken up for a
link is a name of the mapping, a file of the tree under one of its at most two normal names, or the
output root when a page was put there. -/
def Bench.depth (b : Bench) (mapping : Mapping) : Nat :=
  2 * (b.tree.files.length + 1) + mapping.length + 1

namespace Bundle

/-- The first pass: the page with tokens for paths. -/
def generate : Making Generated := do
  let b ← Making.bundle
  generateWithin ((← (get : Work Bench)).depth b.brief.mapping)

/-- Compiles a page, and writes or prints it. -/
def write : Making WriteReport := do
  let g ← generate
  emit (← Making.bundle) g

end Bundle

namespace Settings

/-- Makes the bundle that settings ask for, in the directory `cwd`. -/
def make (s : Settings) (cwd : Path) : Work Bundle := do
  match s.input with
  | some input =>
    if input.isEmpty then throw (.config "\"input\" is required")
    match s.silent with
    | some silent => Work.modifySession ({ · with silent })
    | none => pure ()
    let root := match s.root with
      | some root => cwd.resolve root
      | none => cwd
    let brief : Brief := ⟨input, root, s.declare, s.mapping, s.marked, s.plugins⟩
    Bundle.make brief s.output (← Work.session).root
  | none => throw (.config "\"input\" is required")

end Settings
end Bindery
