import Bindery.FileTree
import Bindery.Page.Plugin
import Bindery.Rendering.Productions
import Bindery.Template.Value

/-!
A session: the registries all its pages share, the documents on their way and those done, and what
it has printed and logged. Work on a session may fail, and what was done before stays done.
-/

namespace Bindery

/-- What ends a compilation. -/
inductive Failure where
  | config (reason : String)
  | markup (e : MarkupError)
  | plugin (e : PluginError)
  | template (f : Template.Fault)
  | file (path : Path) (f : FileFault)
  /-- A document links back to one that is still on its way. -/
  | cycle (path : Path)
  /-- Pages are nested deeper than there are documents. -/
  | tooDeep
  deriving Repr, DecidableEq

namespace Failure

def message : Failure → String
  | config reason => "configuration error: " ++ reason
  | markup e => e.message
  | plugin e => e.message
  | template f => "template error: " ++ f.message
  | file path f => path.text ++ ": " ++ f.message
  | cycle path => "circular markdown reference to " ++ path.text
  | tooDeep => "documents are nested too deeply"

/-- What a failure came from, the nearest first. -/
def causes : Failure → List String
  | plugin (.rejected _ _ reason) => [reason]
  | template f => [f.message]
  | file _ f => [f.message]
  | _ => []

/-- The message with all it came from. -/
def report (e : Failure) : String := ": ".intercalate (e.message :: e.causes)

end Failure

inductive Level where
  | error
  | warning
  | info
  | debug
  deriving Repr, DecidableEq

/-- What a session puts out. -/
inductive Event where
  | printed (text : String)
  | logged (level : Level) (line : String)
  deriving Repr, DecidableEq

/-- A page that was written. -/
structure WrittenPage where
  file : Path
  /-- The paths that were put in it, each for its token. -/
  links : List (Token × String)
  deriving Repr, DecidableEq

structure Session where
  store : Store
  /-- The registry that holds every asset of the session. -/
  root : RegistryId
  /-- No advisories are given. -/
  silent : Bool := false
  /-- The documents being compiled. -/
  inFlight : List Path := []
  /-- The documents compiled. -/
  finished : List Path := []
  events : List Event := []
  calls : List Call := []
  /-- The pages written, in order. -/
  pages : List WrittenPage := []
  /-- The documents taken up for a link to a page of their own, in order. -/
  linked : List Path := []

namespace Session

def fresh : Session :=
  let (store, root) := Store.newRoot {}
  { store, root }

/-- All that was printed. -/
def console (s : Session) : String :=
  String.join (s.events.filterMap fun
    | .printed text => some text
    | .logged .. => none)

end Session

/-- A file tree with a session that works on it. -/
structure Bench where
  tree : FileTree
  session : Session
  /-- The paths that were looked up. -/
  asked : List Path := []

/-- Work that may fail. A failure keeps what was done before it. -/
abbrev Work := ExceptT Failure (StateM Bench)

namespace Work

def session : Work Session := return (← get).session

def modifySession (f : Session → Session) : Work Unit :=
  modify fun b => { b with session := f b.session }

def modifyStore (f : Store → Store) : Work Unit :=
  modifySession fun s => { s with store := f s.store }

/-- Notes that paths are looked up. -/
def ask (paths : List Path) : Work Unit := modify fun b => { b with asked := b.asked ++ paths }

def put (e : Event) : Work Unit := modifySession fun s => { s with events := s.events ++ [e] }

def log (level : Level) (line : String) : Work Unit := put (.logged level line)

/-- Does to the registries what `f` does, and logs the assets that are new. -/
def register {α : Type} (f : Store → α × Store) : Work α := do
  let before := (← session).store.cells.size
  let (a, store) := f (← session).store
  modifyStore fun _ => store
  (store.cells.toList.drop before).forM fun asset =>
    log .debug ("register " ++ asset.source.text ++ " as " ++ asset.token.text)
  return a

def ofExcept {α ε : Type} (wrap : ε → Failure) : Except ε α → Work α
  | .ok a => return a
  | .error e => throw (wrap e)

def read (path : Path) : Work String := do
  ask [path]
  ofExcept (.file path) ((← get).tree.read path)

def write (path : Path) (text : String) : Work Unit := do
  ask [path]
  let tree ← ofExcept (.file path) ((← get).tree.write path (.text text))
  modify fun b => { b with tree }

/-- Notes that a page was written. -/
def record (page : WrittenPage) : Work Unit :=
  modifySession fun s => { s with pages := s.pages ++ [page] }

/-- Notes that a document is taken up for a link. -/
def noteLinked (source : Path) : Work Unit :=
  modifySession fun s => { s with linked := s.linked ++ [source] }

/-- Takes a document up. It must not be on its way already. -/
def enter (source : Path) : Work Unit := do
  if (← session).inFlight.contains source then throw (.cycle source)
  modifySession fun s => { s with inFlight := source :: s.inFlight }

/-- Lays a compiled document down. -/
def leave (source : Path) : Work Unit :=
  modifySession fun s => { s with
    inFlight := s.inFlight.erase source
    finished := source :: s.finished }

/-- Runs plugins over a value, and keeps the record of their calls. -/
def runPlugins {α : Type} (h : Plugin.Hook α) (plugins : List Plugin) (value : α)
    (options : Markdown.Options) : Work (Except Failure α × Markdown.Options) := do
  let ran := Plugin.runAll h plugins value options
  modifySession fun s => { s with calls := s.calls ++ ran.calls }
  return (ran.result.mapError .plugin, ran.options)

end Work
end Bindery
