import Bindery.Text.Basic

/-!
File paths with `/` between their names, read by their components. Nothing here looks at a file
system: `..` is cancelled against the name before it.
-/

namespace Bindery

/-- One step of a path. -/
inductive Component where
  | root
  | here
  | up
  | name (text : String)
  deriving Repr, DecidableEq

def Component.text : Component → String
  | .root => "/"
  | .here => "."
  | .up => ".."
  | .name s => s

/-- A path as it is written. -/
structure Path where
  text : String
  deriving Repr, DecidableEq, Inhabited

namespace Path

def isAbsolute (p : Path) : Bool := p.text.toList.head? == some '/'

/-- What a piece between slashes stands for; empty pieces and single dots stand for nothing. -/
def component? (piece : List Char) : Option Component :=
  if piece = [] || piece = ['.'] then none
  else if piece = ['.', '.'] then some .up
  else some (.name (String.ofList piece))

/-- The steps of a path: a leading slash is the root, a leading dot stays. -/
def components (p : Path) : List Component :=
  match Text.splitOn (· == '/') p.text.toList with
  | [] => []
  | first :: rest =>
    (if first = ['.'] then [.here]
      else if p.isAbsolute then [.root]
      else (component? first).toList) ++ rest.filterMap component?

def ofComponents : List Component → Path
  | .root :: rest => ⟨"/" ++ "/".intercalate (rest.map Component.text)⟩
  | cs => ⟨"/".intercalate (cs.map Component.text)⟩

/-- Goes from `base` along `target`; an absolute target starts afresh. -/
def join (base target : Path) : Path :=
  if target.isAbsolute then target
  else if base.text.isEmpty || base.text.toList.getLast? == some '/' then ⟨base.text ++ target.text⟩
  else ⟨base.text ++ "/" ++ target.text⟩

/-- One step onto a stack of steps, the latest first. Climbing takes the latest step back, and is
kept where there is none to take back. -/
def normalizeStep (stack : List Component) : Component → List Component
  | .here => stack
  | .up =>
    match stack with
    | [] => [.up]
    | [.root] => [.up, .root]
    | _ :: rest => rest
  | .root => [.root]
  | .name s => .name s :: stack

/-- The path without `.` steps and with every `..` step taken as far as it goes. -/
def normalize (p : Path) : Path :=
  ofComponents (p.components.foldl normalizeStep []).reverse

/-- Where `target` leads from the directory `base`. -/
def resolve (base target : Path) : Path := (base.join target).normalize

/-- The two lists without their common start. -/
def stripCommon : List Component → List Component → List Component × List Component
  | a :: as, b :: bs => if a = b then stripCommon as bs else (a :: as, b :: bs)
  | as, bs => (as, bs)

/-- The way from directory `base` to `target`: up to the common directory and down again. -/
def relative (base target : Path) : Path :=
  let (back, forth) := stripCommon base.components target.components
  let ups := (back.filter fun c => c != .root && c != .here).map fun _ => Component.up
  let downs := forth.filter (· != .here)
  let way := if downs.head? == some .root then downs else ups ++ downs
  if way.isEmpty then ⟨"."⟩ else ofComponents way

/-- The path as it is written in a page. -/
def url (p : Path) : String :=
  "/".intercalate (p.components.map fun c => if c = .root then "" else c.text)

/-- `p` is `base` or lies below it. -/
def isWithin (base p : Path) : Bool := base.components.isPrefixOf p.components

def parent? (p : Path) : Option Path :=
  match p.components.reverse with
  | [] => none
  | [.root] => none
  | _ :: rest => some (ofComponents rest.reverse)

def fileName? (p : Path) : Option String :=
  match p.components.getLast? with
  | some (.name s) => some s
  | _ => none

/-- The text before and after the last dot; a leading dot does not count. -/
def splitLastDot (name : List Char) : Option (List Char × List Char) :=
  let ext := (name.reverse.takeWhile (· != '.')).reverse
  let before := name.take (name.length - ext.length - 1)
  if ext.length < name.length && !before.isEmpty then some (before, ext) else none

def extension? (p : Path) : Option String := do
  let name ← p.fileName?
  let (_, ext) ← splitLastDot name.toList
  return String.ofList ext

/-- The path is written as that of a directory. -/
def endsInDirectory (p : Path) : Bool :=
  match p.text.toList.reverse with
  | '/' :: _ | '.' :: '/' :: _ => true
  | _ => false

/-- A reversed path without the slashes and single dots after its last name. -/
def dropTrail : List Char → List Char
  | '/' :: rest => dropTrail rest
  | '.' :: '/' :: rest => dropTrail rest
  | cs => cs

/-- The path with the extension of its file name replaced; a path that ends in no name stays. -/
def withExtension (p : Path) (ext : String) : Path :=
  match p.fileName? with
  | none => p
  | some name =>
    let kept := (dropTrail p.text.toList.reverse).reverse
    let directory := kept.take (kept.length - name.length)
    let stem := match splitLastDot name.toList with
      | some (before, _) => before
      | none => name.toList
    ⟨String.ofList (directory ++ stem) ++ "." ++ ext⟩

/-- Markdown documents are the files with extension `md`, in any case. -/
def isMarkdown (p : Path) : Bool :=
  match p.extension? with
  | some ext => Text.asciiLower ext.toList == "md".toList
  | none => false

end Path
end Bindery
