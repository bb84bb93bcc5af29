import Bindery.Path

/-!
A tree of files, with what can be asked of it and done to it. A place is the list of names that
leads to it from the root.
-/

namespace Bindery

/-- What a file holds. Bytes that are no text stay bytes. -/
inductive Content where
  | text (s : String)
  | binary (bytes : List UInt8)
  deriving Repr, DecidableEq, Inhabited

def Content.ofBytes (bytes : List UInt8) : Content :=
  match String.fromUTF8? ⟨bytes.toArray⟩ with
  | some s => .text s
  | none => .binary bytes

inductive FileFault where
  | notFound
  | notADirectory
  | isADirectory
  | alreadyExists
  | invalidText
  deriving Repr, DecidableEq

def FileFault.message : FileFault → String
  | .notFound => "No such file or directory (os error 2)"
  | .notADirectory => "Not a directory (os error 20)"
  | .isADirectory => "Is a directory (os error 21)"
  | .alreadyExists => "File exists (os error 17)"
  | .invalidText => "stream did not contain valid UTF-8"

abbrev Place := List String

structure FileTree where
  /-- The directories but the root. -/
  directories : List Place := []
  files : List (Place × Content) := []
  deriving Repr, DecidableEq

namespace FileTree

def content? (t : FileTree) (p : Place) : Option Content := t.files.lookup p

def hasFile (t : FileTree) (p : Place) : Bool := (t.content? p).isSome

def hasDirectory (t : FileTree) (p : Place) : Bool := p.isEmpty || t.directories.contains p

/-- Follows the steps of a path from a place. What a step leaves has to be a directory. -/
def follow (t : FileTree) (p : Place) : List Component → Except FileFault Place
  | [] => .ok p
  | .root :: cs => follow t [] cs
  | .here :: cs => follow t p cs
  | step :: cs =>
    if t.hasDirectory p then
      match step with
      | .name s => follow t (p ++ [s]) cs
      | _ => follow t p.dropLast cs
    else .error (if t.hasFile p then .notADirectory else .notFound)

/-- The place of a path; something need not be there, unless the path ends like a directory's. -/
def locate (t : FileTree) (p : Path) : Except FileFault Place := do
  let place ← t.follow [] p.components
  if p.endsInDirectory && !t.hasDirectory place then
    throw (if t.hasFile place then .notADirectory else .notFound)
  return place

def isFile (t : FileTree) (p : Path) : Bool :=
  match t.locate p with
  | .ok place => t.hasFile place
  | .error _ => false

def isDirectory (t : FileTree) (p : Path) : Bool :=
  match t.locate p with
  | .ok place => t.hasDirectory place
  | .error _ => false

/-- The text of a file. -/
def read (t : FileTree) (p : Path) : Except FileFault String := do
  let place ← t.locate p
  match t.content? place with
  | some (.text s) => return s
  | some (.binary _) => throw .invalidText
  | none => throw (if t.hasDirectory place then .isADirectory else .notFound)

def addDirectory (t : FileTree) (p : Place) : FileTree :=
  if t.hasDirectory p then t else { t with directories := p :: t.directories }

/-- Makes the directories on the way to `p + rest`, from `p` on. -/
def makeFrom (t : FileTree) (p : Place) : List String → Except FileFault FileTree
  | [] => .ok t
  | s :: rest =>
    let p := p ++ [s]
    if t.hasFile p then .error (if rest.isEmpty then .alreadyExists else .notADirectory)
    else (t.addDirectory p).makeFrom p rest

/-- Makes a directory and those above it. -/
def makeDirectories (t : FileTree) (p : Place) : Except FileFault FileTree := t.makeFrom [] p

def setFile (p : Place) (c : Content) : List (Place × Content) → List (Place × Content)
  | [] => [(p, c)]
  | (q, d) :: rest => if q = p then (p, c) :: rest else (q, d) :: setFile p c rest

/-- Puts a file at a place whose directory exists. -/
def put (t : FileTree) (p : Place) (c : Content) : FileTree :=
  { t with files := setFile p c t.files }

/-- The place that an absolute path without `.` and `..` names. -/
def placeOf (p : Path) : Place :=
  p.components.filterMap fun
    | .name s => some s
    | _ => none

/-- Writes a file, and makes the directories above it. -/
def write (t : FileTree) (p : Path) (c : Content) : Except FileFault FileTree := do
  let place := placeOf p
  let t ← t.makeDirectories place.dropLast
  if t.hasDirectory place then throw .isADirectory
  return t.put place c

/-- What a copy holds. A file that is copied onto itself is emptied before it is read. -/
def copied (place target : Place) (c : Content) : Content := if place = target then .text "" else c

/-- Copies a file byte for byte, and makes the directories above its new place. -/
def copy (t : FileTree) (source target : Path) : Except FileFault FileTree := do
  let place ← t.locate source
  match t.content? place with
  | some c => t.write target (copied place (placeOf target) c)
  | none => throw .notFound

def isBelow (p q : Place) : Bool := p.isPrefixOf q

/-- Takes a file or a directory with all in it away. -/
def remove (t : FileTree) (p : Place) : FileTree where
  directories := t.directories.filter (!isBelow p ·)
  files := t.files.filter fun (q, _) => !isBelow p q

end FileTree
end Bindery
