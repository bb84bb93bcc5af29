import Bindery.Json.Record
import Bindery.Path
import Bindery.Text.Basic

/-!
What to compile: one entry, or a list of entries in any nesting. A name of the mapping stands for
the entries it maps to.
-/

namespace Bindery

inductive Entry where
  | one (path : String)
  | many (entries : List Entry)
  deriving Repr, Inhabited

/-- Entries by name. -/
abbrev Mapping := List (String × Entry)

namespace Entry

mutual

/-- Nothing is named. -/
def isEmpty : Entry → Bool
  | one path => (Text.trim path.toList).isEmpty
  | many entries => areEmpty entries

def areEmpty : List Entry → Bool
  | [] => true
  | e :: es => e.isEmpty && areEmpty es

end

mutual

/-- The paths of an entry in order. -/
def paths : Entry → List String
  | one path => [path]
  | many entries => allPaths entries

def allPaths : List Entry → List String
  | [] => []
  | e :: es => e.paths ++ allPaths es

end

/-- The text of a single entry. -/
def scalar? : Entry → Option String
  | one path => some path
  | many _ => none

/-- The source files of an entry. Only a single entry can name a mapping. -/
def files (e : Entry) (mapping : Mapping) (root : Path) : List Path :=
  let source := match e with
    | one name => (mapping.lookup name).getD e
    | many _ => e
  source.paths.map fun p => root.resolve ⟨p⟩

mutual

def ofJson : Json → Json.Reads Entry
  | .str s => .ok (one s)
  | .arr items => (allOfJson items).map many
  | _ => .error (.noVariant "Input")

def allOfJson : List Json → Json.Reads (List Entry)
  | [] => .ok []
  | v :: vs => do return (← ofJson v) :: (← allOfJson vs)

end

mutual

def toJson : Entry → Json
  | one s => .str s
  | many entries => .arr (allToJson entries)

def allToJson : List Entry → List Json
  | [] => []
  | e :: es => e.toJson :: allToJson es

end

end Entry

namespace Mapping

def ofJson (v : Json) : Json.Reads Mapping := do
  (← v.object).mapM fun (name, v) => return (name, ← Entry.ofJson v)

def toJson (m : Mapping) : Json := .obj (m.map fun (name, e) => (name, e.toJson))

end Mapping
end Bindery
