import Bindery.Yaml.Node
import Bindery.Yaml.Plain

/-!
The data a YAML text holds. Aliases are put in by their nodes; a node inside itself has no end, so
the nesting is bounded, and so is the number of aliases.
-/

namespace Bindery.Yaml

namespace Node

def props? : Node → Option Props
  | .alias _ => none
  | .scalar ps .. | .seq ps _ | .map ps _ => some ps

mutual

/-- The nodes that aliases may stand for. -/
def named : Node → List (Nat × Node)
  | .alias _ => []
  | .scalar ps text isPlain => (ps.id.map fun id => (id, .scalar ps text isPlain)).toList
  | .seq ps items => (ps.id.map fun id => (id, .seq ps items)).toList ++ namedItems items
  | .map ps entries => (ps.id.map fun id => (id, .map ps entries)).toList ++ namedEntries entries

def namedItems : List Node → List (Nat × Node)
  | [] => []
  | n :: ns => named n ++ namedItems ns

def namedEntries : List (Node × Node) → List (Nat × Node)
  | [] => []
  | (k, v) :: es => named k ++ named v ++ namedEntries es

end

mutual

/-- The number of scalars and aliases, with two for the ends of every collection. -/
def size : Node → Nat
  | .alias _ | .scalar .. => 1
  | .seq _ items => 2 + sizeItems items
  | .map _ entries => 2 + sizeEntries entries

def sizeItems : List Node → Nat
  | [] => 0
  | n :: ns => size n + sizeItems ns

def sizeEntries : List (Node × Node) → Nat
  | [] => 0
  | (k, v) :: es => size k + size v + sizeEntries es

end

/-- Reading data, with the number of aliases that may still be put in. -/
abbrev Expand := StateT Nat (Except Fault)

def refuse {T : Type} (problem : String) : Expand T := throw ⟨problem, none, none⟩

/-- The node an alias stands for. -/
def deref (env : List (Nat × Node)) : Node → Expand Node
  | .alias id => do
    match ← get with
    | 0 => refuse "repetition limit exceeded"
    | left + 1 => set left
    match env.lookup id with
    | some n => return n
    | none => refuse "unknown anchor"
  | n => return n

def isLocalTag (tag : Option String) : Bool := tag.any fun t => t.toList.head? == some '!'

/-- A scalar by its tag, or by its text when it is plain and has none. -/
def scalarValue (ps : Props) (s : String) (isPlain : Bool) : Expand Json := do
  let given (v : Option Json) : Expand Json :=
    match v with
    | some v => return v
    | none => refuse s!"invalid value: {s}"
  match ps.tag with
  | none => if isPlain then given (Plain.value? s) else return .str s
  | some "tag:yaml.org,2002:bool" => given ((Plain.bool? s).map .bool)
  | some "tag:yaml.org,2002:int" => given (((Plain.int? s.toList).bind Plain.wide?).join)
  | some "tag:yaml.org,2002:float" => given ((Plain.real? s.toList).map Plain.Real.toJson)
  | some "tag:yaml.org,2002:null" => given (if Plain.isNull s then some .null else none)
  | some _ => return .str s

def keyText (env : List (Nat × Node)) (k : Node) : Expand String := do
  match ← deref env k with
  | .scalar _ text _ => return text
  | _ => refuse "invalid type: expected a string key"

/-- The data of a node, with at most `depth` collections inside each other. -/
def expand (env : List (Nat × Node)) : Nat → Node → Expand Json
  | depth, n => do
    let n ← deref env n
    if isLocalTag (n.props?.bind (·.tag)) then
      refuse "invalid type: enum, expected any valid JSON value"
    match n with
    | .scalar ps text isPlain => scalarValue ps text isPlain
    | .alias _ => refuse "unknown anchor"
    | .seq _ items =>
      match depth with
      | 0 => refuse "recursion limit exceeded"
      | depth + 1 => return .arr (← items.mapM (expand env depth))
    | .map _ entries =>
      match depth with
      | 0 => refuse "recursion limit exceeded"
      | depth + 1 =>
        let fields ← entries.mapM fun (k, v) => do
          let name ← keyText env k
          return (name, ← expand env depth v)
        return .obj (Json.Fields.ofList fields)

def depthLimit : Nat := 128

def toJson (n : Node) : Except Fault Json := do
  let (v, _) ← (expand n.named depthLimit n).run (n.size * 100)
  return v

end Node

/-- Reads a text that holds one document. A text without any holds nothing. -/
def parse (s : String) : Except Fault Json := do
  match ← Node.ofTokens (← Token.scan s.toList) with
  | some n => n.toJson
  | none => return .null

end Bindery.Yaml
