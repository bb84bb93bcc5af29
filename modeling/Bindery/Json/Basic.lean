import Bindery.Decimal.Shortest

/-!
Structured data: the values of configuration files and of template data. An object lists its
fields by name in ascending order, each name once.
-/

namespace Bindery

inductive Number where
  | int (i : Int)
  | float (x : Float)
  deriving Repr, BEq, Inhabited

inductive Json where
  | null
  | bool (b : Bool)
  | num (n : Number)
  | str (s : String)
  | arr (items : List Json)
  | obj (fields : List (String × Json))
  deriving Repr, BEq, Inhabited

namespace Json

/-- Fields in ascending order of their names. -/
abbrev Fields := List (String × Json)

def Fields.insert (name : String) (value : Json) : Fields → Fields
  | [] => [(name, value)]
  | (n, v) :: rest =>
    if n = name then (name, value) :: rest
    else if name < n then (name, value) :: (n, v) :: rest
    else (n, v) :: Fields.insert name value rest

def Fields.erase (name : String) (fs : Fields) : Fields := fs.filter (·.1 != name)

/-- The fields of `old` overridden by those of `new`. -/
def Fields.extend (old new : Fields) : Fields :=
  new.foldl (fun fs (n, v) => Fields.insert n v fs) old

def Fields.ofList (fs : List (String × Json)) : Fields := Fields.extend [] fs

def field? (name : String) : Json → Option Json
  | .obj fs => fs.lookup name
  | _ => none

def str? : Json → Option String
  | .str s => some s
  | _ => none

def bool? : Json → Option Bool
  | .bool b => some b
  | _ => none

def int? : Json → Option Int
  | .num (.int i) => some i
  | _ => none

def kind : Json → String
  | .null => "null"
  | .bool _ => "boolean"
  | .num _ => "number"
  | .str _ => "string"
  | .arr _ => "array"
  | .obj _ => "object"

end Json
end Bindery
