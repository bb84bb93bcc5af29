import Bindery.Json.Printer
import Bindery.Text.Quoted

/-!
Reading records out of structured data. A record is an object, or a list that gives its fields in
order; fields that are missing take their defaults, and names it does not know are passed over.
-/

namespace Bindery.Json

/-- Why data is no value of a type. -/
inductive Mismatch where
  | wrongType (found : Json) (expected : String)
  | wrongValue (found : Json) (expected : String)
  /-- None of the forms of the named type fits. -/
  | noVariant (type : String)
  | missingField (name : String)
  /-- A list with more items than a record has fields. -/
  | tooLong (length : Nat)
  deriving Repr

/-- What data is, in an error. -/
def described : Json → String
  | .null => "null"
  | .bool b => "boolean \x60" ++ (if b then "true" else "false") ++ "\x60"
  | .num (.int i) => "integer \x60" ++ toString i ++ "\x60"
  | .num (.float x) => "floating point \x60" ++ (Json.num (.float x)).compress ++ "\x60"
  | .str s => "string " ++ Text.quoted s
  | .arr _ => "sequence"
  | .obj _ => "map"

def Mismatch.message : Mismatch → String
  | wrongType found expected => "invalid type: " ++ found.described ++ ", expected " ++ expected
  | wrongValue found expected => "invalid value: " ++ found.described ++ ", expected " ++ expected
  | noVariant type => "data did not match any variant of untagged enum " ++ type
  | missingField name => "missing field \x60" ++ name ++ "\x60"
  | tooLong length => s!"invalid length {length}, expected fewer elements in array"

abbrev Reads (α : Type) := Except Mismatch α

def string : Json → Reads String
  | .str s => .ok s
  | v => .error (.wrongType v "a string")

def boolean : Json → Reads Bool
  | .bool b => .ok b
  | v => .error (.wrongType v "a boolean")

def fields? : Json → Option Fields
  | .obj fields => some fields
  | _ => none

def object : Json → Reads Fields
  | .obj fields => .ok fields
  | v => .error (.wrongType v "a map")

/-- A whole number of one byte. -/
def byte (v : Json) : Reads Nat :=
  match v with
  | .num (.int i) => if 0 ≤ i && i ≤ 255 then .ok i.toNat else .error (.wrongValue v "u8")
  | v => .error (.wrongType v "u8")

/-- A value that may be null. -/
def nullable {α : Type} (read : Json → Reads α) : Json → Reads (Option α)
  | .null => .ok none
  | v => (read v).map some

/-- The fields given for a record of the named type with these fields. -/
def record (type : String) (names : List String) : Json → Reads Fields
  | .obj fields => .ok fields
  | .arr items =>
    if items.length ≤ names.length then .ok (names.zip items) else .error (.tooLong items.length)
  | v => .error (.wrongType v ("struct " ++ type))

/-- A field that may be missing. -/
def Fields.read {α : Type} (fs : Fields) (name : String) (absent : α) (read : Json → Reads α) :
    Reads α :=
  match fs.lookup name with
  | some v => read v
  | none => .ok absent

/-- A field that must be there. -/
def Fields.need {α : Type} (fs : Fields) (name : String) (read : Json → Reads α) : Reads α :=
  match fs.lookup name with
  | some v => read v
  | none => .error (.missingField name)

end Bindery.Json
