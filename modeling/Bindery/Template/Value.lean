import Bindery.Decimal.Reading
import Bindery.Json.Basic
import Bindery.Text.Quoted

/-!
The values of a template: data, and what is not defined. Here is how they are told apart, put in
order and written.
-/

namespace Bindery.Template

/-- What can go wrong with a template, by kind. -/
inductive Fault where
  | syntaxError
  | badEscape
  | undefinedError
  | invalidOperation
  | unknownFilter
  | unknownTest
  | unknownFunction
  | unknownMethod
  | missingArgument
  | tooManyArguments
  | cannotUnpack
  | templateNotFound
  deriving Repr, DecidableEq

def Fault.message : Fault → String
  | .syntaxError => "syntax error"
  | .badEscape => "bad string escape"
  | .undefinedError => "undefined value"
  | .invalidOperation => "invalid operation"
  | .unknownFilter => "unknown filter"
  | .unknownTest => "unknown test"
  | .unknownFunction => "unknown function"
  | .unknownMethod => "unknown method"
  | .missingArgument => "missing argument"
  | .tooManyArguments => "too many arguments"
  | .cannotUnpack => "cannot unpack"
  | .templateNotFound => "template not found"

inductive Value where
  | undefined
  | none
  | bool (b : Bool)
  | num (n : Number)
  /-- Text that is `safe` is markup already. -/
  | str (s : String) (safe : Bool)
  | list (items : List Value)
  /-- Fields in ascending order of their names. -/
  | map (fields : List (String × Value))
  /-- Items that have a value in common. -/
  | group (shared : Value) (members : List Value)
  deriving Repr, Inhabited

namespace Value

def text (s : String) : Value := .str s false

def int (i : Int) : Value := .num (.int i)

mutual

def ofJson : Json → Value
  | .null => .none
  | .bool b => .bool b
  | .num n => .num n
  | .str s => .str s false
  | .arr items => .list (ofJsons items)
  | .obj fields => .map (ofFields fields)

def ofJsons : List Json → List Value
  | [] => []
  | v :: vs => ofJson v :: ofJsons vs

def ofFields : List (String × Json) → List (String × Value)
  | [] => []
  | (name, v) :: fs => (name, ofJson v) :: ofFields fs

end

def insertField (name : String) (v : Value) : List (String × Value) → List (String × Value)
  | [] => [(name, v)]
  | (n, w) :: rest =>
    if n = name then (name, v) :: rest
    else if name < n then (name, v) :: (n, w) :: rest
    else (n, w) :: insertField name v rest

/-- A float with a point, in full or, where `short` holds, by an exponent when it is very large or
very small. -/
def floatText (short : Bool) (x : Float) : String :=
  if x.isNaN then "NaN"
  else
    let sign := if Decimal.isNegative x then "-" else ""
    if !x.isFinite then sign ++ "inf"
    else if Decimal.isZero x then sign ++ "0.0"
    else
      let d := Decimal.shortest x
      let ds := (toString d.digits).toList
      let point : Int := ds.length + d.exponent
      let zeros (n : Nat) := List.replicate n '0'
      let body :=
        if short && (point > 16 || point < -3) then
          ds.take 1 ++ (if ds.length > 1 then '.' :: ds.drop 1 else []) ++
            'e' :: (toString (point - 1)).toList
        else if 0 ≤ d.exponent then ds ++ zeros d.exponent.toNat ++ ".0".toList
        else if 0 < point then ds.take point.toNat ++ '.' :: ds.drop point.toNat
        else "0.".toList ++ zeros (-point).toNat ++ ds
      sign ++ String.ofList body

/-- What stands between the brackets of a list or a map: in one line, or a line for each item where
`indent` gives the depth. -/
def spread (indent : Option Nat) (opening closing : String) (items : List String) : String :=
  match indent with
  | some depth =>
    if items.isEmpty then opening ++ closing
    else
      let pad (n : Nat) := "".pushn ' ' (4 * n)
      opening ++ "\n" ++ String.join (items.map fun item => pad (depth + 1) ++ item ++ ",\n") ++
        pad depth ++ closing
  | Option.none => opening ++ ", ".intercalate items ++ closing

mutual

/-- A value inside another one; text is quoted there. -/
def nested (indent : Option Nat) : Value → String
  | .undefined => "undefined"
  | .none => "None"
  | .bool b => if b then "True" else "False"
  | .num (.int i) => toString i
  | .num (.float x) => floatText true x
  | .str s _ => Text.quoted s
  | .list items => spread indent "[" "]" (nestedItems (indent.map (· + 1)) items)
  | .map fields => spread indent "\x7b" "\x7d" (nestedFields (indent.map (· + 1)) fields)
  | .group shared members =>
    let within := indent.map (· + 1)
    spread indent "[" "]" [nested within shared,
      spread within "[" "]" (nestedItems (within.map (· + 1)) members)]

def nestedItems (indent : Option Nat) : List Value → List String
  | [] => []
  | v :: vs => nested indent v :: nestedItems indent vs

def nestedFields (indent : Option Nat) : List (String × Value) → List String
  | [] => []
  | (name, v) :: fs => (Text.quoted name ++ ": " ++ nested indent v) :: nestedFields indent fs

end

/-- A value as it is printed; what is not defined prints as nothing. -/
def print : Value → String
  | .undefined => ""
  | .str s _ => s
  | .num (.float x) => floatText false x
  | v => v.nested Option.none

def isTrue : Value → Bool
  | .undefined | .none => false
  | .bool b => b
  | .num (.int i) => i != 0
  | .num (.float x) => x != 0
  | .str s _ => !s.isEmpty
  | .list items => !items.isEmpty
  | .map fields => !fields.isEmpty
  | .group .. => true

/-- A value as a number; truth counts as one. -/
def number? : Value → Option Number
  | .num n => some n
  | .bool b => some (.int (if b then 1 else 0))
  | _ => Option.none

def asFloat : Number → Float
  | .int i => Float.ofInt i
  | .float x => x

def compareNumbers : Number → Number → Ordering
  | .int i, .int j => compare i j
  | a, b =>
    let x := asFloat a
    let y := asFloat b
    if x < y then .lt else if x == y then .eq else .gt

/-- The order of values of different kinds. -/
def rank : Value → Nat
  | .undefined => 0
  | .none => 1
  | .bool _ => 2
  | .num _ => 3
  | .str .. => 4
  | .list _ | .group .. => 5
  | .map _ => 6

def orderText (s t : String) : Ordering := if s < t then .lt else if s = t then .eq else .gt

mutual

/-- A total order: numbers and texts by size, lists and maps from their front. -/
def order : Value → Value → Ordering
  | .str s _, .str t _ => orderText s t
  | .list xs, .list ys => orderItems xs ys
  | .map xs, .map ys => orderFields xs ys
  | .group a xs, .group b ys => (order a b).then (orderItems xs ys)
  | a, b =>
    match a.number?, b.number? with
    | some m, some n => compareNumbers m n
    | _, _ => compare a.rank b.rank

def orderItems : List Value → List Value → Ordering
  | [], [] => .eq
  | [], _ => .lt
  | _, [] => .gt
  | x :: xs, y :: ys => (order x y).then (orderItems xs ys)

def orderFields : List (String × Value) → List (String × Value) → Ordering
  | [], [] => .eq
  | [], _ => .lt
  | _, [] => .gt
  | (m, x) :: xs, (n, y) :: ys => ((orderText m n).then (order x y)).then (orderFields xs ys)

end

def same (a b : Value) : Bool := order a b == .eq

/-- The values a loop runs over: the items of a list, the names of a map, the characters of a
text, and nothing where there is no value. -/
def items? : Value → Option (List Value)
  | .undefined | .none => some []
  | .list items => some items
  | .map fields => some (fields.map fun (name, _) => text name)
  | .str s _ => some (s.toList.map fun c => text c.toString)
  | .group shared members => some [shared, .list members]
  | _ => Option.none

def length? : Value → Option Nat
  | .list items => some items.length
  | .map fields => some fields.length
  | .str s _ => some s.length
  | .group .. => some 2
  | _ => Option.none

/-- A value as a whole number. -/
def int? : Value → Option Int
  | .bool b => some (if b then 1 else 0)
  | .num (.int i) => some i
  | .num (.float x) =>
    let i := Decimal.truncate x
    if x.isFinite && Float.ofInt i == x then some i else Option.none
  | _ => Option.none

/-- Counts from the end when the position is negative. -/
def position (length : Nat) (i : Int) : Option Nat :=
  if 0 ≤ i then some i.toNat
  else if -i ≤ length then some (length - (-i).toNat)
  else Option.none

def itemAt (items : List Value) (i : Int) : Value :=
  ((position items.length i).bind fun n => items[n]?).getD .undefined

/-- The field or item of a value by a key. What has none gives an undefined value, and what is
itself undefined has no fields to ask for. -/
def get (v key : Value) : Except Fault Value :=
  match v, key with
  | .undefined, _ => .error .undefinedError
  | .map fields, .str name _ => .ok ((fields.lookup name).getD .undefined)
  | .list items, .num (.int i) => .ok (itemAt items i)
  | .str s _, .num (.int i) => .ok (itemAt (s.toList.map fun c => text c.toString) i)
  | .group shared members, .num (.int i) => .ok (itemAt [shared, .list members] i)
  | .group shared members, .str name _ =>
    .ok (if name == "grouper" then shared else if name == "list" then .list members else .undefined)
  | _, _ => .ok .undefined

end Value
end Bindery.Template
