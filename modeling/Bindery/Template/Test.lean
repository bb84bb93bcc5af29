import Bindery.Template.Argument
import Bindery.Text.Case

/-!
The tests of a template by their names.
-/

namespace Bindery.Template.Test

open Operator (invalid)

def comparison? (name : String) : Option (Ordering → Bool) :=
  match name with
  | "eq" | "equalto" | "==" => some (· == .eq)
  | "ne" | "!=" => some (· != .eq)
  | "lt" | "lessthan" | "<" => some (· == .lt)
  | "le" | "<=" => some (· != .gt)
  | "gt" | "greaterthan" | ">" => some (· == .gt)
  | "ge" | ">=" => some (· != .lt)
  | _ => none

def divides (divisor v : Value) : Bool :=
  match v.number?, divisor.number? with
  | some (.int i), some (.int j) => j != 0 && i % j == 0
  | some m, some n =>
    let x := Value.asFloat m
    let y := Value.asFloat n
    Operator.remFloat x y == 0
  | _, _ => false

/-- Are two values of one kind and equal? -/
def isSame (v w : Value) : Bool :=
  v.rank == w.rank && Value.same v w &&
    (v matches .num (.int _)) == (w matches .num (.int _))

def isLower (s : String) : Bool :=
  s.toList.all fun c => Text.lowerChar c == [c] && Text.upperChar c != [c]

def isUpper (s : String) : Bool :=
  s.toList.all fun c => Text.upperChar c == [c] && Text.lowerChar c != [c]

/-- The names of tests that take one argument. -/
def binary : List String :=
  ["divisibleby", "sameas", "in", "startingwith", "endingwith"]

/-- The names of tests that take no argument. -/
def unary : List String :=
  ["defined", "undefined", "none", "true", "false", "boolean", "number", "integer", "int", "float",
    "string", "sequence", "mapping", "iterable", "safe", "escaped", "odd", "even", "lower", "upper",
    "filter", "test"]

def exists? (name : String) : Bool :=
  unary.contains name || binary.contains name || (comparison? name).isSome

/-- A test without an argument. -/
def holdsOf (isFilter : String → Bool) (name : String) (v : Value) : Except Fault Bool :=
  match name with
  | "defined" => .ok !(v matches .undefined)
  | "undefined" => .ok (v matches .undefined)
  | "none" => .ok (v matches .none)
  | "true" => .ok (v matches .bool true)
  | "false" => .ok (v matches .bool false)
  | "boolean" => .ok (v matches .bool _)
  | "number" => .ok (v matches .num _)
  | "integer" | "int" => .ok (v matches .num (.int _))
  | "float" => .ok (v matches .num (.float _))
  | "string" => .ok (v matches .str ..)
  | "sequence" => .ok (v matches .list _ | .group ..)
  | "mapping" => .ok (v matches .map _)
  | "iterable" => .ok v.items?.isSome
  | "safe" | "escaped" => .ok (v matches .str _ true)
  | "odd" => .ok (v.int?.any (· % 2 != 0))
  | "even" => .ok (v.int?.any (· % 2 == 0))
  | "lower" => (Given.word v).map isLower
  | "upper" => (Given.word v).map isUpper
  | "filter" => (Given.word v).map isFilter
  | "test" => (Given.word v).map exists?
  | _ => .error .unknownTest

/-- A test with one argument. -/
def holdsWith (name : String) (v w : Value) : Except Fault Bool :=
  match comparison? name with
  | some p => .ok (p (v.order w))
  | none =>
    match name with
    | "divisibleby" => .ok (divides w v)
    | "sameas" => .ok (isSame v w)
    | "in" =>
      match Operator.contains w v with
      | .ok found => .ok found
      | .error _ => .ok false
    | "startingwith" => .ok (w.print.toList.isPrefixOf v.print.toList)
    | "endingwith" => .ok (w.print.toList.isSuffixOf v.print.toList)
    | _ => .error .unknownTest

def holds (isFilter : String → Bool) (name : String) (v : Value) (args : List Value) :
    Except Fault Bool :=
  match args with
  | [] =>
    if unary.contains name then holdsOf isFilter name v
    else if exists? name then .error .missingArgument
    else .error .unknownTest
  | w :: more =>
    if !exists? name then .error .unknownTest
    else if unary.contains name || !more.isEmpty then .error .tooManyArguments
    else holdsWith name v w

end Bindery.Template.Test
