import Bindery.Decimal.Reading
import Bindery.Json.Basic

/-!
What a plain scalar means: nothing, truth, a number, or its own text.
-/

namespace Bindery.Yaml.Plain

open Decimal (digits? isDigit)

def isNull (s : String) : Bool := s == "null" || s == "Null" || s == "NULL" || s == "~"

def bool? (s : String) : Option Bool :=
  if s == "true" || s == "True" || s == "TRUE" then some true
  else if s == "false" || s == "False" || s == "FALSE" then some false
  else none

def isSign (c : Char) : Bool := c == '+' || c == '-'

/-- Digits after a needless zero. They make a text, not a number. -/
def hasLeadingZero (cs : List Char) : Bool :=
  let body := if cs.head?.any isSign then cs.tail else cs
  body.length > 1 && body.head? == some '0' && body.all isDigit

/-- A number behind the letter of its base. -/
def based? (cs : List Char) : Option Nat :=
  match cs with
  | '0' :: 'x' :: rest => digits? 16 rest
  | '0' :: 'o' :: rest => digits? 8 rest
  | '0' :: 'b' :: rest => digits? 2 rest
  | _ => none

/-- A whole number, in base ten or behind the letter of its base. -/
def int? (cs : List Char) : Option Int :=
  match cs with
  | '-' :: rest =>
    match based? rest with
    | some n => some (-n)
    | none => if hasLeadingZero cs then none else (digits? 10 rest).map fun n => -(n : Int)
  | _ =>
    let rest := if cs.head? == some '+' then cs.tail else cs
    match based? rest with
    | some n => some n
    | none => if hasLeadingZero cs then none else (digits? 10 rest).map fun n => (n : Int)

inductive Real where
  | finite (x : Float)
  | boundless

/-- A float, or one of the words for what is no number or beyond all. -/
def real? (cs : List Char) : Option Real :=
  let bare := if cs.head? == some '+' then cs.tail else cs
  if cs.head? == some '+' && bare.head?.any isSign then none
  else if [".inf", ".Inf", ".INF"].contains (String.ofList bare) ||
      ["-.inf", "-.Inf", "-.INF", ".nan", ".NaN", ".NAN"].contains (String.ofList cs) then
    some .boundless
  else
    match Decimal.float? bare with
    | some x => if x.isFinite then some (.finite x) else none
    | none => none

/-- What is no number, or beyond all, is nothing. -/
def Real.toJson : Real → Json
  | .finite x => .num (.float x)
  | .boundless => .null

/-- A whole number as data, when 64 bits hold it. The answer is missing for one that only 128 bits
hold. -/
def wide? (i : Int) : Option (Option Json) :=
  if -(1 <<< 63) ≤ i && i < 1 <<< 64 then some (some (.num (.int i)))
  else if -(1 <<< 127) ≤ i && i < 1 <<< 128 then some none
  else none

/-- The value of a plain scalar; none when it is a number that data cannot hold. -/
def value? (s : String) : Option Json :=
  let cs := s.toList
  if s.isEmpty || isNull s then some .null
  else
    match bool? s with
    | some b => some (.bool b)
    | none =>
      match (int? cs).bind wide? with
      | some v => v
      | none =>
        if hasLeadingZero cs then some (.str s)
        else some (((real? cs).map Real.toJson).getD (.str s))

end Bindery.Yaml.Plain
