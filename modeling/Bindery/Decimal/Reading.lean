import Bindery.Decimal.Shortest
import Bindery.Text.Numeral

/-!
Floats from decimal digits, and whole numbers from floats.
-/

namespace Bindery.Decimal

def isDigit (c : Char) : Bool := '0' ≤ c && c ≤ '9'

/-- A number in a base, when the text is all digits of it. -/
def digits? (base : Nat) (cs : List Char) : Option Nat :=
  if !cs.isEmpty && cs.all fun c => (Text.hexDigit? c).any (· < base) then
    some (Text.numeral base cs)
  else none

/-- The sign of a number and the text after it. -/
def signed (cs : List Char) : Bool × List Char :=
  match cs with
  | '-' :: rest => (true, rest)
  | '+' :: rest => (false, rest)
  | _ => (false, cs)

/-- A whole number with or without a sign. -/
def int? (cs : List Char) : Option Int :=
  let (negative, ds) := signed cs
  (digits? 10 ds).map fun n => if negative then -(n : Int) else n

/-- An exponent: a mark, and digits that may have a sign. -/
def exponent? (cs : List Char) : Option Int :=
  match cs with
  | [] => some 0
  | c :: rest => if c = 'e' || c = 'E' then int? rest else none

/-- A power of ten that takes every number out of the range of floats. -/
def exponentLimit : Nat := 100000

/-- The float nearest to a decimal number. -/
def float? (cs : List Char) : Option Float := do
  let (negative, cs) := signed cs
  let whole := cs.takeWhile isDigit
  let rest := cs.drop whole.length
  let (part, rest) := match rest with
    | '.' :: more => (more.takeWhile isDigit, more.dropWhile isDigit)
    | _ => ([], rest)
  if whole.isEmpty && part.isEmpty then none
  let e ← exponent? rest
  let n := Text.numeral 10 (whole ++ part)
  let e := e - part.length
  let size := min e.natAbs exponentLimit
  let x := Float.ofScientific n (e < 0) size
  return if negative then -x else x

/-- The whole part of a float; beyond all is as far as 128 bits reach. -/
def truncate (x : Float) : Int :=
  let limit : Int := 1 <<< 127
  if x.isNaN then 0
  else if !x.isFinite then if isNegative x then -limit else limit - 1
  else
    let b := Binary.ofBits (x.toBits.toNat % (1 <<< 63))
    let n := b.mantissa * Nat.pow 2 b.exponent.toNat / Nat.pow 2 (-b.exponent).toNat
    if isNegative x then max (-limit) (-(n : Int)) else min (limit - 1) n

end Bindery.Decimal
