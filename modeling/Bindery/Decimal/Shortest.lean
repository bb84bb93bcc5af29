/-!
The shortest decimal that reads back as a given float: the fewest digits of which some grid point
lies in the interval of numbers that round to it, and of those the nearest.
-/

namespace Bindery.Decimal

/-- A float as `mantissa * 2 ^ exponent`, without its sign. -/
structure Binary where
  mantissa : Nat
  exponent : Int
  /-- The float below is nearer than the one above. -/
  atPower : Bool

/-- Reads the bits of a finite float. -/
def Binary.ofBits (bits : Nat) : Binary :=
  let fraction := bits % (1 <<< 52)
  let biased : Nat := (bits / (1 <<< 52)) % (1 <<< 11)
  if biased = 0 then ⟨fraction, -1074, false⟩
  else ⟨fraction + (1 <<< 52), (biased : Int) - 1075, fraction = 0 && biased > 1⟩

/-- A decimal `digits * 10 ^ exponent`. -/
structure Digits where
  digits : Nat
  exponent : Int
  deriving Repr, DecidableEq

/-- A quarter unit in the last place counts 1; the bounds of the rounding interval, the float
between them, and the fraction that turns a count into a number. -/
structure Interval where
  low : Nat
  mid : Nat
  high : Nat
  closed : Bool
  num : Nat
  den : Nat

def Binary.interval (b : Binary) : Interval :=
  let e := b.exponent - 2
  { low := 4 * b.mantissa - (if b.atPower then 1 else 2)
    mid := 4 * b.mantissa
    high := 4 * b.mantissa + 2
    closed := b.mantissa % 2 = 0
    num := Nat.pow 2 e.toNat
    den := Nat.pow 2 (-e).toNat }

/-- The exponent of the leading digit of `num / den`. -/
def leading (num den : Nat) : Int :=
  if den ≤ num then ((toString (num / den)).length : Int) - 1
  else
    match (List.range 400).find? fun t => den ≤ num * Nat.pow 10 t with
    | some t => -(t : Int)
    | none => 0

/-- Does the decimal `n * 10 ^ k` lie in the interval? -/
def Interval.holds (iv : Interval) (n : Nat) (k : Int) : Bool :=
  let x := n * Nat.pow 10 k.toNat * iv.den
  let scale := Nat.pow 10 (-k).toNat * iv.num
  if iv.closed then iv.low * scale ≤ x && x ≤ iv.high * scale
  else iv.low * scale < x && x < iv.high * scale

/-- The best decimal with `n` digits in the interval, if there is one. -/
def Interval.withDigits (iv : Interval) (n : Nat) : Option Digits :=
  let k := leading (iv.mid * iv.num) iv.den - n + 1
  let x := iv.mid * iv.num * Nat.pow 10 (-k).toNat
  let unit := iv.den * Nat.pow 10 k.toNat
  let below := x / unit
  let above := below + 1
  let inBelow := below > 0 && iv.holds below k
  let inAbove := iv.holds above k
  let nearBelow := 2 * (x - below * unit) ≤ unit
  if inBelow && (nearBelow || !inAbove) then some ⟨below, k⟩
  else if inAbove then some ⟨above, k⟩
  else none

/-- Takes the zeros at the end into the exponent. -/
def Digits.strip (steps : Nat) (d : Digits) : Digits :=
  match steps with
  | 0 => d
  | steps + 1 =>
    if d.digits % 10 = 0 && d.digits > 0 then strip steps ⟨d.digits / 10, d.exponent + 1⟩ else d

/-- The shortest decimal of a finite float other than zero, without its sign. -/
def shortest (x : Float) : Digits :=
  let iv := (Binary.ofBits (x.toBits.toNat % (1 <<< 63))).interval
  let found := (List.range 18).findSome? fun n => if n = 0 then none else iv.withDigits n
  (found.getD ⟨0, 0⟩).strip 20

def isNegative (x : Float) : Bool := x.toBits.toNat ≥ 1 <<< 63

def isZero (x : Float) : Bool := x.toBits.toNat % (1 <<< 63) = 0

end Bindery.Decimal
