import Bindery.Template.Expr

/-!
What the operators of a template do with values. An operator that does not fit its operands is an
error.
-/

namespace Bindery.Template.Operator

def invalid {α : Type} : Except Fault α := .error .invalidOperation

/-- Whole numbers stay below this size. -/
def intLimit : Nat := 1 <<< 127

def intResult (i : Int) : Except Fault Value :=
  if i.natAbs < intLimit then .ok (.int i) else invalid

def floatValue (x : Float) : Value := .num (.float x)

/-- An operation on two numbers: on whole ones when both are, else on floats. -/
def numeric (onInts : Int → Int → Except Fault Value) (onFloats : Float → Float → Except Fault Value)
    (a b : Value) : Except Fault Value :=
  match a.number?, b.number? with
  | some (.int i), some (.int j) => onInts i j
  | some m, some n => onFloats (Value.asFloat m) (Value.asFloat n)
  | _, _ => invalid

def add (a b : Value) : Except Fault Value :=
  match a, b with
  | .str s _, .str t _ => .ok (.text (s ++ t))
  | .list xs, .list ys => .ok (.list (xs ++ ys))
  | a, b => numeric (fun i j => intResult (i + j)) (fun x y => .ok (floatValue (x + y))) a b

def sub : Value → Value → Except Fault Value :=
  numeric (fun i j => intResult (i - j)) fun x y => .ok (floatValue (x - y))

/-- Repeats text or a list. -/
def repeated (v : Value) (n : Int) : Except Fault Value :=
  match v with
  | .str s _ => if n < 0 then invalid else .ok (.text (String.join (List.replicate n.toNat s)))
  | .list xs => if n < 0 then invalid else .ok (.list (List.replicate n.toNat xs).flatten)
  | _ => invalid

def mul (a b : Value) : Except Fault Value :=
  match a, b with
  | .str .., .num (.int n) | .list _, .num (.int n) => repeated a n
  | .num (.int n), .str .. | .num (.int n), .list _ => repeated b n
  | a, b => numeric (fun i j => intResult (i * j)) (fun x y => .ok (floatValue (x * y))) a b

def div (a b : Value) : Except Fault Value :=
  match a.number?, b.number? with
  | some m, some n => .ok (floatValue (Value.asFloat m / Value.asFloat n))
  | _, _ => invalid

def floorDiv : Value → Value → Except Fault Value :=
  numeric (fun i j => if j = 0 then invalid else intResult (Int.ediv i j))
    fun x y => .ok (floatValue (x / y).floor)

/-- The remainder of floats has the sign of none: it is counted up from zero. -/
def remFloat (x y : Float) : Float := x - y.abs * (x / y.abs).floor

def rem : Value → Value → Except Fault Value :=
  numeric (fun i j => if j = 0 then invalid else intResult (Int.emod i j))
    fun x y => .ok (floatValue (remFloat x y))

def pow : Value → Value → Except Fault Value :=
  numeric (fun i j => if j < 0 || j > 1000 then invalid else intResult (i.pow j.toNat))
    fun x y => .ok (floatValue (x ^ y))

def negate (v : Value) : Except Fault Value :=
  match v with
  | .num (.int i) => intResult (-i)
  | .num (.float x) => .ok (floatValue (-x))
  | _ => invalid

/-- Is `v` in the container? Nothing is in what is not defined. -/
def contains (container v : Value) : Except Fault Bool :=
  match container with
  | .undefined => .ok false
  | .str s _ => .ok (Text.hasInfix v.print.toList s.toList)
  | .map fields =>
    match v with
    | .str name _ => .ok (fields.any (·.1 == name))
    | _ => .ok false
  | .list _ | .group .. => .ok ((container.items?.getD []).any (Value.same v))
  | _ => invalid

/-- The operators but the two that may leave their right operand aside. -/
def apply (op : Binary) (a b : Value) : Except Fault Value :=
  let ordered (p : Ordering → Bool) : Except Fault Value := .ok (.bool (p (Value.order a b)))
  match op with
  | .eq => ordered (· == .eq)
  | .ne => ordered (· != .eq)
  | .lt => ordered (· == .lt)
  | .le => ordered (· != .gt)
  | .gt => ordered (· == .gt)
  | .ge => ordered (· != .lt)
  | .isIn => (contains b a).map .bool
  | .notIn => (contains b a).map fun found => .bool !found
  | .add => add a b
  | .sub => sub a b
  | .concat => .ok (.text (a.print ++ b.print))
  | .mul => mul a b
  | .div => div a b
  | .floorDiv => floorDiv a b
  | .rem => rem a b
  | .pow => pow a b
  | .or => .ok (if a.isTrue then a else b)
  | .and => .ok (if a.isTrue then b else a)

/-- A bound of a slice; an absent one is `none`. -/
def bound? : Value → Except Fault (Option Int)
  | .none => .ok none
  | v =>
    match v.int? with
    | some i => .ok (some i)
    | none => invalid

def clamp (length : Nat) (i : Int) : Nat :=
  if 0 ≤ i then min i.toNat length else length - min (-i).toNat length

/-- Every `step`th item from the first on. -/
def everyNth {α : Type} (step : Nat) : Nat → List α → List α
  | _, [] => []
  | 0, x :: xs => x :: everyNth step (step - 1) xs
  | n + 1, _ :: xs => everyNth step n xs

def cut {α : Type} (xs : List α) (start stop : Option Int) (step : Nat) : List α :=
  let a := clamp xs.length (start.getD 0)
  let b := (stop.map (clamp xs.length)).getD xs.length
  everyNth step 0 ((xs.take b).drop a)

/-- Every `step`th item from `start` down to the front, or to the one after `stop`; a `stop` at the
front takes the front in. -/
def cutBack {α : Type} (xs : List α) (start stop : Option Int) (step : Nat) : List α :=
  let a := match start with
    | some i => min (clamp xs.length i) (xs.length - 1)
    | none => xs.length - 1
  let b := (stop.map (clamp xs.length)).getD 0
  let n := if b = 0 then (a + step) / step else (a - b + step - 1) / step
  (everyNth step 0 (((xs.take (a + 1)).drop b).reverse)).take n

def slice (v start stop step : Value) : Except Fault Value := do
  let start ← bound? start
  let stop ← bound? stop
  let step := (← bound? step).getD 1
  let cutItems {α : Type} (xs : List α) : List α :=
    if step < 0 then cutBack xs start stop step.natAbs else cut xs start stop step.natAbs
  if step = 0 then invalid
  else
    match v with
    | .undefined | .none => return .list []
    | .str s _ => return .text (String.ofList (cutItems s.toList))
    | .map _ => invalid
    | v =>
      match v.items? with
      | some items => return .list (cutItems items)
      | none => invalid

end Bindery.Template.Operator
