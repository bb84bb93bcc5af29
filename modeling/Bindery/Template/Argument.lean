import Bindery.Template.Operator

/-!
The arguments of a filter, a test or a function, by position and by name. What is not defined or is
nothing counts as left out where an argument may be left out.
-/

namespace Bindery.Template

structure Given where
  positional : List Value
  named : List (String × Value)

namespace Given

open Operator (invalid)

/-- Checks how many arguments there are, and that they have no other names than these. -/
def expect (g : Given) (least most : Nat) (names : List String) : Except Fault Unit :=
  if g.positional.length < least then .error .missingArgument
  else if g.positional.length > most || g.named.any fun (n, _) => !names.contains n then
    .error .tooManyArguments
  else .ok ()

/-- Checks arguments that no names are known for. -/
def expectPlain (g : Given) (least most : Nat) : Except Fault Unit :=
  if g.named.isEmpty then g.expect least most []
  else if g.positional.length < most then invalid
  else .error .tooManyArguments

def value? : Option Value → Option Value
  | some .undefined | some .none | none => none
  | some v => some v

def at? (g : Given) (i : Nat) : Option Value := value? g.positional[i]?

def named? (g : Given) (name : String) : Option Value := value? (g.named.lookup name)

def need (g : Given) (i : Nat) : Except Fault Value :=
  match g.positional[i]? with
  | some v => .ok v
  | none => .error .missingArgument

def flag : Option Value → Except Fault Bool
  | none => .ok false
  | some (.bool b) => .ok b
  | some _ => invalid

def word : Value → Except Fault String
  | .str s _ => .ok s
  | _ => invalid

def int (v : Value) : Except Fault Int :=
  match v.int? with
  | some i => .ok i
  | none => invalid

/-- A count; `limit` bounds it from above. -/
def natBelow (limit : Nat) (v : Value) : Except Fault Nat := do
  let i ← int v
  if i < 0 || i ≥ limit then invalid else return i.toNat

def nat : Value → Except Fault Nat := natBelow (1 <<< 64)

end Given
end Bindery.Template
