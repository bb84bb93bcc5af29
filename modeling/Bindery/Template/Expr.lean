import Bindery.Template.Token

/-!
The expressions of a template and their reading from tokens. Operators bind by level; filters and
tests bind tightest after calls, fields and items.
-/

namespace Bindery.Template

inductive Binary where
  | or | and
  | eq | ne | lt | le | gt | ge | isIn | notIn
  | add | sub
  | concat
  | mul | div | floorDiv | rem
  | pow
  deriving Repr, DecidableEq

/-- The level an operator binds at; a higher one binds tighter. -/
def Binary.level : Binary → Nat
  | .or => 1
  | .and => 2
  | .eq | .ne | .lt | .le | .gt | .ge | .isIn | .notIn => 4
  | .add | .sub => 5
  | .concat => 6
  | .mul | .div | .floorDiv | .rem => 7
  | .pow => 8

/-- The level of `not`, between those of `and` and of comparisons. -/
def notLevel : Nat := 3

inductive Expr where
  | const (v : Value)
  | var (name : String)
  | not (e : Expr)
  | negate (e : Expr)
  | binary (op : Binary) (left right : Expr)
  | cond (test yes no : Expr)
  | list (items : List Expr)
  | map (names values : List Expr)
  | get (e key : Expr)
  /-- An absent bound is the constant `none`. -/
  | slice (e start stop step : Expr)
  /-- The last arguments are named by `names`, here and below. -/
  | call (e : Expr) (args : List Expr) (names : List String)
  | method (e : Expr) (name : String) (args : List Expr) (names : List String)
  | filter (e : Expr) (name : String) (args : List Expr) (names : List String)
  | test (e : Expr) (name : String) (args : List Expr) (negated : Bool)
  deriving Inhabited

namespace Expr

/-- The value of a word that stands for itself. -/
def constant? (name : String) : Option Value :=
  if name == "true" || name == "True" then some (.bool true)
  else if name == "false" || name == "False" then some (.bool false)
  else if name == "none" || name == "None" then some .none
  else none

/-- The operator at the front of some tokens. -/
def binary? : List Token → Option (Binary × List Token)
  | .name s :: rest =>
    if s == "or" then some (.or, rest)
    else if s == "and" then some (.and, rest)
    else if s == "in" then some (.isIn, rest)
    else if s == "not" && rest.head? == some (.name "in") then some (.notIn, rest.tail)
    else none
  | .mark s :: rest =>
    let op := [("==", Binary.eq), ("!=", .ne), ("<", .lt), ("<=", .le), (">", .gt), (">=", .ge),
      ("+", .add), ("-", .sub), ("~", .concat), ("*", .mul), ("/", .div), ("//", .floorDiv),
      ("%", .rem), ("**", .pow)].lookup s
    op.map (·, rest)
  | _ => none

/-- Can the argument of a test start here without parentheses? -/
def startsArgument : List Token → Bool
  | .name s :: _ => !(["and", "or", "else", "is", "if"].contains s)
  | .str _ :: _ | .num _ :: _ => true
  | .mark s :: _ => s == "+" || s == "-" || s == "[" || s == "\x7b"
  | _ => false

def absent : Expr := .const .none

def isCall : Expr → Bool
  | .call .. | .method .. => true
  | _ => false

abbrev Arguments := List Expr × List String

mutual

/-- An expression and the tokens after it; reading nests at most `steps` deep, here and below. -/
def read : Nat → List Token → Option (Expr × List Token)
  | 0, _ => none
  | steps + 1, ts => do
    let (e, ts) ← readAt steps 1 ts
    readCond steps e ts

def readCond : Nat → Expr → List Token → Option (Expr × List Token)
  | 0, _, _ => none
  | steps + 1, e, ts =>
    match ts with
    | .name "if" :: ts => do
      let (holds, ts) ← readAt steps 1 ts
      match ts with
      | .name "else" :: ts =>
        let (no, ts) ← read steps ts
        readCond steps (.cond holds e no) ts
      | ts => readCond steps (.cond holds e (.const .undefined)) ts
    | ts => some (e, ts)

/-- An expression whose operators bind at `level` or tighter. -/
def readAt : Nat → Nat → List Token → Option (Expr × List Token)
  | 0, _, _ => none
  | steps + 1, level, ts => do
    let (e, ts) ← match ts with
      | .name "not" :: rest =>
        if level ≤ notLevel then
          (readAt steps notLevel rest).map fun (e, ts) => (.not e, ts)
        else readUnary steps ts
      | ts => readUnary steps ts
    readMore steps level e ts

def readMore : Nat → Nat → Expr → List Token → Option (Expr × List Token)
  | 0, _, _, _ => none
  | steps + 1, level, left, ts =>
    match binary? ts with
    | some (op, rest) =>
      if op.level < level then some (left, ts)
      else do
        let (right, ts) ← readAt steps (op.level + 1) rest
        readMore steps level (.binary op left right) ts
    | none => some (left, ts)

/-- An operand with all that is applied to it. -/
def readUnary : Nat → List Token → Option (Expr × List Token)
  | 0, _ => none
  | steps + 1, ts => do
    let (e, ts) ← readSigned steps ts
    let (e, ts) ← readPostfix steps e ts
    readFilters steps e ts

def readSigned : Nat → List Token → Option (Expr × List Token)
  | 0, _ => none
  | steps + 1, ts =>
    match ts with
    | .mark "-" :: ts => (readSigned steps ts).map fun (e, ts) => (.negate e, ts)
    | ts => readPrimary steps ts

def readPrimary : Nat → List Token → Option (Expr × List Token)
  | 0, _ => none
  | steps + 1, ts =>
    match ts with
    | .name s :: ts =>
      match constant? s with
      | some v => some (.const v, ts)
      | none => some (.var s, ts)
    | .str s :: ts => some (.const (.text s), ts)
    | .num n :: ts => some (.const (.num n), ts)
    | .mark "(" :: ts =>
      match ts with
      | .mark ")" :: ts => some (.list [], ts)
      | ts => do
        let (e, ts) ← read steps ts
        match ts with
        | .mark ")" :: ts => some (e, ts)
        | .mark "," :: ts =>
          let (es, ts) ← readItems steps ")" ts
          return (.list (e :: es), ts)
        | _ => none
    | .mark "[" :: ts => (readItems steps "]" ts).map fun (es, ts) => (.list es, ts)
    | .mark "\x7b" :: ts =>
      (readFields steps ts).map fun (names, values, ts) => (.map names values, ts)
    | _ => none

/-- Expressions between commas, up to a closing mark. -/
def readItems : Nat → String → List Token → Option (List Expr × List Token)
  | 0, _, _ => none
  | steps + 1, close, ts =>
    if ts.head? == some (.mark close) then some ([], ts.tail)
    else do
      let (e, ts) ← read steps ts
      match ts with
      | .mark "," :: ts =>
        let (es, ts) ← readItems steps close ts
        return (e :: es, ts)
      | ts => if ts.head? == some (.mark close) then some ([e], ts.tail) else none

def readFields : Nat → List Token → Option (List Expr × List Expr × List Token)
  | 0, _ => none
  | steps + 1, ts =>
    match ts with
    | .mark "\x7d" :: ts => some ([], [], ts)
    | ts => do
      let (name, ts) ← read steps ts
      match ts with
      | .mark ":" :: ts =>
        let (value, ts) ← read steps ts
        match ts with
        | .mark "," :: ts =>
          let (names, values, ts) ← readFields steps ts
          return (name :: names, value :: values, ts)
        | .mark "\x7d" :: ts => some ([name], [value], ts)
        | _ => none
      | _ => none

/-- Fields, items and calls. -/
def readPostfix : Nat → Expr → List Token → Option (Expr × List Token)
  | 0, _, _ => none
  | steps + 1, e, ts =>
    match ts with
    | .mark "." :: .name s :: .mark "(" :: ts => do
      let ((args, names), ts) ← readArgs steps ts
      readPostfix steps (.method e s args names) ts
    | .mark "." :: .name s :: ts => readPostfix steps (.get e (.const (.text s))) ts
    | .mark "." :: _ => none
    | .mark "[" :: ts => do
      let (e, ts) ← readItem steps e ts
      readPostfix steps e ts
    | .mark "(" :: ts => do
      let ((args, names), ts) ← readArgs steps ts
      readPostfix steps (.call e args names) ts
    | ts => some (e, ts)

/-- An item or a slice, after its opening bracket. -/
def readItem : Nat → Expr → List Token → Option (Expr × List Token)
  | 0, _, _ => none
  | steps + 1, e, ts => do
    let (start, ts) ← readBound steps ts
    match ts with
    | .mark "]" :: ts => if start.isSome then some (.get e (start.getD absent), ts) else none
    | .mark ":" :: ts =>
      let (stop, ts) ← readBound steps ts
      let (step, ts) ← match ts with
        | .mark ":" :: ts => readBound steps ts
        | ts => some (none, ts)
      match ts with
      | .mark "]" :: ts =>
        some (.slice e (start.getD absent) (stop.getD absent) (step.getD absent), ts)
      | _ => none
    | _ => none

def readBound : Nat → List Token → Option (Option Expr × List Token)
  | 0, _ => none
  | steps + 1, ts =>
    match ts with
    | .mark ":" :: _ | .mark "]" :: _ => some (none, ts)
    | ts => (read steps ts).map fun (e, ts) => (some e, ts)

/-- Arguments after their opening parenthesis, the named ones last. -/
def readArgs : Nat → List Token → Option (Arguments × List Token)
  | 0, _ => none
  | steps + 1, ts =>
    match ts with
    | .mark ")" :: ts => some (([], []), ts)
    | .name s :: .mark "=" :: ts => do
      let (e, ts) ← read steps ts
      let ((args, names), ts) ← readNextArgs steps ts
      if args.length = names.length then some ((e :: args, s :: names), ts) else none
    | ts => do
      let (e, ts) ← read steps ts
      let ((args, names), ts) ← readNextArgs steps ts
      return ((e :: args, names), ts)

def readNextArgs : Nat → List Token → Option (Arguments × List Token)
  | 0, _ => none
  | steps + 1, ts =>
    match ts with
    | .mark "," :: ts => readArgs steps ts
    | .mark ")" :: ts => some (([], []), ts)
    | _ => none

def readFilters : Nat → Expr → List Token → Option (Expr × List Token)
  | 0, _, _ => none
  | steps + 1, e, ts =>
    match ts with
    | .mark "|" :: .name s :: .mark "(" :: ts => do
      let ((args, names), ts) ← readArgs steps ts
      readFilters steps (.filter e s args names) ts
    | .mark "|" :: .name s :: ts => readFilters steps (.filter e s [] []) ts
    | .mark "|" :: _ => none
    | .name "is" :: .name "not" :: .name s :: ts => do
      let (args, ts) ← readTestArgs steps ts
      readFilters steps (.test e s args true) ts
    | .name "is" :: .name s :: ts => do
      let (args, ts) ← readTestArgs steps ts
      readFilters steps (.test e s args false) ts
    | .name "is" :: _ => none
    | ts => some (e, ts)

def readTestArgs : Nat → List Token → Option (List Expr × List Token)
  | 0, _ => none
  | steps + 1, ts =>
    match ts with
    | .mark "(" :: ts => (readArgs steps ts).map fun ((args, _), ts) => (args, ts)
    | ts =>
      if startsArgument ts then do
        let (e, ts) ← readSigned steps ts
        let (e, ts) ← readPostfix steps e ts
        return ([e], ts)
      else some ([], ts)

end

/-- Bounds the nesting that tokens can spell out. -/
def stepsFor (ts : List Token) : Nat := 16 * (ts.length + 1)

/-- The expression at the front of some tokens. -/
def ofTokens? (ts : List Token) : Option (Expr × List Token) := read (stepsFor ts) ts

/-- An expression that is not followed by a condition. -/
def operandOfTokens? (ts : List Token) : Option (Expr × List Token) := readAt (stepsFor ts) 1 ts

end Expr
end Bindery.Template
