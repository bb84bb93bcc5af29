import Bindery.Template.Test
import Bindery.Text.Punctuation

/-!
The filters of a template by their names.
-/

namespace Bindery.Template.Filter

open Operator (invalid)
open Given (flag nat word)

/-! Text. -/

def escapeChar : Char → List Char
  | '&' => "&amp;".toList
  | '<' => "&lt;".toList
  | '>' => "&gt;".toList
  | '\x22' => "&quot;".toList
  | '\x27' => "&#x27;".toList
  | '/' => "&#x2f;".toList
  | c => [c]

/-- Text as markup; what is safe is markup already. -/
def escape (v : Value) : Value :=
  match v with
  | .str s true => .str s true
  | v => .str (String.ofList (v.print.toList.flatMap escapeChar)) true

def onText (f : List Char → List Char) (v : Value) : Value := .text (onChars f v.print)

/-- Each word with a capital; `start` holds where a word may start. -/
def titleCase (start : Bool) : List Char → List Char
  | [] => []
  | c :: cs =>
    if Text.isAsciiPunctuation c || Text.isBlank c then c :: titleCase true cs
    else (if start then Text.toUpper [c] else Text.lowerChar c) ++ titleCase false cs

def capitalized : List Char → List Char
  | [] => []
  | c :: cs => Text.toUpper [c] ++ Text.toLower cs

/-- A text without the line end it closes with. -/
def dropLineEnd (cs : List Char) : List Char :=
  let cs := if cs.getLast? == some '\n' then cs.dropLast else cs
  if cs.getLast? == some '\r' then cs.dropLast else cs

/-- Lines set off by blanks: the first one where `first` holds, empty ones where `blank` does. -/
def indented (width : Nat) (first blank : Bool) (cs : List Char) : List Char :=
  let pad := List.replicate width ' '
  let lines := (Text.lines (dropLineEnd cs)).zipIdx.map fun (l, i) =>
    if (i = 0 && !first) || (l.isEmpty && !blank) then l else pad ++ l
  dropLineEnd (Text.join ['\n'] lines ++ ['\n'])

/-- Lines without their line ends. -/
def linesOf (cs : List Char) : List (List Char) :=
  let ls := Text.lines cs
  let last := ls.getLast?.getD []
  ls.dropLast.map (fun l => if l.getLast? == some '\r' then l.dropLast else l) ++
    (if last.isEmpty then [] else [last])

/-- The pieces of a text between occurrences of a word, at most `most` of them; the empty word
occurs around every character. `piece` is the piece so far, its latest character first; the next
`skip` characters belong to an occurrence. -/
def pieces (word : List Char) (skip most : Nat) (piece : List Char) : List Char → List (List Char)
  | [] => if word.isEmpty && most > 1 then [piece.reverse, []] else [piece.reverse]
  | c :: cs =>
    match skip with
    | skip + 1 => pieces word skip most piece cs
    | 0 =>
      if most > 1 && word.isPrefixOf (c :: cs) then
        if word.isEmpty then piece.reverse :: pieces word 0 (most - 1) [c] cs
        else piece.reverse :: pieces word (word.length - 1) (most - 1) [] cs
      else pieces word 0 most (c :: piece) cs

/-- The pieces of a text between single blanks, at most `most` of them. -/
def blankPieces (most : Nat) (piece : List Char) : List Char → List (List Char)
  | [] => [piece.reverse]
  | c :: cs =>
    if most > 1 && Text.isBlank c then piece.reverse :: blankPieces (most - 1) [] cs
    else blankPieces most (c :: piece) cs

def texts (pieces : List (List Char)) : Value := .list (pieces.map fun cs => .text (String.ofList cs))

/-- The texts of items with a separator, which is left out as long as all are empty. -/
def joined (sep : String) (items : List Value) : String :=
  items.foldl (fun out v => (if out.isEmpty then out else out ++ sep) ++ v.print) ""

/-! Lists. -/

def items (v : Value) : Except Fault (List Value) :=
  match v.items? with
  | some vs => .ok vs
  | none => invalid

def fold (v : Value) : Value :=
  match v with
  | .str s safe => .str (onChars Text.asciiLower s) safe
  | v => v

/-- The order of two values; the case of texts counts only where `exact` holds. -/
def orderBy (exact : Bool) (v w : Value) : Ordering :=
  if exact then v.order w
  else
    match v, w with
    | .str .., .str .. => (fold v).order (fold w)
    | v, w => v.order w

/-- Sorts by what `key` makes of the items, equal ones as they stand. -/
def sortBy (exact : Bool) (key : Value → Value) (vs : List Value) : List Value :=
  vs.mergeSort fun a b => orderBy exact (key a) (key b) != .gt

/-- A path of names and numbers between dots. -/
def follow (path : String) (v : Value) : Except Fault Value :=
  (path.splitOn ".").foldlM (fun v name =>
    match Decimal.digits? 10 name.toList with
    | some n => v.get (.int n)
    | none => v.get (.text name)) v

/-- What a path leads to, or `absent`. -/
def followOr (absent : Value) (path : String) (v : Value) : Value :=
  match follow path v with
  | .ok .undefined | .error _ => absent
  | .ok w => w

def distinct (key : Value → Value) : List Value → List Value → List Value
  | _, [] => []
  | seen, v :: vs =>
    if seen.any (Value.same (key v)) then distinct key seen vs
    else v :: distinct key (key v :: seen) vs

/-- Groups of `n` items, the last one filled up. -/
def batches (n : Nat) (filler : Option Value) : List Value → List Value → List Value
  | [], [] => []
  | row, [] =>
    [.list (row.reverse ++ (filler.map fun v => List.replicate (n - row.length) v).getD [])]
  | row, v :: vs =>
    if row.length + 1 ≥ n then .list (v :: row).reverse :: batches n filler [] vs
    else batches n filler (v :: row) vs

/-- `n` groups whose sizes differ by at most one, the larger first; a filler comes behind each of
the others. -/
def slices (n : Nat) (filler : Option Value) (vs : List Value) : List Value :=
  let size := vs.length / n
  let larger := vs.length % n
  (List.range n).map fun i =>
    let own := (vs.drop (i * size + min i larger)).take (size + if i < larger then 1 else 0)
    .list (own ++ if larger ≤ i then filler.toList else [])

/-- Runs of neighbours that share a value. -/
def groups (exact : Bool) (key : Value → Value) : List Value → List Value
  | [] => []
  | v :: vs =>
    match groups exact key vs with
    | .group shared members :: rest =>
      if orderBy exact (key v) shared == .eq then .group shared (v :: members) :: rest
      else .group (key v) [v] :: .group shared members :: rest
    | rest => .group (key v) [v] :: rest

/-- The rows of columns that end with the shortest of them. -/
def rows : List Value → List (List Value) → List Value
  | [], _ => []
  | v :: vs, columns =>
    if columns.any List.isEmpty then []
    else .list (v :: columns.filterMap List.head?) :: rows vs (columns.map List.tail)

/-- Lists in a row, or maps of which later ones come first. -/
def chained (vs : List Value) : Except Fault Value := do
  let fields? : Value → Option (List (String × Value))
    | .map fields => some fields
    | _ => none
  match vs.mapM fields? with
  | some maps => return .map (maps.flatten.foldl (fun fs (n, v) => Value.insertField n v fs) [])
  | none => return .list (← vs.mapM items).flatten

/-! Numbers. -/

/-- Ten to a whole power. -/
def power (n : Int) : Float :=
  let x := Float.ofNat (Nat.pow 10 (min n.natAbs 400))
  if n < 0 then 1 / x else x

/-- Half away from zero, on a decimal place. -/
def roundTo (x : Float) (places : Int) : Float := (power places * x).round / power places

/-- The number a text spells. -/
def float? (cs : List Char) : Option Float :=
  let (negative, word) := Decimal.signed cs
  let word := String.ofList (Text.asciiLower word)
  if word == "inf" || word == "infinity" then some (if negative then -1.0 / 0.0 else 1.0 / 0.0)
  else if word == "nan" then some (0.0 / 0.0)
  else Decimal.float? cs

def toInt (v : Value) : Except Fault Int :=
  match v with
  | .undefined | .none => .ok 0
  | .bool b => .ok (if b then 1 else 0)
  | .num (.int i) => .ok i
  | .num (.float x) => .ok (Decimal.truncate x)
  | .str s _ =>
    match (Decimal.int? s.toList).filter (·.natAbs < Operator.intLimit), float? s.toList with
    | some i, _ => .ok i
    | none, some x => .ok (Decimal.truncate x)
    | none, none => invalid
  | _ => invalid

def toFloat (v : Value) : Except Fault Float :=
  match v with
  | .undefined | .none => .ok 0
  | .str s _ =>
    match float? s.toList with
    | some x => .ok x
    | none => invalid
  | v =>
    match v.number? with
    | some n => .ok (Value.asFloat n)
    | none => invalid

def sum (vs : List Value) : Except Fault Value :=
  vs.foldlM (fun total v =>
    match v with
    | .undefined => .ok total
    | .num _ => Operator.add total v
    | _ => invalid) (.int 0)

/-! By name. -/

/-- Filters of the value alone. -/
def simple? (name : String) (v : Value) : Option (Except Fault Value) :=
  match name with
  | "safe" => some (.ok (.str v.print true))
  | "escape" | "e" => some (.ok (escape v))
  | "upper" => some (.ok (onText Text.toUpper v))
  | "lower" => some (.ok (onText Text.toLower v))
  | "title" => some (.ok (onText (titleCase true) v))
  | "capitalize" => some (.ok (onText capitalized v))
  | "string" => some (.ok (match v with
    | .str s safe => .str s safe
    | v => .text v.print))
  | "bool" => some (.ok (.bool v.isTrue))
  | "pprint" => some (.ok (.text (v.nested (some 0))))
  | "lines" => some ((word v).map fun s => texts (linesOf s.toList))
  | "int" => some ((toInt v).map .int)
  | "float" => some ((toFloat v).map fun x => .num (.float x))
  | "abs" =>
    match v with
    | .num (.int i) => some (.ok (.int i.natAbs))
    | .num (.float x) => some (.ok (.num (.float x.abs)))
    | _ => some invalid
  | "length" | "count" =>
    match v.length? with
    | some n => some (.ok (.int n))
    | none => some invalid
  | "items" =>
    match v with
    | .map fields => some (.ok (.list (fields.map fun (name, v) => .list [.text name, v])))
    | _ => some invalid
  | "reverse" =>
    match v with
    | .undefined => some (.ok .undefined)
    | .none => some (.ok .none)
    | .str s _ => some (.ok (.text (onChars List.reverse s)))
    | v => some ((items v).map fun vs => .list vs.reverse)
  | "first" =>
    match v with
    | .undefined | .none => some invalid
    | v => some ((items v).map fun vs => vs.head?.getD .undefined)
  | "last" =>
    match v with
    | .undefined | .none | .map _ => some invalid
    | v => some ((items v).map fun vs => vs.getLast?.getD .undefined)
  | "min" => some ((items v).map fun vs => (sortBy true id vs).head?.getD .undefined)
  | "max" => some ((items v).map fun vs => (sortBy true id vs).getLast?.getD .undefined)
  | "list" => some ((items v).map .list)
  | "sum" => some ((items v).bind sum)
  | _ => none

/-- Filters with arguments by position: the least and the greatest number of them. -/
def placed : List (String × Nat × Nat) :=
  [("trim", 0, 1), ("replace", 2, 2), ("join", 0, 1), ("split", 0, 2), ("default", 0, 2),
    ("d", 0, 2), ("round", 0, 1), ("attr", 1, 1), ("slice", 1, 2), ("batch", 1, 2),
    ("indent", 1, 3)]

def applyPlaced (name : String) (v : Value) (g : Given) : Except Fault Value :=
  match name with
  | "trim" =>
    match g.at? 0 with
    | some chars =>
      let among (c : Char) : Bool := chars.print.toList.contains c
      .ok (onText (fun cs => Text.dropEndWhile among (cs.dropWhile among)) v)
    | none => .ok (onText Text.trim v)
  | "replace" => do
    let old ← g.need 0
    let new ← g.need 1
    return .text (substitute v.print old.print new.print)
  | "join" =>
    match v.items? with
    | some vs => .ok (.text (joined ((g.at? 0).map Value.print |>.getD "") vs))
    | none => invalid
  | "split" => do
    let cs := (← word v).toList
    let sep ← (g.at? 0).mapM word
    let most ← (g.at? 1).mapM Given.int
    let most := most.filter (0 ≤ ·)
    match sep, most with
    | some sep, most =>
      return texts (pieces sep.toList 0 ((most.map fun n => n.toNat + 1).getD (cs.length + 2)) [] cs)
    | none, some n => return texts (blankPieces (n.toNat + 1) [] cs)
    | none, none => return texts ((Text.splitOn Text.isBlank cs).filter (!·.isEmpty))
  | "default" | "d" => do
    let lax ← flag (g.at? 1)
    if v matches .undefined || (lax && !v.isTrue) then return (g.at? 0).getD (.text "") else return v
  | "round" => do
    let places ← (g.at? 0).mapM Given.int
    match v with
    | .num (.int i) => return .int i
    | .num (.float x) => return .num (.float (roundTo x (places.getD 0)))
    | _ => invalid
  | "attr" => do v.get (← g.need 0)
  | "slice" => do
    let n ← nat (← g.need 0)
    if n = 0 then invalid else return .list (slices n (g.at? 1) (← items v))
  | "batch" => do
    let n ← nat (← g.need 0)
    if n = 0 then invalid else return .list (batches n (g.at? 1) [] (← items v))
  | "indent" => do
    let width ← nat (← g.need 0)
    let first ← flag (g.at? 1)
    let blank ← flag (g.at? 2)
    return onText (indented width first blank) v
  | _ => .error .unknownFilter

/-- Filters with arguments by name: how many come by position, and the names. -/
def named : List (String × Nat × List String) :=
  [("sort", 0, ["case_sensitive", "attribute", "reverse"]),
    ("dictsort", 0, ["by", "case_sensitive", "reverse"]),
    ("unique", 0, ["attribute", "case_sensitive"]),
    ("groupby", 1, ["attribute", "default", "case_sensitive"])]

def applyNamed (name : String) (v : Value) (g : Given) : Except Fault Value := do
  let exact ← flag (g.named? "case_sensitive")
  let reverse ← flag (g.named? "reverse")
  let path ← (g.named? "attribute").mapM word
  let turn (vs : List Value) : List Value := if reverse then vs.reverse else vs
  match name with
  | "sort" =>
    return .list (turn (sortBy exact (fun v => (path.map (followOr .undefined · v)).getD v) (← items v)))
  | "dictsort" =>
    let column ← match ← (g.named? "by").mapM word with
      | none | some "key" => pure 0
      | some "value" => pure 1
      | some _ => invalid
    match v with
    | .map fields =>
      let key (v : Value) : Value := Value.itemAt (v.items?.getD []) column
      return .list (turn (sortBy exact key (fields.map fun (name, v) => .list [.text name, v])))
    | _ => invalid
  | "unique" =>
    let folded (v : Value) : Value :=
      match v with
      | .str s safe => if exact then .str s safe else .str (onChars Text.toLower s) safe
      | v => v
    let key (v : Value) : Value := folded ((path.map (followOr .undefined · v)).getD v)
    return .list (distinct key [] (← items v))
  | "groupby" =>
    let first ← (g.at? 0).mapM word
    match first, path with
    | some path, _ | none, some path =>
      let key := followOr ((g.named? "default").getD .undefined) path
      return .list (groups exact key (sortBy exact key (← items v)))
    | none, none => .error .missingArgument
  | _ => .error .unknownFilter

/-- Filters of the value and any number of others. -/
def variadic? (name : String) (v : Value) (g : Given) : Option (Except Fault Value) :=
  match name with
  | "chain" => some (chained (v :: g.positional))
  | "zip" => some do
    let vs ← items v
    return .list (rows vs (← g.positional.mapM items))
  | _ => none

/-- Filters by name, but those that apply another filter or a test. -/
def basic (name : String) (v : Value) (g : Given) : Except Fault Value :=
  match simple? name v, placed.lookup name, named.lookup name, variadic? name v g with
  | some result, _, _, _ => do
    g.expectPlain 0 0
    result
  | none, some (least, most), _, _ => do
    g.expectPlain least most
    applyPlaced name v g
  | none, none, some (most, names), _ => do
    g.expect 0 most names
    applyNamed name v g
  | none, none, none, some result => result
  | none, none, none, none => .error .unknownFilter

def selecting : List String := ["map", "select", "reject", "selectattr", "rejectattr"]

def exists? (name : String) : Bool :=
  selecting.contains name || (simple? name .undefined).isSome || (placed.lookup name).isSome ||
    (named.lookup name).isSome || (variadic? name .undefined ⟨[], []⟩).isSome

/-- Keeps the items of which a test holds, or does not. -/
def selected (keep : Bool) (key : Value → Except Fault Value) (args : List Value)
    (vs : List Value) : Except Fault Value := do
  if !(args.head?.map fun name => Test.exists? name.print).getD true then throw .unknownTest
  let chosen ← vs.filterM fun v => do
    let k ← key v
    let found ← match args with
      | [] => pure k.isTrue
      | name :: more => Test.holds exists? name.print k more
    return found == keep
  return .list chosen

/-- The values at a path in the items. -/
def mapped (path : Value) (absent : Value) (vs : List Value) : Except Fault Value := do
  let found (v : Value) : Except Fault Value :=
    match path with
    | .str path _ => follow path v
    | path => v.get path
  return .list (← vs.mapM fun v =>
    match found v, absent with
    | .ok .undefined, absent => .ok absent
    | .ok w, _ => .ok w
    | .error e, .undefined => .error e
    | .error _, absent => .ok absent)

/-- Filters by name; `steps` bounds how deep they apply each other. -/
def applyWithin : Nat → String → Value → Given → Except Fault Value
  | 0, _, _, _ => invalid
  | steps + 1, name, v, g =>
    match name with
    | "map" => do
      match g.named? "attribute" with
      | some path =>
        g.expect 0 0 ["attribute", "default"]
        mapped path ((g.named? "default").getD .undefined) (← items v)
      | none =>
        match g.positional with
        | .str filter _ :: more =>
          if exists? filter then
            return .list (← (← items v).mapM fun v => applyWithin steps filter v ⟨more, []⟩)
          else .error .unknownFilter
        | _ => invalid
    | "select" => do selected true .ok g.positional (← items v)
    | "reject" => do selected false .ok g.positional (← items v)
    | "selectattr" => do
      let path ← g.need 0
      selected true (follow path.print) (g.positional.drop 1) (← items v)
    | "rejectattr" => do
      let path ← g.need 0
      selected false (follow path.print) (g.positional.drop 1) (← items v)
    | _ => basic name v g

/-- Filters by name. Each that applies another one takes its name from the arguments. -/
def apply (name : String) (v : Value) (g : Given) : Except Fault Value :=
  applyWithin (g.positional.length + 1) name v g

end Bindery.Template.Filter
