import Bindery.Template.Filter
import Bindery.Template.Statement

/-!
Rendering a template: its expressions over named values, and the text its statements print.
-/

namespace Bindery.Template

/-- The values in sight, innermost first, and the texts with parameters; `escaping` holds where
printed text becomes markup. -/
structure Scope where
  frames : List (List (String × Value))
  escaping : Bool
  routines : List (String × (Given → Except Fault Value)) := []

namespace Scope

def find? (s : Scope) (name : String) : Option Value := s.frames.findSome? (·.lookup name)

def push (s : Scope) (frame : List (String × Value)) : Scope :=
  { s with frames := frame :: s.frames }

/-- Names values in the innermost frame. -/
def define (s : Scope) (values : List (String × Value)) : Scope :=
  match s.frames with
  | frame :: rest => { s with frames := (values ++ frame) :: rest }
  | [] => { s with frames := [values] }

end Scope

/-- Values by position and by name, the named ones last. -/
def givenBy (values : List Value) (names : List String) : Given :=
  let n := values.length - names.length
  ⟨values.take n, names.zip (values.drop n)⟩

def rangeLimit : Nat := 100000

/-- Every `step`th whole number from one bound up to another. -/
def range (g : Given) : Except Fault Value := do
  g.expectPlain 1 3
  let bound := Given.natBelow (1 <<< 32)
  let first ← bound (← g.need 0)
  let second ← (g.at? 1).mapM bound
  let step := (← (g.at? 2).mapM bound).getD 1
  let (low, high) := match second with
    | some high => (first, high)
    | none => (0, first)
  if step = 0 then Operator.invalid
  else
    let n := (high - low + step - 1) / step
    if n > rangeLimit then Operator.invalid
    else return .list ((List.range n).map fun k => .int (low + step * k : Nat))

/-- A map of the named arguments and the fields of another one. -/
def mapOf (g : Given) : Except Fault Value := do
  let g' : Given := ⟨g.positional, []⟩
  g'.expect 0 1 []
  match g.at? 0 with
  | none => return .map (extended [])
  | some (.map fields) => return .map (extended fields)
  | some _ => Operator.invalid
where
  extended (fields : List (String × Value)) : List (String × Value) :=
    g.named.foldl (fun fs (n, v) => Value.insertField n v fs) fields

/-- What a function gives that no value hides. -/
def callFunction (name : String) (g : Given) : Except Fault Value :=
  match name with
  | "range" => range g
  | "dict" | "namespace" => mapOf g
  | _ => .error .unknownFunction

/-- Calls a field of a value. Only a loop has one that can be called. -/
def callMethod (v : Value) (name : String) (g : Given) : Except Fault Value :=
  match v with
  | .map fields =>
    match fields.lookup name, fields.lookup "index0" with
    | some _, _ => Operator.invalid
    | none, some (.num (.int i)) =>
      if name == "cycle" && !g.positional.isEmpty then
        .ok (Value.itemAt g.positional (i % g.positional.length))
      else .error .unknownMethod
    | none, _ => .error .unknownMethod
  | _ => .error .unknownMethod

mutual

def eval (s : Scope) : Expr → Except Fault Value
  | .const v => .ok v
  | .var name => .ok ((s.find? name).getD .undefined)
  | .not e => do return .bool !(← eval s e).isTrue
  | .negate e => do Operator.negate (← eval s e)
  | .binary op a b => do
    let v ← eval s a
    match op with
    | .or => if v.isTrue then return v else eval s b
    | .and => if v.isTrue then eval s b else return v
    | op => Operator.apply op v (← eval s b)
  | .cond test yes no => do if (← eval s test).isTrue then eval s yes else eval s no
  | .list es => do return .list (← evalAll s es)
  | .map names values => do
    let names ← evalAll s names
    let values ← evalAll s values
    return .map ((names.zip values).foldl (fun fs (n, v) => Value.insertField n.print v fs) [])
  | .get e key => do
    let v ← eval s e
    v.get (← eval s key)
  | .slice e start stop step => do
    let v ← eval s e
    Operator.slice v (← eval s start) (← eval s stop) (← eval s step)
  | .call e args names => do
    let values ← evalAll s args
    match e with
    | .var name =>
      match s.routines.lookup name, s.find? name with
      | some routine, _ => routine (givenBy values names)
      | none, some _ => Operator.invalid
      | none, none => callFunction name (givenBy values names)
    | e =>
      let _ ← eval s e
      Operator.invalid
  | .method e name args names => do
    let v ← eval s e
    callMethod v name (givenBy (← evalAll s args) names)
  | .filter e name args names => do
    let v ← eval s e
    Filter.apply name v (givenBy (← evalAll s args) names)
  | .test e name args negated => do
    let v ← eval s e
    let found ← Test.holds Filter.exists? name v (← evalAll s args)
    return .bool (found != negated)

def evalAll (s : Scope) : List Expr → Except Fault (List Value)
  | [] => .ok []
  | e :: es => do
    let v ← eval s e
    return v :: (← evalAll s es)

end

/-- Names for a value, or for the items of one. -/
def bind (targets : List String) (v : Value) : Except Fault (List (String × Value)) :=
  match targets, v with
  | [name], v => .ok [(name, v)]
  | names, .list items => matched names items
  | names, .group shared members => matched names [shared, .list members]
  | _, _ => .error .cannotUnpack
where
  matched (names : List String) (items : List Value) : Except Fault (List (String × Value)) :=
    if names.length = items.length then .ok (names.zip items) else .error .cannotUnpack

/-- The values of parameters: what is given for them, or what they are by default. -/
def bindParameters (parameters : List String) (defaults : List Value) (g : Given) :
    Except Fault (List (String × Value)) :=
  let spare := parameters.drop g.positional.length
  if g.positional.length > parameters.length || g.named.any fun (n, _) => !spare.contains n then
    .error .tooManyArguments
  else
    let undefaulted := parameters.length - defaults.length
    .ok (parameters.zipIdx.map fun (name, i) =>
      let given := (g.positional[i]?.or (g.named.lookup name)).getD .undefined
      let absent := if i < undefaulted then .undefined else defaults[i - undefaulted]?.getD .undefined
      (name, if given matches .undefined then absent else given))

/-- What a loop tells of its place. -/
def loopValue (items : List Value) (i : Nat) : Value :=
  let n := items.length
  .map ([("depth", .int 1), ("depth0", .int 0), ("first", .bool (i == 0)),
    ("index", .int (i + 1)), ("index0", .int i), ("last", .bool (i + 1 == n)), ("length", .int n),
    ("nextitem", items[i + 1]?.getD .undefined),
    ("previtem", if i = 0 then .undefined else items[i - 1]?.getD .undefined),
    ("revindex", .int (n - i)), ("revindex0", .int (n - i - 1))])

def printed (s : Scope) (v : Value) : List Char :=
  (if s.escaping then (Filter.escape v).print else v.print).toList

def escapes (v : Value) : Bool :=
  match v with
  | .str name _ => name == "html"
  | v => v.isTrue

mutual

/-- The text a statement prints, and what is in sight after it. -/
def run (s : Scope) : Statement → Except Fault (List Char × Scope)
  | .text cs => .ok (cs, s)
  | .output e => do return (printed s (← eval s e), s)
  | .cond test yes no => do
    let holds := (← eval s test).isTrue
    let (out, inner) ← if holds then runAll s yes else runAll s no
    return (out, inner)
  | .loop targets source keep body otherwise => do
    let items ← Filter.items (← eval s source)
    let kept ← match keep with
      | none => pure items
      | some e => items.filterM fun v => do
        return (← eval (s.push (← bind targets v)) e).isTrue
    if kept.isEmpty then
      let (out, _) ← runAll s otherwise
      return (out, s)
    else
      let out ← kept.zipIdx.foldlM (fun out (v, i) => do
        let frame ← bind targets v
        let (text, _) ← runAll (s.push (frame ++ [("loop", loopValue kept i)])) body
        return out ++ text) []
      return (out, s)
  | .assign targets e => do return ([], s.define (← bind targets (← eval s e)))
  | .capture name body => do
    let (out, _) ← runAll (s.push []) body
    return ([], s.define [(name, .str (String.ofList out) s.escaping)])
  | .scope names values body => do
    let (out, _) ← runAll (s.push (names.zip (← evalAll s values))) body
    return (out, s)
  | .filtered change body => do
    let (out, _) ← runAll (s.push []) body
    let v ← eval (s.push [("", .str (String.ofList out) s.escaping)]) change
    return (printed s v, s)
  | .escaping enabled body => do
    let (out, _) ← runAll { s with escaping := escapes (← eval s enabled) } body
    return (out, s)
  | .block body => do
    let (out, _) ← runAll (s.push []) body
    return (out, s)
  | .define name parameters defaults body =>
    let routine (g : Given) : Except Fault Value := do
      let frame ← bindParameters parameters (← evalAll s defaults) g
      let (out, _) ← runAll (s.push frame) body
      return .str (String.ofList out) s.escaping
    .ok ([], { s with routines := (name, routine) :: s.routines })
  | .perform e => do
    let _ ← eval s e
    return ([], s)
  | .load name optional => do
    let _ ← eval s name
    if optional then return ([], s) else throw .templateNotFound

def runAll (s : Scope) : List Statement → Except Fault (List Char × Scope)
  | [] => .ok ([], s)
  | st :: rest => do
    let (out, s) ← run s st
    let (more, s) ← runAll s rest
    return (out ++ more, s)

end

/-- The text of a template over named values. -/
def render (m : Marks) (source : List Char) (values : List (String × Value)) :
    Except Fault (List Char) := do
  let tokens ← Token.read m source
  let statements ← Statement.ofTokens tokens
  let (out, _) ← runAll { frames := [values], escaping := false } statements
  return out

end Bindery.Template
