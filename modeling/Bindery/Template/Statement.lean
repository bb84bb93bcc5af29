import Bindery.Template.Expr

/-!
The statements of a template and their reading from tokens.
-/

namespace Bindery.Template

inductive Statement where
  | text (cs : List Char)
  | output (e : Expr)
  | cond (test : Expr) (yes no : List Statement)
  /-- Runs the body for the items that `keep` holds of, and `otherwise` when there are none. -/
  | loop (targets : List String) (source : Expr) (keep : Option Expr)
      (body otherwise : List Statement)
  | assign (targets : List String) (e : Expr)
  /-- Names the text of the body. -/
  | capture (name : String) (body : List Statement)
  | scope (names : List String) (values : List Expr) (body : List Statement)
  /-- Prints what `change` makes of the body's text, which has the empty name in it. -/
  | filtered (change : Expr) (body : List Statement)
  | escaping (enabled : Expr) (body : List Statement)
  | block (body : List Statement)
  /-- Names a text with parameters; `defaults` belong to the last of them. -/
  | define (name : String) (parameters : List String) (defaults : List Expr)
      (body : List Statement)
  | perform (e : Expr)
  /-- Asks for another template. -/
  | load (name : Expr) (optional : Bool)
  deriving Inhabited

namespace Statement

def reserved : List String :=
  ["true", "True", "false", "False", "none", "None", "loop", "self"]

/-- The names after a comma-separated list's first one. -/
def moreTargets : List Token → List String × List Token
  | .mark "," :: .name s :: ts =>
    let (names, ts) := moreTargets ts
    (s :: names, ts)
  | .mark "," :: ts => ([], ts)
  | ts => ([], ts)

/-- What a loop or an assignment names. -/
def targets? (ts : List Token) : Option (List String × List Token) := do
  let (names, ts) ← match ts with
    | .mark "(" :: .name s :: ts =>
      let (names, ts) := moreTargets ts
      match ts with
      | .mark ")" :: ts => some (s :: names, ts)
      | _ => none
    | .name s :: ts =>
      let (names, ts) := moreTargets ts
      some (s :: names, ts)
    | _ => none
  if names.any reserved.contains then none else some (names, ts)

def afterClose? : List Token → Option (List Token)
  | .blockClose :: ts => some ts
  | _ => none

/-- The rest of a block is passed over. -/
def skipBlock (ts : List Token) : Option (List Token) :=
  afterClose? (ts.dropWhile fun t => t != .blockClose)

/-- Expressions bound to names, as `with` lists them. -/
def bindings? : Nat → List Token → Option (List String × List Expr × List Token)
  | 0, _ => none
  | steps + 1, ts =>
    match ts with
    | .name s :: .mark "=" :: ts => do
      let (e, ts) ← Expr.ofTokens? ts
      match ts with
      | .mark "," :: ts =>
        let (names, es, ts) ← bindings? steps ts
        return (s :: names, e :: es, ts)
      | ts => some ([s], [e], ts)
    | ts => some ([], [], ts)

/-- Parameters up to the closing parenthesis; behind one with a default all have defaults. -/
def parameters? : Nat → Bool → List Token → Option (List String × List Expr × List Token)
  | 0, _, _ => none
  | steps + 1, defaulting, ts =>
    match ts with
    | .mark ")" :: ts => some ([], [], ts)
    | .name s :: ts =>
      if reserved.contains s then none
      else do
        let (found, ts) ← match ts with
          | .mark "=" :: ts => (Expr.ofTokens? ts).map fun (e, ts) => ([e], ts)
          | ts => if defaulting then none else some ([], ts)
        match ts with
        | .mark "," :: ts =>
          let (names, es, ts) ← parameters? steps (defaulting || !found.isEmpty) ts
          return (s :: names, found ++ es, ts)
        | .mark ")" :: ts => return ([s], found, ts)
        | _ => none
    | _ => none

mutual

/-- Statements up to a block that opens with one of `ends`, whose tokens are left from that word
on; with no `ends`, up to the end. At most `steps` statements follow or enclose each other. -/
def readAll : Nat → List String → List Token → Option (List Statement × List Token)
  | 0, _, _ => none
  | steps + 1, ends, ts =>
    match ts with
    | [] => if ends.isEmpty then some ([], []) else none
    | .text cs :: ts => (readAll steps ends ts).map fun (ss, ts) => (.text cs :: ss, ts)
    | .outputOpen :: ts => do
      let (e, ts) ← Expr.ofTokens? ts
      match ts with
      | .outputClose :: ts =>
        let (ss, ts) ← readAll steps ends ts
        return (.output e :: ss, ts)
      | _ => none
    | .blockOpen :: .name s :: ts =>
      if ends.contains s then some ([], .name s :: ts)
      else do
        let (first, ts) ← readBlock steps s ts
        let (ss, ts) ← readAll steps ends ts
        return (first :: ss, ts)
    | _ => none

/-- The statement of a block after the word it opens with. -/
def readBlock : Nat → String → List Token → Option (Statement × List Token)
  | 0, _, _ => none
  | steps + 1, s, ts =>
    match s with
    | "if" => readCond steps ts
    | "for" => do
      let (targets, ts) ← targets? ts
      match ts with
      | .name "in" :: ts =>
        let (source, ts) ← Expr.operandOfTokens? ts
        let (keep, ts) ← match ts with
          | .name "if" :: ts => (Expr.ofTokens? ts).map fun (e, ts) => (some e, ts)
          | ts => some (none, ts)
        let ts := if ts.head? == some (.name "recursive") then ts.tail else ts
        let (body, ts) ← readAll steps ["else", "endfor"] (← afterClose? ts)
        match ts with
        | .name "else" :: ts =>
          let (otherwise, ts) ← readAll steps ["endfor"] (← afterClose? ts)
          return (.loop targets source keep body otherwise, ← afterClose? ts.tail)
        | ts => return (.loop targets source keep body [], ← afterClose? ts.tail)
      | _ => none
    | "set" => do
      let (targets, ts) ← targets? ts
      match targets, ts with
      | _, .mark "=" :: ts =>
        let (e, ts) ← Expr.ofTokens? ts
        return (.assign targets e, ← afterClose? ts)
      | [name], .blockClose :: ts =>
        let (body, ts) ← readAll steps ["endset"] ts
        return (.capture name body, ← afterClose? ts.tail)
      | _, _ => none
    | "with" => do
      let (names, values, ts) ← bindings? (ts.length + 1) ts
      let (body, ts) ← readAll steps ["endwith"] (← afterClose? ts)
      return (.scope names values body, ← afterClose? ts.tail)
    | "filter" => do
      let (change, ts) ← Expr.readFilters (Expr.stepsFor ts) (.var "") (.mark "|" :: ts)
      let (body, ts) ← readAll steps ["endfilter"] (← afterClose? ts)
      return (.filtered change body, ← afterClose? ts.tail)
    | "autoescape" => do
      let (enabled, ts) ← Expr.ofTokens? ts
      let (body, ts) ← readAll steps ["endautoescape"] (← afterClose? ts)
      return (.escaping enabled body, ← afterClose? ts.tail)
    | "block" =>
      match ts with
      | .name s :: ts => do
        let (body, ts) ← readAll steps ["endblock"] (← afterClose? ts)
        let ts := if ts.tail.head? == some (.name s) then ts.tail.tail else ts.tail
        return (.block body, ← afterClose? ts)
      | _ => none
    | "macro" =>
      match ts with
      | .name s :: .mark "(" :: ts => do
        let (names, defaults, ts) ← parameters? (ts.length + 1) false ts
        let (body, ts) ← readAll steps ["endmacro"] (← afterClose? ts)
        return (.define s names defaults body, ← afterClose? ts.tail)
      | _ => none
    | "do" => do
      let (e, ts) ← Expr.ofTokens? ts
      if e.isCall then return (.perform e, ← afterClose? ts) else none
    | "include" => do
      let (e, ts) ← Expr.ofTokens? ts
      match ts with
      | .name "ignore" :: .name "missing" :: ts => return (.load e true, ← skipBlock ts)
      | .name "with" :: ts | .name "without" :: ts | ts => return (.load e false, ← skipBlock ts)
    | "extends" => do
      let (e, ts) ← Expr.ofTokens? ts
      return (.load e false, ← afterClose? ts)
    | "import" => do
      let (e, ts) ← Expr.ofTokens? ts
      match ts with
      | .name "as" :: .name _ :: ts => return (.load e false, ← skipBlock ts)
      | _ => none
    | "from" => do
      let (e, ts) ← Expr.ofTokens? ts
      match ts with
      | .name "import" :: .name _ :: ts => return (.load e false, ← skipBlock ts)
      | _ => none
    | _ => none

def readCond : Nat → List Token → Option (Statement × List Token)
  | 0, _ => none
  | steps + 1, ts => do
    let (holds, ts) ← Expr.ofTokens? ts
    let (yes, ts) ← readAll steps ["elif", "else", "endif"] (← afterClose? ts)
    match ts with
    | .name "elif" :: ts =>
      let (no, ts) ← readCond steps ts
      return (.cond holds yes [no], ts)
    | .name "else" :: ts =>
      let (no, ts) ← readAll steps ["endif"] (← afterClose? ts)
      return (.cond holds yes no, ← afterClose? ts.tail)
    | ts => return (.cond holds yes [], ← afterClose? ts.tail)

end

/-- The statements of a template. -/
def ofTokens (ts : List Token) : Except Fault (List Statement) :=
  match readAll (2 * ts.length + 2) [] ts with
  | some (ss, []) => .ok ss
  | _ => .error .syntaxError

end Statement
end Bindery.Template
