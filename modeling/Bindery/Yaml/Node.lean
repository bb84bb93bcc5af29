import Bindery.Yaml.Token

/-!
The nodes of a YAML text. A node that an alias may repeat has a number; the alias holds it.
-/

namespace Bindery.Yaml

/-- What stands before a node: its number, and its tag in full. -/
structure Props where
  id : Option Nat := none
  tag : Option String := none
  deriving Repr, DecidableEq

inductive Node where
  | alias (id : Nat)
  | scalar (props : Props) (text : String) (isPlain : Bool)
  | seq (props : Props) (items : List Node)
  | map (props : Props) (entries : List (Node × Node))
  deriving Repr, Inhabited

namespace Node

/-- A node of no text. -/
def empty : Node := .scalar {} "" true

/-- What is left to read, with the names given so far. -/
structure Reader where
  tokens : List (Token × Mark)
  anchors : List (List Char × Nat) := []
  /-- The number of nodes with a name. -/
  count : Nat := 0
  /-- Tag handles with what they stand for. -/
  handles : List (List Char × List Char) := []
  deriving Repr

abbrev Read := StateT Reader (Except Fault)

def peek : Read Token := return (((← get).tokens.head?).map (·.1)).getD .streamEnd

def here : Read Mark := return (((← get).tokens.head?).map (·.2)).getD {}

def skip : Read Unit := modify fun r => { r with tokens := r.tokens.tail }

def fail {T : Type} (problem : String) (context : Option (String × Mark) := none) : Read T := do
  throw ⟨problem, some (← here), context⟩

def standardHandles : List (List Char × List Char) :=
  [("!".toList, "!".toList), ("!!".toList, "tag:yaml.org,2002:".toList)]

def resolveTag (start : Mark) (handle suffix : List Char) : Read String := do
  if handle.isEmpty then return String.ofList suffix
  match ((← get).handles ++ standardHandles).lookup handle with
  | some full => return String.ofList (full ++ suffix)
  | none => fail "found undefined tag handle" (some ("while parsing a node", start))

def name (anchor : List Char) : Read Nat :=
  modifyGet fun r => (r.count, { r with
    anchors := (anchor, r.count) :: r.anchors
    count := r.count + 1 })

/-- The tag before a node. -/
def tag? (start : Mark) : Read (Option String) := do
  match ← peek with
  | .tag handle suffix =>
    skip
    return some (← resolveTag start handle suffix)
  | _ => return none

def anchor? : Read (Option (List Char)) := do
  match ← peek with
  | .anchor a =>
    skip
    return some a
  | _ => return none

def props (start : Mark) : Read Props := do
  let first ← anchor?
  let tag ← tag? start
  let anchor ← if first.isSome then pure first else if tag.isSome then anchor? else pure none
  match anchor with
  | some a => return { id := some (← name a), tag }
  | none => return { tag }

mutual

/-- One node. `inBlock` allows collections by indentation, `indentless` a sequence that is not
indented. -/
def read : Nat → Bool → Bool → Read Node
  | 0, _, _ => fail "did not find expected node content"
  | fuel + 1, inBlock, indentless => do
    let start ← here
    match ← peek with
    | .alias a =>
      match (← get).anchors.lookup a with
      | some id =>
        skip
        return .alias id
      | none => fail "unknown anchor"
    | _ =>
      let ps ← props start
      match ← peek with
      | .blockEntry =>
        if indentless then return .seq ps (← indentlessItems fuel)
        else readBare ps inBlock start
      | .scalar text isPlain =>
        skip
        let ps := if ps.tag == some "!" then { ps with tag := none } else ps
        return .scalar ps (String.ofList text) isPlain
      | .flowSequenceStart =>
        skip
        return .seq ps (← flowItems fuel start true)
      | .flowMappingStart =>
        skip
        return .map ps (← flowEntries fuel start true)
      | .blockSequenceStart =>
        if inBlock then
          skip
          return .seq ps (← blockItems fuel start)
        else readBare ps inBlock start
      | .blockMappingStart =>
        if inBlock then
          skip
          return .map ps (← blockEntries fuel start)
        else readBare ps inBlock start
      | _ => readBare ps inBlock start

/-- A node that is nothing but what stands before it. -/
def readBare (ps : Props) (inBlock : Bool) (start : Mark) : Read Node := do
  if ps.id.isSome || ps.tag.isSome then return .scalar ps "" true
  else
    fail "did not find expected node content"
      (some (if inBlock then "while parsing a block node" else "while parsing a flow node", start))

/-- A node, unless one of the tokens that end it stands there. -/
def readOr : Nat → Bool → Bool → (Token → Bool) → Read Node
  | 0, _, _, _ => fail "did not find expected node content"
  | fuel + 1, inBlock, indentless, ends => do
    if ends (← peek) then return empty else read fuel inBlock indentless

def blockItems : Nat → Mark → Read (List Node)
  | 0, _ => fail "did not find expected '-' indicator"
  | fuel + 1, start => do
    match ← peek with
    | .blockEntry =>
      skip
      let item ← readOr fuel true false fun t => t == .blockEntry || t == .blockEnd
      return item :: (← blockItems fuel start)
    | .blockEnd =>
      skip
      return []
    | _ => fail "did not find expected '-' indicator" (some ("while parsing a block collection", start))

def indentlessItems : Nat → Read (List Node)
  | 0 => return []
  | fuel + 1 => do
    match ← peek with
    | .blockEntry =>
      skip
      let item ← readOr fuel true false fun t =>
        t == .blockEntry || t == .key || t == .value || t == .blockEnd
      return item :: (← indentlessItems fuel)
    | _ => return []

def blockEntries : Nat → Mark → Read (List (Node × Node))
  | 0, _ => fail "did not find expected key"
  | fuel + 1, start => do
    match ← peek with
    | .key =>
      skip
      let ends (t : Token) : Bool := t == .key || t == .value || t == .blockEnd
      let k ← readOr fuel true true ends
      let v ← do
        if (← peek) == .value then
          skip
          readOr fuel true true ends
        else pure empty
      return (k, v) :: (← blockEntries fuel start)
    | .blockEnd =>
      skip
      return []
    | _ => fail "did not find expected key" (some ("while parsing a block mapping", start))

def flowItems : Nat → Mark → Bool → Read (List Node)
  | 0, _, _ => fail "did not find expected ',' or ']'"
  | fuel + 1, start, first => do
    if (← peek) == .flowSequenceEnd then
      skip
      return []
    unless first do
      if (← peek) == .flowEntry then skip
      else fail "did not find expected ',' or ']'" (some ("while parsing a flow sequence", start))
    match ← peek with
    | .flowSequenceEnd =>
      skip
      return []
    | .key =>
      skip
      let t ← peek
      let k ← do
        if t == .value || t == .flowEntry || t == .flowSequenceEnd then
          skip
          pure empty
        else read fuel false false
      let v ← do
        if (← peek) == .value then
          skip
          readOr fuel false false fun t => t == .flowEntry || t == .flowSequenceEnd
        else pure empty
      return .map {} [(k, v)] :: (← flowItems fuel start false)
    | _ =>
      let item ← read fuel false false
      return item :: (← flowItems fuel start false)

def flowEntries : Nat → Mark → Bool → Read (List (Node × Node))
  | 0, _, _ => fail "did not find expected ',' or '\x7d'"
  | fuel + 1, start, first => do
    if (← peek) == .flowMappingEnd then
      skip
      return []
    unless first do
      if (← peek) == .flowEntry then skip
      else fail "did not find expected ',' or '\x7d'" (some ("while parsing a flow mapping", start))
    match ← peek with
    | .flowMappingEnd =>
      skip
      return []
    | .key =>
      skip
      let k ← readOr fuel false false fun t =>
        t == .value || t == .flowEntry || t == .flowMappingEnd
      let v ← do
        if (← peek) == .value then
          skip
          readOr fuel false false fun t => t == .flowEntry || t == .flowMappingEnd
        else pure empty
      return (k, v) :: (← flowEntries fuel start false)
    | _ =>
      let k ← read fuel false false
      return (k, empty) :: (← flowEntries fuel start false)

end

/-- Reads the directives before a document. -/
def directives : Nat → Bool → Read Unit
  | 0, _ => return
  | fuel + 1, seenVersion => do
    match ← peek with
    | .version major minor =>
      if seenVersion then fail "found duplicate %YAML directive"
      if major ≠ 1 || !(minor == 1 || minor == 2) then fail "found incompatible YAML document"
      skip
      directives fuel true
    | .tagDirective handle full =>
      if ((← get).handles.lookup handle).isSome then fail "found duplicate %TAG directive"
      modify fun r => { r with handles := (handle, full) :: r.handles }
      skip
      directives fuel seenVersion
    | _ => return

def opensDocument : Token → Bool
  | .version .. | .tagDirective .. | .documentStart => true
  | _ => false

/-- The node of the only document of a text; a text may hold none. -/
def document (fuel : Nat) : Read (Option Node) := do
  if (← peek) == .streamEnd then return none
  let explicit := opensDocument (← peek)
  if explicit then
    directives fuel false
    if (← peek) == .documentStart then skip
    else fail "did not find expected <document start>"
  let t ← peek
  let node ←
    if explicit && (opensDocument t || t == .documentEnd || t == .streamEnd) then pure empty
    else read fuel true false
  modify fun r => { r with tokens := r.tokens.dropWhile (·.1 == .documentEnd) }
  if (← peek) == .streamEnd then return some node
  else
    throw ⟨"deserializing from YAML containing more than one document is not supported",
      none, none⟩

def ofTokens (tokens : List (Token × Mark)) : Except Fault (Option Node) := do
  let (node, _) ← (document (2 * tokens.length + 4)).run { tokens }
  return node

end Node
end Bindery.Yaml
