import Bindery.Text.Basic

/-!
Selectors in link and image titles: `#id`, `.class` and `[name=value]` items in any order, read
into attributes for the tag.
-/

namespace Bindery

/-- The attributes a selector asks for. -/
structure Selector where
  id : Option (List Char) := none
  /-- Without repetition, in order of first appearance. -/
  classes : List (List Char) := []
  /-- A boolean attribute has no value. -/
  attrs : List (List Char × Option (List Char)) := []
  deriving Repr, DecidableEq

inductive SelectorError where
  | duplicateId (selector first second : List Char)
  | unparsed (selector rest : List Char)
  deriving Repr, DecidableEq

def SelectorError.message : SelectorError → String
  | .duplicateId selector first second =>
    s!"selector `{String.ofList selector}` declares id twice (`#{String.ofList first}` and `#{String.ofList second}`)"
  | .unparsed selector rest =>
    s!"bad selector `{String.ofList selector}`: cannot parse `{String.ofList rest}`"

namespace Selector

/-- A title that opens with one of the three item marks is read as a selector. -/
def opens (title : List Char) : Bool :=
  match title with
  | c :: _ => c == '#' || c == '.' || c == '['
  | [] => false

/-- Takes one pair of equal quotes off a value and writes the double quotes left inside it as
entities. -/
def unquote (value : List Char) : List Char :=
  let inner :=
    match value with
    | q :: rest =>
      if (q == '\x22' || q == '\x27') && rest.getLast? = some q then rest.dropLast else value
    | [] => []
  inner.flatMap fun c => if c = '\x22' then "&quot;".toList else [c]

/-- What a bracket body says: its name, and the value after the first `=`. -/
def readAttr (body : List Char) : Option (List Char × Option (List Char)) :=
  let name := Text.trim (body.takeWhile (· != '='))
  if name.isEmpty then none
  else match body.dropWhile (· != '=') with
    | _ :: value => some (name, some (unquote (Text.trim value)))
    | [] => some (name, none)

/-- The last value written for a name counts, at the place of its first appearance. -/
def putAttr (name : List Char) (value : Option (List Char)) :
    List (List Char × Option (List Char)) → List (List Char × Option (List Char))
  | [] => [(name, value)]
  | (n, v) :: rest => if n = name then (n, value) :: rest else (n, v) :: putAttr name value rest

/-- One step of reading: an item, or a character that belongs to none. -/
inductive Item where
  | id (name : List Char)
  | cls (name : List Char)
  | attr (name : List Char) (value : Option (List Char))
  | blank
  | other (c : Char)
  deriving Repr, DecidableEq

/-- The first item of a text and how many characters after its first one it takes. -/
def nextItem (c : Char) (cs : List Char) : Item × Nat :=
  if c = '#' || c = '.' then
    let name := cs.takeWhile Text.isWordChar
    if name.isEmpty then (.other c, 0)
    else (if c = '#' then .id name else .cls name, name.length)
  else if c = '[' then
    let body := cs.takeWhile (· != ']')
    if body.length < cs.length then
      match readAttr body with
      | some (name, value) => (.attr name value, body.length + 1)
      | none => (.other c, 0)
    else (.other c, 0)
  else if Text.isBlank c then (.blank, 0)
  else (.other c, 0)

/-- The items of a text from the left; the first `skip` characters belong to the item before. -/
def itemsFrom : Nat → List Char → List Item
  | _, [] => []
  | skip + 1, _ :: cs => itemsFrom skip cs
  | 0, c :: cs => (nextItem c cs).1 :: itemsFrom (nextItem c cs).2 cs

def items (selector : List Char) : List Item := itemsFrom 0 selector

/-- Takes the items in from the left, keeping the characters that belong to none. -/
def collect (selector : List Char) : List Item → Selector → List Char →
    Except SelectorError (Selector × List Char)
  | [], s, rest => .ok (s, rest)
  | .id name :: more, s, rest =>
    match s.id with
    | some first => .error (.duplicateId selector first name)
    | none => collect selector more { s with id := some name } rest
  | .cls name :: more, s, rest =>
    collect selector more
      (if s.classes.contains name then s else { s with classes := s.classes ++ [name] }) rest
  | .attr name value :: more, s, rest =>
    collect selector more { s with attrs := putAttr name value s.attrs } rest
  | .blank :: more, s, rest => collect selector more s rest
  | .other c :: more, s, rest => collect selector more s (rest ++ [c])

/-- Reads a selector. A second id, or any text that belongs to no item, is an error. -/
def parse (selector : List Char) : Except SelectorError Selector :=
  match collect selector (items selector) {} [] with
  | .error e => .error e
  | .ok (s, rest) => if rest.isEmpty then .ok s else .error (.unparsed selector rest)

def quoted (name value : List Char) : List Char :=
  ' ' :: name ++ "=\"".toList ++ value ++ "\"".toList

/-- The attributes as text to stand right after a tag name. -/
def attrText (s : Selector) : List Char :=
  (match s.id with
    | some id => quoted "id".toList id
    | none => []) ++
  (if s.classes.isEmpty then [] else quoted "class".toList (Text.join [' '] s.classes)) ++
  s.attrs.flatMap fun (name, value) =>
    match value with
    | some value => quoted name value
    | none => ' ' :: name

end Selector
end Bindery
