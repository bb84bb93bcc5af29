import Bindery.Json.Record
import Bindery.Text.Basic

/-!
Headings of a document: the `{#id}` marker that may close a heading's text, the ids headings
carry, and the entry a heading leaves in the outline.
-/

namespace Bindery

/-- One entry of a document's flat outline. -/
structure Heading where
  level : Nat
  title : String
  id : Option String
  deriving Repr, DecidableEq

namespace Heading

/-- A heading is listed when its level is 1 to 6 and its title is not blank. -/
def isListed (h : Heading) : Bool :=
  1 ≤ h.level && h.level ≤ 6 && !(Text.trim h.title.toList).isEmpty

/-- The text before and after the last place where a marker opens. -/
def splitMarker : List Char → Option (List Char × List Char)
  | [] => none
  | c :: cs =>
    match splitMarker cs with
    | some (before, body) => some (c :: before, body)
    | none =>
      match c, cs with
      | '{', '#' :: body => some ([], body)
      | _, _ => none

/-- Splits a closing `{#id}` off a heading's text. The marker must end the text, blanks apart,
and its body must be non-empty and free of closing braces. -/
def extractMarker (text : List Char) : List Char × Option (List Char) :=
  let core := Text.trimEnd text
  if core.getLast? = some '}' then
    match splitMarker core with
    | some (before, body) =>
      let inner := body.dropLast
      if inner.isEmpty || inner.contains '}' then (text, none)
      else (Text.trimEnd before, some (Text.trim inner))
    | none => (text, none)
  else (text, none)

/-- A character that stands for itself in an id. -/
def isIdChar (c : Char) : Bool := Text.isAsciiAlnum c || c == '_'

/-- Every run of other characters becomes one hyphen; `inGap` holds while a run is open. -/
def idChars : Bool → List Char → List Char
  | _, [] => []
  | inGap, c :: cs =>
    if isIdChar c then c :: idChars false cs
    else if inGap then idChars true cs
    else '-' :: idChars true cs

/-- The id written for a raw text, if anything but hyphens is left of it. -/
def sanitizeId (raw : List Char) : Option (List Char) :=
  let id := idChars false raw
  if id.all (· == '-') then none else some id

/-- A marker's id wins; otherwise the text gives one, behind the configured start, when derived
ids are on. -/
def chooseId (text : List Char) (marker : Option (List Char)) (derive : Bool)
    (start : List Char) : Option (List Char) :=
  match marker with
  | some id => sanitizeId id
  | none => if derive then sanitizeId (start ++ text) else none

/-- Cuts a closing marker off rendered heading markup. -/
def stripMarker (html : List Char) : List Char :=
  let core := Text.trimEnd html
  match splitMarker core with
  | some (before, _) => if core.getLast? = some '}' then Text.trimEnd before else html
  | none => html

def ofJson (v : Json) : Json.Reads Heading := do
  let fs ← v.record "Heading" ["level", "title", "id"]
  return {
    level := ← fs.need "level" Json.byte
    title := ← fs.need "title" Json.string
    id := ← fs.read "id" none (Json.nullable Json.string) }

/-- A heading without an id has no such field. -/
def toJson (h : Heading) : Json := .obj (Json.Fields.ofList
  ([("level", .num (.int h.level)), ("title", .str h.title)] ++
    (h.id.map fun id => ("id", Json.str id)).toList))

end Heading
end Bindery
