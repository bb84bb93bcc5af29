import Bindery.Text.Basic

/-!
Local references in markup. A reference is local when it names a file next to the document: it
has no scheme, no host, and is not a bare fragment or query. The scan finds the first `href` or
`src` of every tag that can carry an asset.
-/

namespace Bindery.Html.Reference

/-- The small ASCII letter a character stands for when case is ignored, by Unicode's simple
folding: the long s and the Kelvin sign fold to letters too. -/
def foldCase (c : Char) : Char :=
  if c = '\u017F' then 's' else if c = '\u212A' then 'k' else Text.toAsciiLower c

def isSchemeChar (c : Char) : Bool :=
  let d := foldCase c
  ('a' ≤ d && d ≤ 'z') || ('0' ≤ c && c ≤ '9') || c == '+' || c == '.' || c == '-'

/-- The text opens with a scheme and its colon. -/
def hasScheme (href : List Char) : Bool :=
  match href with
  | c :: cs =>
    ('a' ≤ foldCase c && foldCase c ≤ 'z') && (cs.dropWhile isSchemeChar).head? == some ':'
  | [] => false

def isLocal (href : List Char) : Bool :=
  match href with
  | [] => false
  | '/' :: '/' :: _ => false
  | ['/'] => false
  | c :: cs =>
    if c = '?' || c = '#' then
      match cs with
      | d :: _ => d = '\n'
      | [] => true
    else !hasScheme href

/-- The part before the first query or fragment mark. -/
def stripSuffix (href : List Char) : List Char :=
  href.takeWhile fun c => !(c == '?' || c == '#')

/-- The file a reference names, when it is local. -/
def localTarget (href : List Char) : Option (List Char) :=
  if isLocal href then
    let target := Text.trim (stripSuffix href)
    if target.isEmpty then none else some target
  else none

/-- Elements that carry an asset in `href` or `src`. -/
def carriers : List (List Char) :=
  ["a", "area", "audio", "iframe", "img", "embed", "link", "script", "source", "track",
    "video"].map String.toList

/-- What follows `word` at the front of a text, case ignored. -/
def afterFolded? : List Char → List Char → Option (List Char)
  | [], cs => some cs
  | _ :: _, [] => none
  | w :: word, c :: cs => if w = foldCase c then afterFolded? word cs else none

/-- For the text after a `<` that opens a carrier's tag: the length of the tag's name with the
blanks before it, and what stands between the name and the tag's end. At least one blank and one
more character stand there. -/
def tag? (cs : List Char) : Option (Nat × List Char) := do
  let blanks := (cs.takeWhile Text.isBlank).length
  let rest := cs.drop blanks
  let (width, after) ← carriers.findSome? fun name =>
    match afterFolded? name rest with
    | some (c :: more) => if Text.isBlank c then some (name.length, c :: more) else none
    | _ => none
  let body := after.takeWhile (· != '>')
  if body.length < after.length && body.length > 1 then some (blanks + width, body) else none

/-- The value after a reference attribute's name, as what precedes it and the value. -/
def valueAfter? (cs : List Char) : Option (List Char × List Char) :=
  let gap := cs.takeWhile Text.isBlank
  match cs.dropWhile Text.isBlank with
  | '=' :: rest =>
    let gap := gap ++ '=' :: rest.takeWhile Text.isBlank
    match rest.dropWhile Text.isBlank with
    | [] => none
    | q :: more =>
      if q = '\x22' || q = '\x27' then
        let value := more.takeWhile (· != q)
        if value.length < more.length then some (gap ++ [q], value) else none
      else
        let value := (q :: more).takeWhile fun c =>
          !(Text.isBlank c || "\"'=<>\x60".toList.contains c)
        if value.isEmpty then none else some (gap, value)
  | _ => none

/-- The first reference attribute of a tag: what precedes its value, and the value. `front` is
what was passed, the latest character first; a name counts at the start or after a blank. -/
def findValue : List Char → Bool → List Char → Option (List Char × List Char)
  | _, _, [] => none
  | front, free, c :: cs =>
    let named := if free then
        (afterFolded? "href".toList (c :: cs)).map (("href".length, ·)) <|>
          (afterFolded? "src".toList (c :: cs)).map (("src".length, ·))
      else none
    match named with
    | some (width, rest) =>
      (valueAfter? rest).map fun (gap, value) =>
        (front.reverse ++ (c :: cs).take width ++ gap, value)
    | none => findValue (c :: front) (Text.isBlank c) cs

/-- Cuts a tag body at the trimmed value of its first reference attribute. -/
def splitBody (body : List Char) : Option (List Char × List Char) :=
  match findValue [] false body with
  | some (before, value) =>
    let blanks := value.takeWhile Text.isBlank
    let core := Text.trim value
    if core.isEmpty then none else some (before ++ blanks, core)
  | none => none

/-- A piece of markup: text to keep, or the value of a reference. -/
inductive Piece where
  | text (cs : List Char)
  | value (cs : List Char)
  deriving Repr, DecidableEq

def Piece.chars : Piece → List Char
  | .text cs => cs
  | .value cs => cs

/-- Cuts markup into pieces. `kept` is the text since the last value, the latest character first. -/
def scanFrom (kept html : List Char) : List Piece :=
  match html with
  | [] => [.text kept.reverse]
  | c :: cs =>
    if c = '<' then
      match tag? cs with
      | some (lead, body) =>
        let rest := cs.drop (lead + body.length)
        match splitBody body with
        | some (before, value) =>
          let tail := body.drop (before.length + value.length)
          .text (kept.reverse ++ '<' :: cs.take lead ++ before) :: .value value ::
            scanFrom tail.reverse rest
        | none => scanFrom ((cs.take (lead + body.length)).reverse ++ '<' :: kept) rest
      | none => scanFrom (c :: kept) cs
    else scanFrom (c :: kept) cs
termination_by html.length
decreasing_by all_goals simp only [List.length_cons, List.length_drop]; omega

def scan (html : List Char) : List Piece := scanFrom [] html

/-- Puts what `handle` answers in the place of every local value. -/
def redirectPieces {m : Type → Type} [Monad m] (handle : List Char → m (List Char)) :
    List Piece → m (List Char)
  | [] => pure []
  | .text cs :: rest => do
    let out ← redirectPieces handle rest
    return cs ++ out
  | .value cs :: rest =>
    match localTarget cs with
    | some target => do
      let new ← handle target
      let out ← redirectPieces handle rest
      return new ++ out
    | none => do
      let out ← redirectPieces handle rest
      return cs ++ out

/-- Redirects the local references of a page in order; all else stays as written. -/
def redirect {m : Type → Type} [Monad m] (handle : List Char → m (List Char))
    (html : List Char) : m (List Char) :=
  redirectPieces handle (scan html)

end Bindery.Html.Reference
