import Bindery.Markdown.Line
import Bindery.Text.Basic
import Bindery.Text.Punctuation

/-!
Links that are written as themselves: addresses between angle brackets, and bare web and mail
addresses in text.
-/

namespace Bindery.Markdown.Autolink

def isSchemeChar (c : Char) : Bool := c.isAlphanum || c == '+' || c == '-' || c == '.'

/-- An address with a scheme of 2 to 32 characters, after its opening bracket. -/
def uri? (cs : List Char) : Option (List Char × List Char) :=
  let scheme := cs.takeWhile isSchemeChar
  if !((scheme.head?.map Char.isAlpha).getD false) || scheme.length < 2 || scheme.length > 32 then
    none
  else
    match cs.drop scheme.length with
    | ':' :: rest =>
      let body := rest.takeWhile fun c => !(c.toNat ≤ 0x20 || c.toNat == 0x7F || c == '<' || c == '>')
      match rest.drop body.length with
      | '>' :: after => some (scheme ++ ':' :: body, after)
      | _ => none
    | _ => none

def isAtext (c : Char) : Bool :=
  c.isAlphanum || "!#$%&'*+-/=?^_\x60\x7b|\x7d~.".toList.contains c

/-- A part of a mail domain: at most 63 letters, digits and hyphens, none of the latter at an
end. -/
def isDomainLabel (cs : List Char) : Bool :=
  !cs.isEmpty && cs.length ≤ 63 && cs.all (fun c => c.isAlphanum || c == '-') &&
    cs.head? != some '-' && cs.getLast? != some '-'

/-- A mail address after its opening bracket. -/
def email? (cs : List Char) : Option (List Char × List Char) :=
  let user := cs.takeWhile isAtext
  match cs.drop user.length with
  | '@' :: rest =>
    let domain := rest.takeWhile fun c => c.isAlphanum || c == '-' || c == '.'
    match rest.drop domain.length with
    | '>' :: after =>
      if !user.isEmpty && (Text.splitOn (· == '.') domain).all isDomainLabel then
        some (user ++ '@' :: domain, after)
      else none
    | _ => none
  | _ => none

/-- A link found in text: its address, and the characters it is written with. -/
structure Found where
  url : List Char
  shown : List Char
  deriving Repr, DecidableEq

/-- The autolink after a `<`, with the text after it. -/
def bracketed? (cs : List Char) : Option (Found × List Char) :=
  match uri? cs with
  | some (address, rest) => some (⟨address, address⟩, rest)
  | none => (email? cs).map fun (address, rest) => (⟨"mailto:".toList ++ address, address⟩, rest)

def isTrailMark (c : Char) : Bool := "!\"')*,.:;?_~".toList.contains c

/-- Is the text a run of closing punctuation that the address does not own, up to its end? -/
def isTrail : Nat → List Char → Bool
  | _, [] => true
  | skip + 1, _ :: cs => isTrail skip cs
  | 0, c :: cs =>
    if isTrailMark c then isTrail 0 cs
    else if c = '&' then
      let name := cs.takeWhile Char.isAlpha
      if !name.isEmpty && (cs.drop name.length).head? == some ';' then
        isTrail (name.length + 1) cs
      else false
    else if c = '<' then true
    else if c = ']' then
      match cs with
      | [] => true
      | d :: _ =>
        if isSpaceOrTab d || isEol d || d == '(' || d == '[' then true else isTrail 0 cs
    else Text.isBlank c

/-- Reads a domain: its length. `last` and `previous` hold when the last segments so far have an
underscore, `seen` when anything was read. -/
def domainLength (last previous seen : Bool) (length : Nat) : List Char → Option Nat
  | [] => if last || previous || !seen then none else some length
  | c :: cs =>
    let done := if last || previous || !seen then none else some length
    if c = '.' || c = '_' then
      if isTrail 0 (c :: cs) then done
      else if c = '_' then domainLength true previous seen (length + 1) cs
      else domainLength false last seen (length + 1) cs
    else if c = '-' then domainLength last previous seen (length + 1) cs
    else if Text.isBlank c || Text.isPunctuation c then done
    else domainLength last previous true (length + 1) cs

/-- The length of the path after a domain; `opened` and `closed` count its parentheses. -/
def pathLength (opened closed length : Nat) : List Char → Nat
  | [] => length
  | c :: cs =>
    if c = '(' then pathLength (opened + 1) closed (length + 1) cs
    else if c = ')' && closed < opened then pathLength opened (closed + 1) (length + 1) cs
    else if isTrailMark c || c = '&' || c = '<' || c = ']' then
      if isTrail 0 (c :: cs) then length
      else pathLength opened (if c = ')' then closed + 1 else closed) (length + 1) cs
    else if Text.isBlank c then length
    else pathLength opened closed (length + 1) cs

/-- The length of a domain with its path. -/
def addressLength? (cs : List Char) : Option Nat :=
  (domainLength false false false 0 cs).map fun n => n + pathLength 0 0 0 (cs.drop n)

/-- An address that opens with its protocol. -/
def protocol? (previous : Option Char) (cs : List Char) : Option Found :=
  if (previous.map Char.isAlpha).getD false then none
  else
    let name := Text.asciiLower (cs.takeWhile Char.isAlpha)
    if name == "http".toList || name == "https".toList then
      (Text.afterWord? "://".toList (cs.drop name.length)).bind fun rest =>
        (addressLength? rest).map fun n =>
          let shown := cs.take (name.length + 3 + n)
          ⟨shown, shown⟩
    else none

def mayPrecedeWww : Option Char → Bool
  | none => true
  | some c => isSpaceOrTab c || isEol c || "(*_[]~".toList.contains c

/-- An address that opens with `www.`. -/
def www? (previous : Option Char) (cs : List Char) : Option Found :=
  if mayPrecedeWww previous && Text.asciiLower (cs.take 4) == "www.".toList &&
      !(cs.drop 4).isEmpty then
    (addressLength? cs).map fun n =>
      let shown := cs.take n
      ⟨"http://".toList ++ shown, shown⟩
  else none

/-- A bare web address at the front of a text, by the character before it. -/
def literal? (previous : Option Char) (cs : List Char) : Option Found :=
  match cs with
  | c :: _ =>
    if c == 'h' || c == 'H' then protocol? previous cs
    else if c == 'w' || c == 'W' then www? previous cs
    else none
  | [] => none

def isUserChar (c : Char) : Bool :=
  c.isAlphanum || c == '+' || c == '-' || c == '.' || c == '_'

/-- The length of a mail domain: letters, digits, hyphens and underscores with a dot before a
letter or digit; `slash` allows slashes. -/
def mailDomainLength (slash dot : Bool) (length : Nat) (lastAlpha : Bool) : List Char → Option Nat
  | [] => if dot && lastAlpha then some length else none
  | c :: cs =>
    let done := if dot && lastAlpha then some length else none
    if c.isAlphanum || c == '-' || c == '_' || (slash && c == '/') then
      mailDomainLength slash dot (length + 1) c.isAlpha cs
    else if c = '.' && ((cs.head?.map Char.isAlphanum).getD false) then
      mailDomainLength slash true (length + 1) false cs
    else done

/-- The part of a mail address before its `@`, taken off the reversed text before it: the address
part, whether a protocol stands before it, and that protocol. Nothing that follows a slash is one. -/
def mailUser? (before : List Char) : Option (List Char × List Char × String) :=
  let user := before.takeWhile isUserChar
  let rest := before.drop user.length
  if user.isEmpty || rest.head? == some '/' then none
  else
    match rest with
    | ':' :: more =>
      let word := more.takeWhile Char.isAlphanum
      let name := String.ofList (Text.asciiLower word.reverse)
      if name == "mailto" || name == "xmpp" then
        some ((user ++ ':' :: word).reverse, more.drop word.length, name)
      else some (user.reverse, rest, "")
    | _ => some (user.reverse, rest, "")

/-- A stretch of text, or a mail address in it. -/
inductive Part where
  | text (cs : List Char)
  | link (found : Found)
  deriving Repr, DecidableEq

/-- Cuts text at the mail addresses in it. `before` is the text since the last one, the latest
character first. -/
def mailParts (before : List Char) : Nat → List Char → List Part
  | _, [] => if before.isEmpty then [] else [.text before.reverse]
  | skip + 1, _ :: cs => mailParts before skip cs
  | 0, c :: cs =>
    if c = '@' then
      match mailUser? before with
      | some (user, front, protocol) =>
        match mailDomainLength (protocol == "xmpp") false 0 false cs with
        | some n =>
          let shown := user ++ '@' :: cs.take n
          let url := if protocol.isEmpty then "mailto:".toList ++ shown else shown
          (if front.isEmpty then [] else [.text front.reverse]) ++
            .link ⟨url, shown⟩ :: mailParts [] n cs
        | none => mailParts (c :: before) 0 cs
      | none => mailParts (c :: before) 0 cs
    else mailParts (c :: before) 0 cs

end Bindery.Markdown.Autolink
