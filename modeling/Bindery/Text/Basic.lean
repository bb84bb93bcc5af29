/-!
Plain text as a list of characters: blank characters, trimming, cutting at a separator, and
replacing every occurrence of a word. Everything here is structural on the text.
-/

namespace Bindery.Text

/-- The characters with the Unicode property White_Space. -/
def isBlank (c : Char) : Bool :=
  let n := c.toNat
  (0x09 ≤ n && n ≤ 0x0D) || n == 0x20 || n == 0x85 || n == 0xA0 || n == 0x1680 ||
    (0x2000 ≤ n && n ≤ 0x200A) || n == 0x2028 || n == 0x2029 || n == 0x202F ||
    n == 0x205F || n == 0x3000

theorem isBlank_of_isWhitespace {c : Char} (h : c.isWhitespace = true) : isBlank c = true := by
  simp only [Char.isWhitespace, Bool.or_eq_true, decide_eq_true_eq] at h
  rcases h with ((rfl | rfl) | rfl) | rfl <;> decide

/-- The text without the longest end on which `p` holds. -/
def dropEndWhile (p : Char → Bool) (cs : List Char) : List Char :=
  cs.foldr (fun c rest => if rest.isEmpty && p c then [] else c :: rest) []

def trimStart (cs : List Char) : List Char := cs.dropWhile isBlank

def trimEnd (cs : List Char) : List Char := dropEndWhile isBlank cs

def trim (cs : List Char) : List Char := trimEnd (trimStart cs)

def isAsciiAlnum (c : Char) : Bool := c.isAlphanum

/-- Letters, digits, `_` and `-` of ASCII: the characters of a name in a selector. -/
def isWordChar (c : Char) : Bool := isAsciiAlnum c || c == '_' || c == '-'

def toAsciiLower (c : Char) : Char := if 'A' ≤ c && c ≤ 'Z' then Char.ofNat (c.toNat + 32) else c

def asciiLower (cs : List Char) : List Char := cs.map toAsciiLower

/-- The pieces between the separators; a text without one is its own only piece. -/
def splitOn (sep : Char → Bool) : List Char → List (List Char)
  | [] => [[]]
  | c :: cs =>
    if sep c then [] :: splitOn sep cs
    else match splitOn sep cs with
      | [] => [[c]]
      | piece :: pieces => (c :: piece) :: pieces

theorem splitOn_ne_nil (sep : Char → Bool) (cs : List Char) : splitOn sep cs ≠ [] := by
  cases cs with
  | nil => simp [splitOn]
  | cons c cs => unfold splitOn; split <;> (try split) <;> simp

/-- The lines of a text, cut at line feeds. -/
def lines (cs : List Char) : List (List Char) := splitOn (· == '\n') cs

def join (sep : List Char) : List (List Char) → List Char
  | [] => []
  | [piece] => piece
  | piece :: pieces => piece ++ sep ++ join sep pieces

/-- What follows `word` at the front of a text, when it is there. -/
def afterWord? : List Char → List Char → Option (List Char)
  | [], cs => some cs
  | _ :: _, [] => none
  | w :: word, c :: cs => if w = c then afterWord? word cs else none

def hasInfix (word cs : List Char) : Bool :=
  match cs with
  | [] => word.isEmpty
  | _ :: rest => word.isPrefixOf cs || hasInfix word rest

/-- Replaces the occurrences of a non-empty word from the left, the first `skip` characters being
the rest of one that was replaced already. -/
def replaceFrom (word new : List Char) : Nat → List Char → List Char
  | _, [] => []
  | skip + 1, _ :: cs => replaceFrom word new skip cs
  | 0, c :: cs =>
    if word.isPrefixOf (c :: cs) then new ++ replaceFrom word new (word.length - 1) cs
    else c :: replaceFrom word new 0 cs

/-- Every occurrence of `word`, from the left and without overlap, becomes `new`. The empty word
occurs around every character. -/
def replaceAll (word new cs : List Char) : List Char :=
  match word with
  | [] => new ++ cs.flatMap (fun c => c :: new)
  | _ => replaceFrom word new 0 cs

/-- The bytes a character takes in UTF-8. -/
def byteWidth (cs : List Char) : Nat := cs.foldr (fun c n => c.utf8Size + n) 0

end Bindery.Text

namespace Bindery

/-- A string operation given by what it does to the characters. -/
def onChars (f : List Char → List Char) (s : String) : String := String.ofList (f s.toList)

def trimmed (s : String) : String := onChars Text.trim s

def substitute (s word new : String) : String :=
  onChars (Text.replaceAll word.toList new.toList) s

end Bindery
