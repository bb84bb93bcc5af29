/-!
Writing text and attribute values in HTML.
-/

namespace Bindery.Html

def escapeTextChar : Char → List Char
  | '&' => "&amp;".toList
  | '<' => "&lt;".toList
  | '>' => "&gt;".toList
  | c => [c]

def escapeAttrChar : Char → List Char
  | '\x22' => "&quot;".toList
  | c => escapeTextChar c

def escapeText (cs : List Char) : List Char := cs.flatMap escapeTextChar

/-- A value to stand between double quotes. -/
def escapeAttr (cs : List Char) : List Char := cs.flatMap escapeAttrChar

end Bindery.Html
