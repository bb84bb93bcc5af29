/-!
Text between double quotes in one line: quotes, backslashes, line ends and characters that do not
print are written as escapes.
-/

namespace Bindery.Text

/-- Controls, joiners, marks of direction and combining marks. -/
def isInvisible (c : Char) : Bool :=
  let n := c.toNat
  n < 0x20 || (0x7F ≤ n && n ≤ 0x9F) || n == 0xAD || (0x300 ≤ n && n ≤ 0x36F) ||
    (0x200B ≤ n && n ≤ 0x200F) || (0x2028 ≤ n && n ≤ 0x202E) || (0x2060 ≤ n && n ≤ 0x206F) ||
    (0xE000 ≤ n && n ≤ 0xF8FF) || n == 0xFEFF || (0xFFF0 ≤ n && n ≤ 0xFFFB)

def quoteChar (c : Char) : List Char :=
  match c with
  | '\x22' => ['\\', '\x22']
  | '\\' => ['\\', '\\']
  | '\n' => ['\\', 'n']
  | '\r' => ['\\', 'r']
  | '\t' => ['\\', 't']
  | '\x00' => ['\\', '0']
  | c =>
    if isInvisible c then "\\u\x7b".toList ++ Nat.toDigits 16 c.toNat ++ ['\x7d'] else [c]

def quoted (s : String) : String :=
  "\"" ++ String.ofList (s.toList.flatMap quoteChar) ++ "\""

end Bindery.Text
