import Bindery.Json.Basic

/-!
Compact text of structured data. A float keeps a decimal point or an exponent, so that it reads
back as a float.
-/

namespace Bindery.Json

def hexDigit (n : Nat) : Char :=
  if n < 10 then Char.ofNat (48 + n) else Char.ofNat (87 + n)

def escapeChar (c : Char) : List Char :=
  match c with
  | '\x22' => "\\\"".toList
  | '\\' => "\\\\".toList
  | '\n' => "\\n".toList
  | '\r' => "\\r".toList
  | '\t' => "\\t".toList
  | '\x08' => "\\b".toList
  | '\x0c' => "\\f".toList
  | c =>
    if c.toNat < 0x20 then
      "\\u00".toList ++ [hexDigit (c.toNat / 16), hexDigit (c.toNat % 16)]
    else [c]

def quote (s : String) : String :=
  "\"" ++ String.ofList (s.toList.flatMap escapeChar) ++ "\""

/-- Positional from a ten-thousandth below one to sixteen digits before the point, with an
exponent elsewhere. -/
def floatText (x : Float) : String :=
  let sign := if Decimal.isNegative x then "-" else ""
  if Decimal.isZero x then sign ++ "0.0"
  else
    let d := Decimal.shortest x
    let ds := (toString d.digits).toList
    let point : Int := ds.length + d.exponent
    let zeros (n : Nat) := List.replicate n '0'
    let body :=
      if 0 ≤ d.exponent && point ≤ 16 then ds ++ zeros d.exponent.toNat ++ ".0".toList
      else if 0 < point && point ≤ 16 then ds.take point.toNat ++ '.' :: ds.drop point.toNat
      else if -5 < point && point ≤ 0 then "0.".toList ++ zeros (-point).toNat ++ ds
      else
        ds.take 1 ++ (if ds.length > 1 then '.' :: ds.drop 1 else []) ++
          'e' :: (toString (point - 1)).toList
    sign ++ String.ofList body

def numberText : Number → String
  | .int i => toString i
  | .float x => if x.isFinite then floatText x else "null"

mutual

def compress : Json → String
  | .null => "null"
  | .bool b => if b then "true" else "false"
  | .num n => numberText n
  | .str s => quote s
  | .arr items => "[" ++ ",".intercalate (compressItems items) ++ "]"
  | .obj fields => "\x7b" ++ ",".intercalate (compressFields fields) ++ "\x7d"

def compressItems : List Json → List String
  | [] => []
  | v :: vs => compress v :: compressItems vs

def compressFields : List (String × Json) → List String
  | [] => []
  | (name, v) :: fs => (quote name ++ ":" ++ compress v) :: compressFields fs

end

end Bindery.Json
