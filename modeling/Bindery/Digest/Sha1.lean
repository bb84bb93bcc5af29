/-!
The SHA-1 digest of a byte string, as its twenty bytes or as forty hexadecimal digits.
-/

namespace Bindery.Sha1

def rotl (x : UInt32) (k : UInt32) : UInt32 := (x <<< k) ||| (x >>> (32 - k))

/-- The five words carried from block to block. -/
structure State where
  a : UInt32
  b : UInt32
  c : UInt32
  d : UInt32
  e : UInt32
  deriving Repr, DecidableEq

def State.initial : State := ⟨0x67452301, 0xEFCDAB89, 0x98BADCFE, 0x10325476, 0xC3D2E1F0⟩

/-- The message closed by a one bit, zeros up to 56 modulo 64, and its length in bits. -/
def pad (bytes : List UInt8) : List UInt8 :=
  let bits := bytes.length * 8
  let zeros := (119 - bytes.length % 64) % 64
  bytes ++ (0x80 : UInt8) :: List.replicate zeros 0 ++
    ((List.range 8).reverse.map fun i => UInt8.ofNat (bits >>> (8 * i)))

def word (bytes : List UInt8) : UInt32 :=
  bytes.foldl (fun acc b => (acc <<< 8) ||| b.toUInt32) 0

/-- The eighty words of a block's schedule. -/
def schedule (block : List UInt8) : Array UInt32 :=
  let start := ((List.range 16).map fun i => word ((block.drop (4 * i)).take 4)).toArray
  (List.range 64).foldl (fun w k =>
    let back (i : Nat) := w.getD (k + 16 - i) 0
    w.push (rotl (back 3 ^^^ back 8 ^^^ back 14 ^^^ back 16) 1)) start

def round (w : Array UInt32) (s : State) (i : Nat) : State :=
  let (f, k) : UInt32 × UInt32 :=
    if i < 20 then ((s.b &&& s.c) ||| ((~~~ s.b) &&& s.d), 0x5A827999)
    else if i < 40 then (s.b ^^^ s.c ^^^ s.d, 0x6ED9EBA1)
    else if i < 60 then ((s.b &&& s.c) ||| (s.b &&& s.d) ||| (s.c &&& s.d), 0x8F1BBCDC)
    else (s.b ^^^ s.c ^^^ s.d, 0xCA62C1D6)
  ⟨rotl s.a 5 + f + s.e + k + w.getD i 0, s.a, rotl s.b 30, s.c, s.d⟩

def compress (s : State) (block : List UInt8) : State :=
  let w := schedule block
  let t := (List.range 80).foldl (round w) s
  ⟨s.a + t.a, s.b + t.b, s.c + t.c, s.d + t.d, s.e + t.e⟩

def digestWords (bytes : List UInt8) : State :=
  let message := pad bytes
  (List.range (message.length / 64)).foldl
    (fun s i => compress s ((message.drop (64 * i)).take 64)) State.initial

def hexDigit (n : Nat) : Char :=
  if n < 10 then Char.ofNat (48 + n) else Char.ofNat (87 + n)

def hexWord (x : UInt32) : List Char :=
  (List.range 8).reverse.map fun i => hexDigit ((x.toNat >>> (4 * i)) % 16)

/-- The digest in lowercase hexadecimal digits. -/
def hex (bytes : List UInt8) : List Char :=
  let s := digestWords bytes
  [s.a, s.b, s.c, s.d, s.e].flatMap hexWord

end Bindery.Sha1
