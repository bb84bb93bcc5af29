import Bindery.Digest.Sha1
import Bindery.Text.Basic

/-!
Tokens stand for asset paths in rendered markup until the output tree is known. A token is plain
lowercase text, so escaping and templates leave it as it is.
-/

namespace Bindery

/-- A text that stands for an unresolved path. -/
structure Token where
  text : String
  deriving Repr, DecidableEq, Inhabited

namespace Token

def mark : String := "sitcom-asset-"

def digits : Nat := 16

/-- The token of an origin: the mark and the first digits of the origin's digest. -/
@[irreducible] def ofOrigin (origin : String) : Token :=
  ⟨mark ++ String.ofList ((Sha1.hex origin.toUTF8.toList).take digits)⟩

/-- Replaces every occurrence of the token. -/
def substitute (t : Token) (text new : String) : String := Bindery.substitute text t.text new

end Token
end Bindery
