import Bindery.Heading
import Bindery.Json.Basic

/-!
Text placed before and after every document of a page. A wrap is plain text, or a callback that
may change the headings and the shared data before it answers with another wrap.
-/

namespace Bindery

/-- What a callback sees and may change. -/
structure WrapState where
  headings : List Heading
  /-- The document's HTML. A change of it is not read back. -/
  result : String
  /-- The document's position on the page, from 1. -/
  times : Nat
  maxTimes : Nat
  /-- Data shared by the documents of the page. -/
  data : Json.Fields
  deriving Inhabited

inductive Wrap where
  | nothing
  | text (s : String)
  /-- Changes the state, and answers from what it is then. -/
  | callback (effect : WrapState → WrapState) (answer : WrapState → Wrap)
  deriving Inhabited

namespace Wrap

/-- The text a wrap comes to, and the state its callbacks leave. -/
def resolve : Wrap → WrapState → String × WrapState
  | nothing, s => ("", s)
  | text t, s => (t, s)
  | callback effect answer, s => resolve (answer (effect s)) (effect s)

end Wrap

/-- A document with its wraps. -/
structure Wrapped where
  result : String
  headings : List Heading
  /-- The shared data after the document. -/
  data : Json.Fields

/-- Wraps a document. The data its callbacks leave overrides the shared data field by field, and
the headings they leave are kept when they can be listed. -/
def wrapDocument (intro outro : Wrap) (start : WrapState) : Wrapped :=
  let (before, s) := intro.resolve start
  let (after, s) := outro.resolve s
  { result := before ++ start.result ++ after
    headings := s.headings.filter Heading.isListed
    data := start.data.extend s.data }

end Bindery
