/-!
The tree of a Markdown document, with the text nodes hold and the walk over their children.
-/

namespace Bindery.Markdown

/-- How a table column is aligned, when its delimiter says so. -/
inductive Align where
  | left
  | right
  | center
  deriving Repr, DecidableEq, Inhabited

/-- How a reference names its definition. -/
inductive ReferenceKind where
  | full
  | collapsed
  | shortcut
  deriving Repr, DecidableEq, Inhabited

inductive Node where
  | root (children : List Node)
  | paragraph (children : List Node)
  | heading (depth : Nat) (children : List Node)
  | blockquote (children : List Node)
  | list (ordered : Bool) (start : Option Nat) (spread : Bool) (children : List Node)
  | listItem (spread : Bool) (checked : Option Bool) (children : List Node)
  | code (value : String) (lang : Option String) (info : Option String)
  | html (value : String)
  | thematicBreak
  | definition (identifier : String) (label : Option String) (url : String) (title : Option String)
  | table (align : List (Option Align)) (children : List Node)
  | tableRow (children : List Node)
  | tableCell (children : List Node)
  | text (value : String)
  | inlineCode (value : String)
  | emphasis (children : List Node)
  | strong (children : List Node)
  | delete (children : List Node)
  | lineBreak
  | link (url : String) (title : Option String) (children : List Node)
  | image (url : String) (title : Option String) (alt : String)
  | linkReference (identifier : String) (label : Option String) (kind : ReferenceKind)
      (children : List Node)
  | imageReference (identifier : String) (label : Option String) (kind : ReferenceKind)
      (alt : String)
  | footnoteDefinition (identifier : String) (label : Option String) (children : List Node)
  | footnoteReference (identifier : String) (label : Option String)
  | math (value : String) (info : Option String)
  | inlineMath (value : String)
  | yaml (value : String)
  | toml (value : String)
  deriving Repr, Inhabited

namespace Node

/-- The children of a node that can hold some. -/
def children? : Node → Option (List Node)
  | root cs | paragraph cs | heading _ cs | blockquote cs | list _ _ _ cs | listItem _ _ cs
  | table _ cs | tableRow cs | tableCell cs | emphasis cs | strong cs | delete cs | link _ _ cs
  | linkReference _ _ _ cs | footnoteDefinition _ _ cs => some cs
  | _ => none

mutual

/-- The literal text of a node, as an image shows it in place of its label's markup. -/
def literal : Node → String
  | text v | inlineCode v | html v | code v _ _ | math v _ | inlineMath v | yaml v | toml v => v
  | root cs | paragraph cs | heading _ cs | blockquote cs | list _ _ _ cs | listItem _ _ cs
  | table _ cs | tableRow cs | tableCell cs | emphasis cs | strong cs | delete cs | link _ _ cs
  | linkReference _ _ _ cs | footnoteDefinition _ _ cs => literals cs
  | _ => ""

def literals : List Node → String
  | [] => ""
  | n :: ns => n.literal ++ literals ns

end

end Node
end Bindery.Markdown
