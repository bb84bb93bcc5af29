import Bindery.Rendering.Walk

/-!
Rendering onto a draft. The walk over a tree puts texts together; here the same document is written
from front to back into one buffer, and the scopes that the writer is in are kept on a stack.
-/

namespace Bindery.Rendering

open Markdown

inductive Scope where
  | root
  | phrasing
  | list (spread : Bool)
  deriving Repr, DecidableEq

def Scope.isList : Scope → Bool
  | list _ => true
  | _ => false

/-- The scene inside of scopes, the innermost first. Of the lists around it the nearest counts. -/
def Scene.inside (options : Markdown.Options) (defined : List (List Char × Destination))
    (scopes : List Scope) : Scene where
  options := options
  defined := defined
  tight := scopes.find? Scope.isList == some (.list false)
  phrasing := scopes.contains .phrasing

/-- A document in the writing, with the scopes around what comes next. -/
structure Draft where
  options : Markdown.Options
  defined : List (List Char × Destination)
  scopes : List Scope
  html : List Char

namespace Draft

def blank (options : Markdown.Options) (defined : List (List Char × Destination)) : Draft :=
  ⟨options, defined, [.root], []⟩

def scene (d : Draft) : Scene := .inside d.options d.defined d.scopes

def push (d : Draft) (cs : List Char) : Draft := { d with html := d.html ++ cs }

def rewritten (d : Draft) (cs : List Char) : Draft := { d with html := cs }

def enter (d : Draft) (scope : Scope) : Draft := { d with scopes := scope :: d.scopes }

def exit (d : Draft) : Draft := { d with scopes := d.scopes.tail }

/-- Takes back a line end, for the end of an item to stay on the line of its content. -/
def joinLine (d : Draft) : Draft :=
  if endsLine d.html && d.scene.tight then d.rewritten d.html.dropLast else d

end Draft

/-- Writing on a draft. After an error the draft is what it was when the error came up. -/
abbrev Writing (ε : Type) (m : Type → Type) := ExceptT ε (StateT Draft m)

namespace Writing

variable {ε α : Type} {m : Type → Type} [Monad m]

def scene : Writing ε m Scene := return (← get).scene

def push (cs : List Char) : Writing ε m Unit := modify (·.push cs)

/-- Productions do not see the draft. -/
def produce (x : ExceptT ε m α) : Writing ε m α := ExceptT.mk (StateT.lift x.run)

/-- Writes in a scope, and leaves it in any case. -/
def within (scope : Scope) (act : Writing ε m α) : Writing ε m α := ExceptT.mk do
  modify (·.enter scope)
  let result ← act.run
  modify Draft.exit
  return result

/-- Writes onto nothing, and gives what was written in place of keeping it. -/
def capture (act : Writing ε m Unit) : Writing ε m (List Char) := ExceptT.mk do
  let before := (← get).html
  modify (·.rewritten [])
  let result ← act.run
  let captured := (← get).html
  -- Also after an error, so that a half of a heading or of a link is never on the draft.
  modify (·.rewritten before)
  return result.map fun _ => captured

def pushFor (html : Markdown.Options → List Char) : Writing ε m Unit := do
  push (html (← scene).options)

def pushElement (name : String) (act : Writing ε m Unit) : Writing ε m Unit := do
  push ("<" ++ name ++ ">").toList
  act
  push ("</" ++ name ++ ">").toList

/-- Text in lines, with a break between them. -/
def pushLines : List (List Char) → Writing ε m Unit
  | [] => pure ()
  | [line] => push (Html.escapeText line)
  | line :: lines => do
    push (Html.escapeText line)
    pushFor breakTag
    push ['\n']
    pushLines lines

def pushText (value : List Char) : Writing ε m Unit := do
  if (← scene).options.breaks then pushLines (Text.lines value) else push (Html.escapeText value)

def pushClass : Option String → Writing ε m Unit
  | some lang => do
    push " class=\"".toList
    pushFor fun options => Html.escapeAttr (options.langPrefix ++ lang).toList
    push "\"".toList
  | none => pure ()

def pushCode (value : String) (lang : Option String) : Writing ε m Unit := do
  push "<pre><code".toList
  pushClass lang
  push ['>']
  push (Html.escapeText value.toList)
  push (if value.isEmpty then [] else ['\n'])
  push "</code></pre>\n".toList

/-- What comes of writing on a draft, with the draft where it succeeds. -/
def outcome (act : Writing ε m α) (d : Draft) : ExceptT ε m (α × Draft) := ExceptT.mk do
  let (result, d) ← act.run.run d
  return result.map fun a => (a, d)

/-- The HTML on the draft in the end. -/
def written (act : Writing ε m Unit) (d : Draft) : ExceptT ε m (List Char) := do
  return (← act.outcome d).2.html

end Writing

open Writing

variable {ε : Type} {m : Type → Type} [Monad m]

mutual

def writeNode (p : Productions (ExceptT ε m)) : Node → Writing ε m Unit
  | .root children => writeNodes p children
  | .text value => pushText value.toList
  | .paragraph children => do
    let tight := (← scene).tight
    push (if tight then [] else "<p>".toList)
    within .phrasing (writeNodes p children)
    push (if tight then [] else "</p>\n".toList)
  | .heading depth children => do
    let html ← capture (within .phrasing (writeNodes p children))
    push (← produce (p.heading depth html (textOf children)))
    push ['\n']
  | .link url title children => do
    let html ← capture (writeNodes p children)
    push (← produce (p.link url.toList (title.map String.toList) html))
  | .linkReference identifier _ _ children => do
    match (← scene).destination? identifier with
    | some d =>
      let html ← capture (writeNodes p children)
      push (← produce (p.link d.url.toList (d.title.map String.toList) html))
    | none => writeNodes p children
  | .image url title alt => do
    push (← produce (p.image url.toList (title.map String.toList) alt.toList))
  | .imageReference identifier _ _ alt => do
    match (← scene).destination? identifier with
    | some d => push (← produce (p.image d.url.toList (d.title.map String.toList) alt.toList))
    | none => push (Html.escapeText alt.toList)
  | .html value => do
    let html ← produce (p.html value.toList)
    push html
    push (if (← scene).phrasing || endsLine html then [] else ['\n'])
  | .strong children => pushElement "strong" (writeNodes p children)
  | .emphasis children => pushElement "em" (writeNodes p children)
  | .delete children => pushElement "del" (writeNodes p children)
  | .inlineCode value => pushElement "code" (push (Html.escapeText value.toList))
  | .lineBreak => do
    pushFor breakTag
    push ['\n']
  | .list ordered start spread children => do
    push (listOpening ordered start)
    -- Not by `within`: an error in the items leaves the draft in the scope of the list.
    modify (·.enter (.list spread))
    writeNodes p children
    modify Draft.exit
    push (listClosing ordered)
  | .listItem _ checked children => do
    push "<li>".toList
    pushFor (checkbox · checked)
    writeNodes p children
    modify Draft.joinLine
    push "</li>\n".toList
  | .code value lang _ => pushCode value lang
  | .blockquote children => do
    push "<blockquote>\n".toList
    writeNodes p children
    push "</blockquote>\n".toList
  | .thematicBreak => pushFor fun options => (if options.xhtml then "<hr />\n" else "<hr>\n").toList
  | .table align children => do
    push "<table>\n<thead>\n".toList
    writeTable p align children
    push "</table>\n".toList
  | _ => pure ()

def writeNodes (p : Productions (ExceptT ε m)) : List Node → Writing ε m Unit
  | [] => pure ()
  | n :: ns => do
    writeNode p n
    writeNodes p ns

def writeTable (p : Productions (ExceptT ε m)) (align : List (Option Align)) :
    List Node → Writing ε m Unit
  | [] => push "</thead>\n".toList
  | first :: rest => do
    writeRow p align true first
    push "</thead>\n".toList
    unless rest.isEmpty do
      push "<tbody>\n".toList
      writeRows p align rest
      push "</tbody>\n".toList

def writeRows (p : Productions (ExceptT ε m)) (align : List (Option Align)) :
    List Node → Writing ε m Unit
  | [] => pure ()
  | n :: ns => do
    writeRow p align false n
    writeRows p align ns

def writeRow (p : Productions (ExceptT ε m)) (align : List (Option Align)) (head : Bool) :
    Node → Writing ε m Unit
  | .tableRow cs => do
    push "<tr>".toList
    writeCells p align head cs
    push "</tr>\n".toList
  | _ => pure ()

def writeCells (p : Productions (ExceptT ε m)) (align : List (Option Align)) (head : Bool) :
    List Node → Writing ε m Unit
  | [] => pure ()
  | n :: ns => do
    writeCell p (align.head?.getD none) head n
    writeCells p align.tail head ns

def writeCell (p : Productions (ExceptT ε m)) (align : Option Align) (head : Bool) :
    Node → Writing ε m Unit
  | .tableCell cs => do
    let name := if head then ['t', 'h'] else ['t', 'd']
    push ('<' :: name ++ alignText align ++ ['>'])
    within .phrasing (writeNodes p cs)
    push ('<' :: '/' :: name ++ ['>'])
  | _ => pure ()

end

/-- Writes a document from its first node to its last, with the definitions of all of them. -/
def writeDocument (p : Productions (ExceptT ε m)) (options : Markdown.Options) (tree : List Node) :
    ExceptT ε m (List Char) := do
  let html ← (writeNodes p tree).written (.blank options (allDestinations tree))
  return if options.smartypants then Html.Typography.educateMarkup html else html

end Bindery.Rendering
