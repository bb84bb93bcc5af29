import Bindery.Rendering.Walk
import Bindery.Html.Reference

/-! What holds of every production holds of a whole document, when it is kept by doing one thing
after the other. The productions may depend on a parameter. -/

namespace Bindery

open Markdown

variable {ι : Type} {m : Type → Type} [Monad m]

/-- What is kept when computations with a parameter are done one after the other. -/
structure Sequential (P : ∀ α : Type, (ι → m α) → Prop) : Prop where
  pure {α : Type} (a : α) : P _ fun _ => Pure.pure a
  bind {α β : Type} {x : ι → m α} {f : ι → α → m β} :
    P _ x → (∀ a, P _ fun i => f i a) → P _ fun i => x i >>= f i

/-- It holds of each production. -/
structure Productions.All (P : ∀ α : Type, (ι → m α) → Prop) (p : ι → Productions m) : Prop where
  heading (level : Nat) (html raw : List Char) : P _ fun i => (p i).heading level html raw
  link (href : List Char) (title : Option (List Char)) (html : List Char) :
    P _ fun i => (p i).link href title html
  image (src : List Char) (title : Option (List Char)) (alt : List Char) :
    P _ fun i => (p i).image src title alt
  html (markup : List Char) : P _ fun i => (p i).html markup

namespace Html.Reference

theorem redirectPieces_all {P : ∀ α : Type, (ι → m α) → Prop} (hP : Sequential P)
    {handle : ι → List Char → m (List Char)} (h : ∀ target, P _ fun i => handle i target)
    (pieces : List Piece) : P _ fun i => redirectPieces (handle i) pieces := by
  induction pieces with
  | nil => exact hP.pure _
  | cons piece rest ih =>
    have hkept : ∀ cs : List Char, P _ fun i => do
        let out ← redirectPieces (handle i) rest
        return cs ++ out := fun cs => hP.bind ih fun _ => hP.pure _
    cases piece with
    | text cs => exact hkept cs
    | value cs =>
      simp only [redirectPieces]
      cases localTarget cs with
      | none => exact hkept cs
      | some target => exact hP.bind (h target) fun _ => hP.bind ih fun _ => hP.pure _

theorem redirect_all {P : ∀ α : Type, (ι → m α) → Prop} (hP : Sequential P)
    {handle : ι → List Char → m (List Char)} (h : ∀ target, P _ fun i => handle i target)
    (html : List Char) : P _ fun i => redirect (handle i) html :=
  redirectPieces_all hP h (scan html)

end Html.Reference

namespace Rendering

variable {P : ∀ α : Type, (ι → m α) → Prop} {p : ι → Productions m}

mutual

theorem node_all (hP : Sequential P) (hp : Productions.All P p) (s : Scene) :
    (n : Node) → P _ fun i => node (p i) s n
  | .root children => nodes_all hP hp s children
  | .text _ | .inlineCode _ | .lineBreak | .code .. | .thematicBreak | .definition .. |
    .tableRow _ | .tableCell _ | .footnoteDefinition .. | .footnoteReference .. | .math .. |
    .inlineMath _ | .yaml _ | .toml _ => hP.pure _
  | .paragraph children => hP.bind (nodes_all hP hp s.inText children) fun _ => hP.pure _
  | .heading depth children => hP.bind (nodes_all hP hp s.inText children) fun html =>
      hP.bind (hp.heading depth html (textOf children)) fun _ => hP.pure _
  | .link url title children => hP.bind (nodes_all hP hp s children) fun html =>
      hp.link url.toList (title.map String.toList) html
  | .linkReference identifier label kind children => by
    refine hP.bind (nodes_all hP hp s children) fun html => ?_
    cases s.destination? identifier with
    | none => exact hP.pure _
    | some d => exact hp.link d.url.toList (d.title.map String.toList) html
  | .image url title alt => hp.image url.toList (title.map String.toList) alt.toList
  | .imageReference identifier label kind alt => by
    simp only [node]
    cases s.destination? identifier with
    | none => exact hP.pure _
    | some d => exact hp.image d.url.toList (d.title.map String.toList) alt.toList
  | .html value => hP.bind (hp.html value.toList) fun _ => hP.pure _
  | .strong children | .emphasis children | .delete children | .blockquote children |
    .listItem _ _ children => hP.bind (nodes_all hP hp s children) fun _ => hP.pure _
  | .list _ _ spread children =>
    hP.bind (nodes_all hP hp (s.inList spread) children) fun _ => hP.pure _
  | .table align children => hP.bind (table_all hP hp s align children) fun _ => hP.pure _

theorem nodes_all (hP : Sequential P) (hp : Productions.All P p) (s : Scene) :
    (ns : List Node) → P _ fun i => nodes (p i) s ns
  | [] => hP.pure _
  | n :: ns => hP.bind (node_all hP hp s n) fun _ => hP.bind (nodes_all hP hp s ns) fun _ => hP.pure _

theorem table_all (hP : Sequential P) (hp : Productions.All P p) (s : Scene)
    (align : List (Option Align)) : (ns : List Node) → P _ fun i => table (p i) s align ns
  | [] => hP.pure _
  | n :: ns => hP.bind (row_all hP hp s align true n) fun _ =>
      hP.bind (rows_all hP hp s align ns) fun _ => hP.pure _

theorem rows_all (hP : Sequential P) (hp : Productions.All P p) (s : Scene)
    (align : List (Option Align)) : (ns : List Node) → P _ fun i => rows (p i) s align ns
  | [] => hP.pure _
  | n :: ns => hP.bind (row_all hP hp s align false n) fun _ =>
      hP.bind (rows_all hP hp s align ns) fun _ => hP.pure _

theorem row_all (hP : Sequential P) (hp : Productions.All P p) (s : Scene)
    (align : List (Option Align)) (head : Bool) : (n : Node) → P _ fun i => row (p i) s align head n
  | .tableRow cs => hP.bind (cells_all hP hp s align head cs) fun _ => hP.pure _
  | .root _ | .paragraph _ | .heading .. | .blockquote _ | .list .. | .listItem .. | .code .. |
    .html _ | .thematicBreak | .definition .. | .table .. | .tableCell _ | .text _ |
    .inlineCode _ | .emphasis _ | .strong _ | .delete _ | .lineBreak | .link .. | .image .. |
    .linkReference .. | .imageReference .. | .footnoteDefinition .. | .footnoteReference .. |
    .math .. | .inlineMath _ | .yaml _ | .toml _ => hP.pure _

theorem cells_all (hP : Sequential P) (hp : Productions.All P p) (s : Scene)
    (align : List (Option Align)) (head : Bool) :
    (ns : List Node) → P _ fun i => cells (p i) s align head ns
  | [] => hP.pure _
  | n :: ns => hP.bind (cell_all hP hp s (align.head?.getD none) head n) fun _ =>
      hP.bind (cells_all hP hp s align.tail head ns) fun _ => hP.pure _

theorem cell_all (hP : Sequential P) (hp : Productions.All P p) (s : Scene)
    (align : Option Align) (head : Bool) : (n : Node) → P _ fun i => cell (p i) s align head n
  | .tableCell cs => hP.bind (nodes_all hP hp s.inText cs) fun _ => hP.pure _
  | .root _ | .paragraph _ | .heading .. | .blockquote _ | .list .. | .listItem .. | .code .. |
    .html _ | .thematicBreak | .definition .. | .table .. | .tableRow _ | .text _ |
    .inlineCode _ | .emphasis _ | .strong _ | .delete _ | .lineBreak | .link .. | .image .. |
    .linkReference .. | .imageReference .. | .footnoteDefinition .. | .footnoteReference .. |
    .math .. | .inlineMath _ | .yaml _ | .toml _ => hP.pure _

end

theorem document_all (hP : Sequential P) (hp : Productions.All P p) (options : Markdown.Options)
    (tree : List Node) : P _ fun i => document (p i) options tree :=
  hP.bind (nodes_all hP hp _ tree) fun _ => hP.pure _

end Rendering
end Bindery
