import Bindery.Html.Reference
import Bindery.Rendering.Walk

/-! Two documents that differ only in the destinations named in them are walked in the same way: what
holds of each pair of productions holds of the two walks. -/

namespace Bindery

open Markdown

namespace Markdown.Node

mutual

/-- A node with other destinations. -/
def relink (f : String → String) : Node → Node
  | .link url title cs => .link (f url) title (relinkAll f cs)
  | .image url title alt => .image (f url) title alt
  | .definition identifier label url title => .definition identifier label (f url) title
  | .root cs => .root (relinkAll f cs)
  | .paragraph cs => .paragraph (relinkAll f cs)
  | .heading depth cs => .heading depth (relinkAll f cs)
  | .blockquote cs => .blockquote (relinkAll f cs)
  | .list ordered start spread cs => .list ordered start spread (relinkAll f cs)
  | .listItem spread checked cs => .listItem spread checked (relinkAll f cs)
  | .table align cs => .table align (relinkAll f cs)
  | .tableRow cs => .tableRow (relinkAll f cs)
  | .tableCell cs => .tableCell (relinkAll f cs)
  | .emphasis cs => .emphasis (relinkAll f cs)
  | .strong cs => .strong (relinkAll f cs)
  | .delete cs => .delete (relinkAll f cs)
  | .linkReference identifier label kind cs => .linkReference identifier label kind (relinkAll f cs)
  | .footnoteDefinition identifier label cs => .footnoteDefinition identifier label (relinkAll f cs)
  | n => n

def relinkAll (f : String → String) : List Node → List Node
  | [] => []
  | n :: ns => relink f n :: relinkAll f ns

end

mutual

theorem relink_id : (n : Node) → relink id n = n
  | .root cs | .paragraph cs | .heading _ cs | .blockquote cs | .list _ _ _ cs | .listItem _ _ cs |
    .table _ cs | .tableRow cs | .tableCell cs | .emphasis cs | .strong cs | .delete cs |
    .link _ _ cs | .linkReference _ _ _ cs | .footnoteDefinition _ _ cs => by
      simp [relink, relinkAll_id cs]
  | .text _ | .inlineCode _ | .lineBreak | .image .. | .code .. | .html _ | .thematicBreak |
    .definition .. | .imageReference .. | .footnoteReference .. | .math .. | .inlineMath _ |
    .yaml _ | .toml _ => by simp [relink]

theorem relinkAll_id : (ns : List Node) → relinkAll id ns = ns
  | [] => rfl
  | n :: ns => by simp [relinkAll, relink_id n, relinkAll_id ns]

end

end Markdown.Node

open Node (relink relinkAll)

variable {m m' : Type → Type} [Monad m] [Monad m']

/-- A relation between computations that does not look at the values they give. -/
structure Relating (R : ∀ α β : Type, m α → m' β → Prop) : Prop where
  pure {α β : Type} (a : α) (b : β) : R _ _ (Pure.pure a) (Pure.pure b)
  bind {α β α' β' : Type} {x : m α} {y : m' β} {h : α → m α'} {k : β → m' β'} :
    R _ _ x y → (∀ a b, R _ _ (h a) (k b)) → R _ _ (x >>= h) (y >>= k)

/-- Each production is related to the other one, at the two destinations. -/
structure Productions.Related (R : ∀ α β : Type, m α → m' β → Prop) (f g : String → String)
    (p : Productions m) (p' : Productions m') : Prop where
  heading (level : Nat) (html html' raw : List Char) :
    R _ _ (p.heading level html raw) (p'.heading level html' raw)
  link (url : String) (title : Option (List Char)) (html html' : List Char) :
    R _ _ (p.link (f url).toList title html) (p'.link (g url).toList title html')
  image (url : String) (title : Option (List Char)) (alt : List Char) :
    R _ _ (p.image (f url).toList title alt) (p'.image (g url).toList title alt)
  html (markup : List Char) : R _ _ (p.html markup) (p'.html markup)

namespace Rendering

variable {f g : String → String}

def Destination.relink (f : String → String) (d : Destination) : Destination := { d with url := f d.url }

mutual

theorem plainText_relink : (n : Node) → plainText (relink f n) = plainText n
  | .root cs | .paragraph cs | .heading _ cs | .blockquote cs | .list _ _ _ cs | .listItem _ _ cs |
    .table _ cs | .tableRow cs | .tableCell cs | .emphasis cs | .strong cs | .delete cs |
    .link _ _ cs | .linkReference _ _ _ cs | .footnoteDefinition _ _ cs => by
      simp [relink, plainText, plainTexts_relinkAll cs]
  | .text _ | .inlineCode _ | .lineBreak | .image .. | .code .. | .html _ | .thematicBreak |
    .definition .. | .imageReference .. | .footnoteReference .. | .math .. | .inlineMath _ |
    .yaml _ | .toml _ => by simp [relink, plainText]

theorem plainTexts_relinkAll : (ns : List Node) → plainTexts (relinkAll f ns) = plainTexts ns
  | [] => rfl
  | n :: ns => by simp [relinkAll, plainTexts, plainText_relink n, plainTexts_relinkAll ns]

end

theorem textOf_relinkAll (ns : List Node) : textOf (relinkAll f ns) = textOf ns :=
  congrArg Text.trim (plainTexts_relinkAll ns)

/-- The definitions of a document with other destinations. -/
def redefined (f : String → String) (defined : List (List Char × Destination)) :
    List (List Char × Destination) :=
  defined.map fun x => (x.1, x.2.relink f)

mutual

theorem destinations_relink : (n : Node) → destinations (relink f n) = redefined f (destinations n)
  | .root cs | .paragraph cs | .heading _ cs | .blockquote cs | .list _ _ _ cs | .listItem _ _ cs |
    .table _ cs | .tableRow cs | .tableCell cs | .emphasis cs | .strong cs | .delete cs |
    .link _ _ cs | .linkReference _ _ _ cs | .footnoteDefinition _ _ cs => by
      simp [relink, destinations, allDestinations_relinkAll cs]
  | .text _ | .inlineCode _ | .lineBreak | .image .. | .code .. | .html _ | .thematicBreak |
    .definition .. | .imageReference .. | .footnoteReference .. | .math .. | .inlineMath _ |
    .yaml _ | .toml _ => by simp [relink, destinations, redefined, Destination.relink]

theorem allDestinations_relinkAll : (ns : List Node) →
    allDestinations (relinkAll f ns) = redefined f (allDestinations ns)
  | [] => rfl
  | n :: ns => by
    simp [relinkAll, allDestinations, destinations_relink n, allDestinations_relinkAll ns, redefined]

end

theorem lookup_redefined (key : List Char) (defined : List (List Char × Destination)) :
    (redefined f defined).lookup key = (defined.lookup key).map (·.relink f) := by
  induction defined with
  | nil => rfl
  | cons x defined ih =>
    have hcons : redefined f (x :: defined) = (x.1, x.2.relink f) :: redefined f defined := rfl
    rw [hcons, List.lookup_cons, List.lookup_cons, ih]
    cases key == x.1 <;> rfl

/-- Two scenes with the same definitions, but for the destinations. -/
structure Scene.Related (f g : String → String) (defined : List (List Char × Destination))
    (s s' : Scene) : Prop where
  left : s.defined = redefined f defined
  right : s'.defined = redefined g defined

section

variable {R : ∀ α β : Type, m α → m' β → Prop} {p : Productions m} {p' : Productions m'}
  {defined : List (List Char × Destination)}

/-- A reference is related to the other one, or is one to nothing in both. -/
theorem Scene.Related.destination? {s s' : Scene} (hs : s.Related f g defined s') (identifier : String) :
    s.destination? identifier = ((defined.lookup (foldIdentifier identifier)).map (·.relink f)) ∧
      s'.destination? identifier = ((defined.lookup (foldIdentifier identifier)).map (·.relink g)) := by
  unfold Scene.destination?
  rw [hs.left, hs.right, lookup_redefined, lookup_redefined]
  exact ⟨rfl, rfl⟩

mutual

theorem node_related (hR : Relating R) (hp : Productions.Related R f g p p') (s s' : Scene)
    (hs : s.Related f g defined s') :
    (n : Node) → R _ _ (node p s (relink f n)) (node p' s' (relink g n))
  | .text _ | .inlineCode _ | .lineBreak | .code .. | .thematicBreak | .definition .. |
    .footnoteReference .. | .math .. | .inlineMath _ | .yaml _ | .toml _ | .tableRow _ |
    .tableCell _ | .footnoteDefinition .. => hR.pure _ _
  | .root cs => nodes_related hR hp s s' hs cs
  | .paragraph cs =>
    hR.bind (nodes_related hR hp s.inText s'.inText ⟨hs.left, hs.right⟩ cs) fun _ _ => hR.pure _ _
  | .heading depth cs => by
    refine hR.bind (nodes_related hR hp s.inText s'.inText ⟨hs.left, hs.right⟩ cs) fun html html' => ?_
    rw [textOf_relinkAll, textOf_relinkAll]
    exact hR.bind (hp.heading depth html html' (textOf cs)) fun _ _ => hR.pure _ _
  | .link url title cs =>
    hR.bind (nodes_related hR hp s s' hs cs) fun html html' =>
      hp.link url (title.map String.toList) html html'
  | .linkReference identifier label kind cs => by
    refine hR.bind (nodes_related hR hp s s' hs cs) fun html html' => ?_
    obtain ⟨hleft, hright⟩ := hs.destination? identifier
    rw [hleft, hright]
    cases defined.lookup (foldIdentifier identifier) with
    | none => exact hR.pure _ _
    | some d => exact hp.link d.url (d.title.map String.toList) html html'
  | .image url title alt => hp.image url (title.map String.toList) alt.toList
  | .imageReference identifier label kind alt => by
    obtain ⟨hleft, hright⟩ := hs.destination? identifier
    simp only [relink, node, hleft, hright]
    cases defined.lookup (foldIdentifier identifier) with
    | none => exact hR.pure _ _
    | some d => exact hp.image d.url (d.title.map String.toList) alt.toList
  | .html value => hR.bind (hp.html value.toList) fun _ _ => hR.pure _ _
  | .strong cs | .emphasis cs | .delete cs | .blockquote cs | .listItem _ _ cs =>
    hR.bind (nodes_related hR hp s s' hs cs) fun _ _ => hR.pure _ _
  | .list _ _ spread cs =>
    hR.bind (nodes_related hR hp (s.inList spread) (s'.inList spread) ⟨hs.left, hs.right⟩ cs)
      fun _ _ => hR.pure _ _
  | .table align cs => hR.bind (table_related hR hp s s' hs align cs) fun _ _ => hR.pure _ _

theorem nodes_related (hR : Relating R) (hp : Productions.Related R f g p p') (s s' : Scene)
    (hs : s.Related f g defined s') :
    (ns : List Node) → R _ _ (nodes p s (relinkAll f ns)) (nodes p' s' (relinkAll g ns))
  | [] => hR.pure _ _
  | n :: ns => hR.bind (node_related hR hp s s' hs n) fun _ _ =>
      hR.bind (nodes_related hR hp s s' hs ns) fun _ _ => hR.pure _ _

theorem table_related (hR : Relating R) (hp : Productions.Related R f g p p') (s s' : Scene)
    (hs : s.Related f g defined s') (align : List (Option Align)) : (ns : List Node) →
      R _ _ (table p s align (relinkAll f ns)) (table p' s' align (relinkAll g ns))
  | [] => hR.pure _ _
  | n :: ns => hR.bind (row_related hR hp s s' hs align true n) fun _ _ =>
      hR.bind (rows_related hR hp s s' hs align ns) fun _ _ => hR.pure _ _

theorem rows_related (hR : Relating R) (hp : Productions.Related R f g p p') (s s' : Scene)
    (hs : s.Related f g defined s') (align : List (Option Align)) : (ns : List Node) →
      R _ _ (rows p s align (relinkAll f ns)) (rows p' s' align (relinkAll g ns))
  | [] => hR.pure _ _
  | n :: ns => hR.bind (row_related hR hp s s' hs align false n) fun _ _ =>
      hR.bind (rows_related hR hp s s' hs align ns) fun _ _ => hR.pure _ _

theorem row_related (hR : Relating R) (hp : Productions.Related R f g p p') (s s' : Scene)
    (hs : s.Related f g defined s') (align : List (Option Align)) (head : Bool) : (n : Node) →
      R _ _ (row p s align head (relink f n)) (row p' s' align head (relink g n))
  | .tableRow cs => hR.bind (cells_related hR hp s s' hs align head cs) fun _ _ => hR.pure _ _
  | .root _ | .paragraph _ | .heading .. | .blockquote _ | .list .. | .listItem .. | .code .. |
    .html _ | .thematicBreak | .definition .. | .table .. | .tableCell _ | .text _ |
    .inlineCode _ | .emphasis _ | .strong _ | .delete _ | .lineBreak | .link .. | .image .. |
    .linkReference .. | .imageReference .. | .footnoteDefinition .. | .footnoteReference .. |
    .math .. | .inlineMath _ | .yaml _ | .toml _ => hR.pure _ _

theorem cells_related (hR : Relating R) (hp : Productions.Related R f g p p') (s s' : Scene)
    (hs : s.Related f g defined s') (align : List (Option Align)) (head : Bool) : (ns : List Node) →
      R _ _ (cells p s align head (relinkAll f ns)) (cells p' s' align head (relinkAll g ns))
  | [] => hR.pure _ _
  | n :: ns => hR.bind (cell_related hR hp s s' hs (align.head?.getD none) head n) fun _ _ =>
      hR.bind (cells_related hR hp s s' hs align.tail head ns) fun _ _ => hR.pure _ _

theorem cell_related (hR : Relating R) (hp : Productions.Related R f g p p') (s s' : Scene)
    (hs : s.Related f g defined s') (align : Option Align) (head : Bool) : (n : Node) →
      R _ _ (cell p s align head (relink f n)) (cell p' s' align head (relink g n))
  | .tableCell cs =>
    hR.bind (nodes_related hR hp s.inText s'.inText ⟨hs.left, hs.right⟩ cs) fun _ _ => hR.pure _ _
  | .root _ | .paragraph _ | .heading .. | .blockquote _ | .list .. | .listItem .. | .code .. |
    .html _ | .thematicBreak | .definition .. | .table .. | .tableRow _ | .text _ |
    .inlineCode _ | .emphasis _ | .strong _ | .delete _ | .lineBreak | .link .. | .image .. |
    .linkReference .. | .imageReference .. | .footnoteDefinition .. | .footnoteReference .. |
    .math .. | .inlineMath _ | .yaml _ | .toml _ => hR.pure _ _

end

theorem document_related (hR : Relating R) (hp : Productions.Related R f g p p')
    (options options' : Markdown.Options) (tree : List Node) :
    R _ _ (document p options (relinkAll f tree)) (document p' options' (relinkAll g tree)) := by
  unfold document
  rw [allDestinations_relinkAll, allDestinations_relinkAll]
  have hwalk := nodes_related hR hp ⟨options, redefined f (allDestinations tree), false, false⟩
    ⟨options', redefined g (allDestinations tree), false, false⟩ ⟨rfl, rfl⟩ tree
  exact hR.bind hwalk fun _ _ => hR.pure _ _

end

end Rendering
end Bindery
