import Bindery.Proofs.Rendering.Related

/-! The headings and references that rendering a document finishes, in order: what stands in a link
or a heading before the link or the heading itself, and nothing that stands where rendering does not
go. Two walks over a document and its relinked copy give the same HTML when their productions do, and
what holds of each production holds of the walk, with the things finished in it. -/

namespace Bindery

open Markdown
open Markdown.Node (relink relinkAll)

namespace Markdown.Node

mutual

/-- All nodes below a node. -/
def inside : Node → List Node
  | .root cs | .paragraph cs | .heading _ cs | .blockquote cs | .list _ _ _ cs | .listItem _ _ cs
  | .table _ cs | .tableRow cs | .tableCell cs | .emphasis cs | .strong cs | .delete cs
  | .link _ _ cs | .linkReference _ _ _ cs | .footnoteDefinition _ _ cs => within cs
  | _ => []

/-- All nodes of a tree. -/
def within : List Node → List Node
  | [] => []
  | n :: ns => n :: inside n ++ within ns

end

theorem forall_within {P : Node → Prop} {n : Node} {ns : List Node}
    (h : ∀ m ∈ within (n :: ns), P m) :
    P n ∧ (∀ m ∈ inside n, P m) ∧ ∀ m ∈ within ns, P m := by
  simp only [within, List.cons_append, List.forall_mem_cons, List.forall_mem_append] at h
  exact h

end Markdown.Node

open Markdown.Node (inside within forall_within)

namespace Rendering

/-- What rendering leaves to productions, raw HTML apart. -/
inductive Finished where
  | heading (level : Nat) (children : List Node)
  | reference (url : String)

/-- What a reference by identifier finishes: one to nothing is text. -/
def referenced (defined : List (List Char × Destination)) (identifier : String) : List Finished :=
  ((defined.lookup (foldIdentifier identifier)).map fun d => .reference d.url).toList

section

variable (defined : List (List Char × Destination))

mutual

def finished : Node → List Finished
  | .root cs | .paragraph cs | .strong cs | .emphasis cs | .delete cs | .blockquote cs
  | .list _ _ _ cs | .listItem _ _ cs => finishedAll cs
  | .heading level cs => finishedAll cs ++ [.heading level cs]
  | .link url _ cs => finishedAll cs ++ [.reference url]
  | .linkReference identifier _ _ cs => finishedAll cs ++ referenced defined identifier
  | .image url _ _ => [.reference url]
  | .imageReference identifier _ _ _ => referenced defined identifier
  | .table _ rows => finishedRows rows
  | _ => []

def finishedAll : List Node → List Finished
  | [] => []
  | n :: ns => finished n ++ finishedAll ns

/-- A table shows its rows and nothing else. -/
def finishedRows : List Node → List Finished
  | [] => []
  | n :: ns => finishedRow n ++ finishedRows ns

def finishedRow : Node → List Finished
  | .tableRow cells => finishedCells cells
  | _ => []

def finishedCells : List Node → List Finished
  | [] => []
  | n :: ns => finishedCell n ++ finishedCells ns

def finishedCell : Node → List Finished
  | .tableCell cs => finishedAll cs
  | _ => []

end

end

/-- What rendering a document finishes. -/
def finishedIn (tree : List Node) : List Finished := finishedAll (allDestinations tree) tree

/-- No raw HTML, and only titles with `T` and headings with `H`. -/
def Suits (T : String → Prop) (H : List Char → Prop) : Node → Prop
  | .html _ => False
  | .link _ title _ | .image _ title _ | .definition _ _ _ title => ∀ t ∈ title, T t
  | .heading _ cs => H (textOf cs)
  | _ => True

variable {m m' : Type → Type} [Monad m] [Monad m']

/-- A relation between computations that give the same, where some things are finished. -/
structure Simulating (R : ∀ α : Type, List Finished → m α → m' α → Prop) : Prop where
  pure {α : Type} (a : α) : R _ [] (Pure.pure a) (Pure.pure a)
  bind {α β : Type} {fs gs : List Finished} {x : m α} {y : m' α} {h : α → m β} {k : α → m' β} :
    R _ fs x y → (∀ a, R _ gs (h a) (k a)) → R _ (fs ++ gs) (x >>= h) (y >>= k)

/-- Each production finishes its own and gives what the other one gives, at the two destinations. -/
structure Simulated (R : ∀ α : Type, List Finished → m α → m' α → Prop) (f : String → String)
    (T : String → Prop) (H : List Char → Prop) (p : Productions m) (p' : Productions m') :
    Prop where
  heading (level : Nat) (html : List Char) (cs : List Node) (hcs : H (textOf cs)) :
    R _ [.heading level cs] (p.heading level html (textOf cs)) (p'.heading level html (textOf cs))
  link (url : String) (title : Option String) (html : List Char) (htitle : ∀ t ∈ title, T t) :
    R _ [.reference url] (p.link url.toList (title.map String.toList) html)
      (p'.link (f url).toList (title.map String.toList) html)
  image (url : String) (title : Option String) (alt : List Char) (htitle : ∀ t ∈ title, T t) :
    R _ [.reference url] (p.image url.toList (title.map String.toList) alt)
      (p'.image (f url).toList (title.map String.toList) alt)

def Scene.relinked (f : String → String) (s : Scene) : Scene :=
  { s with defined := redefined f s.defined }

theorem Scene.destination?_relinked (f : String → String) (s : Scene) (identifier : String) :
    (s.relinked f).destination? identifier = (s.destination? identifier).map (·.relink f) :=
  lookup_redefined (foldIdentifier identifier) s.defined

theorem Scene.referenced_eq (s : Scene) (identifier : String) : referenced s.defined identifier =
    ((s.destination? identifier).map fun d => Finished.reference d.url).toList := rfl

/-- Every title of a definition has `T`. -/
def Scene.Titled (s : Scene) (T : String → Prop) : Prop := ∀ x ∈ s.defined, ∀ t ∈ x.2.title, T t

theorem Scene.Titled.title {s : Scene} {T : String → Prop} (hs : s.Titled T) {identifier : String}
    {d : Destination} (hd : s.destination? identifier = some d) : ∀ t ∈ d.title, T t := by
  obtain ⟨before, after, heq, -⟩ := List.lookup_eq_some_iff.1 hd
  exact hs (foldIdentifier identifier, d) (heq ▸ by simp)

mutual

/-- A definition stands somewhere in the tree. -/
theorem mem_destinations {x : List Char × Destination} : (n : Node) → x ∈ destinations n →
    ∃ identifier label, .definition identifier label x.2.url x.2.title ∈ n :: inside n
  | .definition identifier label url title, h => by
    obtain rfl := List.mem_singleton.1 h
    exact ⟨identifier, label, List.mem_cons_self⟩
  | .root cs, h | .paragraph cs, h | .heading _ cs, h | .blockquote cs, h | .list _ _ _ cs, h |
    .listItem _ _ cs, h | .table _ cs, h | .tableRow cs, h | .tableCell cs, h | .emphasis cs, h |
    .strong cs, h | .delete cs, h | .link _ _ cs, h | .linkReference _ _ _ cs, h |
    .footnoteDefinition _ _ cs, h =>
    have ⟨identifier, label, hmem⟩ := mem_allDestinations cs h
    ⟨identifier, label, List.mem_cons_of_mem _ hmem⟩
  | .text _, h | .inlineCode _, h | .lineBreak, h | .image .., h | .code .., h | .html _, h |
    .thematicBreak, h | .imageReference .., h | .footnoteReference .., h | .math .., h |
    .inlineMath _, h | .yaml _, h | .toml _, h => absurd h List.not_mem_nil

theorem mem_allDestinations {x : List Char × Destination} :
    (ns : List Node) → x ∈ allDestinations ns →
      ∃ identifier label, .definition identifier label x.2.url x.2.title ∈ within ns
  | [], h => absurd h List.not_mem_nil
  | n :: ns, h => by
    rcases List.mem_append.1 h with h | h
    · obtain ⟨identifier, label, hmem⟩ := mem_destinations n h
      exact ⟨identifier, label, List.mem_append_left _ hmem⟩
    · obtain ⟨identifier, label, hmem⟩ := mem_allDestinations ns h
      exact ⟨identifier, label, List.mem_append_right _ hmem⟩

end

theorem titled_of_suits {T : String → Prop} {H : List Char → Prop} {tree : List Node}
    (h : ∀ n ∈ within tree, Suits T H n) (options : Markdown.Options) (tight phrasing : Bool) :
    Scene.Titled ⟨options, allDestinations tree, tight, phrasing⟩ T := by
  intro x hx
  obtain ⟨identifier, label, hmem⟩ := mem_allDestinations tree hx
  exact h _ hmem

section

variable {R : ∀ α : Type, List Finished → m α → m' α → Prop} {f : String → String}
  {T : String → Prop} {H : List Char → Prop} {p : Productions m} {p' : Productions m'}

theorem Simulating.map {α β : Type} (hR : Simulating R) {fs : List Finished} {x : m α} {y : m' α}
    (h : R _ fs x y) (g : α → β) :
    R _ fs (x >>= fun a => Pure.pure (g a)) (y >>= fun a => Pure.pure (g a)) := by
  have hbind := hR.bind h fun a => hR.pure (g a)
  rwa [List.append_nil] at hbind

/-- One after the other, as the walk over a list goes. -/
theorem Simulating.append (hR : Simulating R) {fs gs : List Finished} {x y : m (List Char)}
    {x' y' : m' (List Char)} (g : List Char → List Char → List Char) (h : R _ fs x x')
    (h' : R _ gs y y') :
    R _ (fs ++ gs) (x >>= fun a => y >>= fun b => Pure.pure (g a b))
      (x' >>= fun a => y' >>= fun b => Pure.pure (g a b)) :=
  hR.bind h fun a => hR.map h' (g a)

mutual

theorem node_simulated (hR : Simulating R) (hp : Simulated R f T H p p') (s : Scene)
    (hs : s.Titled T) : (n : Node) → Suits T H n →
      (∀ m ∈ inside n, Suits T H m) →
      R _ (finished s.defined n) (node p s n) (node p' (s.relinked f) (relink f n))
  | .text _, _, _ | .inlineCode _, _, _ | .lineBreak, _, _ | .code .., _, _ |
    .thematicBreak, _, _ | .definition .., _, _ | .footnoteReference .., _, _ | .math .., _, _ |
    .inlineMath _, _, _ | .yaml _, _, _ | .toml _, _, _ | .tableRow _, _, _ |
    .tableCell _, _, _ | .footnoteDefinition .., _, _ => hR.pure _
  | .html _, hn, _ => hn.elim
  | .root cs, _, hcs => nodes_simulated hR hp s hs cs hcs
  | .paragraph cs, _, hcs => hR.map (nodes_simulated hR hp s.inText hs cs hcs) _
  | .heading level cs, hn, hcs => by
    refine hR.bind (nodes_simulated hR hp s.inText hs cs hcs) fun html => ?_
    rw [textOf_relinkAll]
    exact hR.map (hp.heading level html cs hn) _
  | .link url title cs, hn, hcs =>
    hR.bind (nodes_simulated hR hp s hs cs hcs) fun html => hp.link url title html hn
  | .linkReference identifier label kind cs, _, hcs => by
    refine hR.bind (nodes_simulated hR hp s hs cs hcs) fun html => ?_
    rw [Scene.destination?_relinked, s.referenced_eq]
    cases hd : s.destination? identifier with
    | none => exact hR.pure _
    | some d => exact hp.link d.url d.title html (hs.title hd)
  | .image url title alt, hn, _ => hp.image url title alt.toList hn
  | .imageReference identifier label kind alt, _, _ => by
    simp only [relink, node, Scene.destination?_relinked, finished, s.referenced_eq]
    cases hd : s.destination? identifier with
    | none => exact hR.pure _
    | some d => exact hp.image d.url d.title alt.toList (hs.title hd)
  | .strong cs, _, hcs | .emphasis cs, _, hcs | .delete cs, _, hcs | .blockquote cs, _, hcs |
    .listItem _ _ cs, _, hcs => hR.map (nodes_simulated hR hp s hs cs hcs) _
  | .list _ _ spread cs, _, hcs => hR.map (nodes_simulated hR hp (s.inList spread) hs cs hcs) _
  | .table align cs, _, hcs => hR.map (table_simulated hR hp s hs align cs hcs) _

theorem nodes_simulated (hR : Simulating R) (hp : Simulated R f T H p p') (s : Scene)
    (hs : s.Titled T) : (ns : List Node) →
      (∀ m ∈ within ns, Suits T H m) →
      R _ (finishedAll s.defined ns) (nodes p s ns) (nodes p' (s.relinked f) (relinkAll f ns))
  | [], _ => hR.pure _
  | n :: ns, h =>
    have ⟨hn, hinside, hns⟩ := forall_within h
    hR.append _ (node_simulated hR hp s hs n hn hinside) (nodes_simulated hR hp s hs ns hns)

theorem table_simulated (hR : Simulating R) (hp : Simulated R f T H p p') (s : Scene)
    (hs : s.Titled T) (align : List (Option Align)) :
    (ns : List Node) → (∀ m ∈ within ns, Suits T H m) →
      R _ (finishedRows s.defined ns) (table p s align ns)
        (table p' (s.relinked f) align (relinkAll f ns))
  | [], _ => hR.pure _
  | n :: ns, h => by
    obtain ⟨-, hinside, hns⟩ := forall_within h
    have hempty : (relinkAll f ns).isEmpty = ns.isEmpty := by cases ns <;> rfl
    simp only [table, relinkAll, hempty]
    exact hR.append _ (row_simulated hR hp s hs align true n hinside)
      (rows_simulated hR hp s hs align ns hns)

theorem rows_simulated (hR : Simulating R) (hp : Simulated R f T H p p') (s : Scene)
    (hs : s.Titled T) (align : List (Option Align)) :
    (ns : List Node) → (∀ m ∈ within ns, Suits T H m) →
      R _ (finishedRows s.defined ns) (rows p s align ns)
        (rows p' (s.relinked f) align (relinkAll f ns))
  | [], _ => hR.pure _
  | n :: ns, h =>
    have ⟨_, hinside, hns⟩ := forall_within h
    hR.append _ (row_simulated hR hp s hs align false n hinside)
      (rows_simulated hR hp s hs align ns hns)

theorem row_simulated (hR : Simulating R) (hp : Simulated R f T H p p') (s : Scene)
    (hs : s.Titled T) (align : List (Option Align)) (head : Bool) :
    (n : Node) → (∀ m ∈ inside n, Suits T H m) →
      R _ (finishedRow s.defined n) (row p s align head n)
        (row p' (s.relinked f) align head (relink f n))
  | .tableRow cs, h => hR.map (cells_simulated hR hp s hs align head cs h) _
  | .root _, _ | .paragraph _, _ | .heading .., _ | .blockquote _, _ | .list .., _ |
    .listItem .., _ | .code .., _ | .html _, _ | .thematicBreak, _ | .definition .., _ |
    .table .., _ | .tableCell _, _ | .text _, _ | .inlineCode _, _ | .emphasis _, _ |
    .strong _, _ | .delete _, _ | .lineBreak, _ | .link .., _ | .image .., _ |
    .linkReference .., _ | .imageReference .., _ | .footnoteDefinition .., _ |
    .footnoteReference .., _ | .math .., _ | .inlineMath _, _ | .yaml _, _ | .toml _, _ => hR.pure _

theorem cells_simulated (hR : Simulating R) (hp : Simulated R f T H p p') (s : Scene)
    (hs : s.Titled T) (align : List (Option Align)) (head : Bool) :
    (ns : List Node) → (∀ m ∈ within ns, Suits T H m) →
      R _ (finishedCells s.defined ns) (cells p s align head ns)
        (cells p' (s.relinked f) align head (relinkAll f ns))
  | [], _ => hR.pure _
  | n :: ns, h =>
    have ⟨_, hinside, hns⟩ := forall_within h
    hR.append _ (cell_simulated hR hp s hs (align.head?.getD none) head n hinside)
      (cells_simulated hR hp s hs align.tail head ns hns)

theorem cell_simulated (hR : Simulating R) (hp : Simulated R f T H p p') (s : Scene)
    (hs : s.Titled T) (align : Option Align) (head : Bool) :
    (n : Node) → (∀ m ∈ inside n, Suits T H m) →
      R _ (finishedCell s.defined n) (cell p s align head n)
        (cell p' (s.relinked f) align head (relink f n))
  | .tableCell cs, h => hR.map (nodes_simulated hR hp s.inText hs cs h) _
  | .root _, _ | .paragraph _, _ | .heading .., _ | .blockquote _, _ | .list .., _ |
    .listItem .., _ | .code .., _ | .html _, _ | .thematicBreak, _ | .definition .., _ |
    .table .., _ | .tableRow _, _ | .text _, _ | .inlineCode _, _ | .emphasis _, _ |
    .strong _, _ | .delete _, _ | .lineBreak, _ | .link .., _ | .image .., _ |
    .linkReference .., _ | .imageReference .., _ | .footnoteDefinition .., _ |
    .footnoteReference .., _ | .math .., _ | .inlineMath _, _ | .yaml _, _ | .toml _, _ => hR.pure _

end

theorem document_simulated (hR : Simulating R) (hp : Simulated R f T H p p')
    (options : Markdown.Options) {tree : List Node} (h : ∀ n ∈ within tree, Suits T H n) :
    R _ (finishedIn tree) (document p options tree) (document p' options (relinkAll f tree)) := by
  unfold document
  rw [allDestinations_relinkAll]
  exact hR.map (nodes_simulated hR hp ⟨options, allDestinations tree, false, false⟩
    (titled_of_suits h _ _ _) tree h) _

end

end Rendering
end Bindery
