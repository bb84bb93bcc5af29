import Bindery.Rendering.Productions
import Mathlib.Data.List.Induction

/-! What decides over the `<p>` around a paragraph. The walk goes by the nearest list around it and
by the flag of that list alone. So no paragraph in an item of a tight list has a `<p>`, but neither
has one that stands deeper in the item, nor one in an item that is spread itself. -/

namespace Bindery.Rendering

open Markdown (Node Align)

section Places

/-- What holds a row of nodes that the walk writes out. -/
inductive Holder where
  | root
  | paragraph
  | heading (depth : Nat)
  | blockquote
  | list (ordered : Bool) (start : Option Nat) (spread : Bool)
  | listItem (spread : Bool) (checked : Option Bool)
  | emphasis
  | strong
  | delete
  | link (url : String) (title : Option String)
  | linkReference (identifier : String) (label : Option String) (kind : Markdown.ReferenceKind)
  /-- A cell in the first row of a table, between other cells, with the rows below it. -/
  | headCell (align : List (Option Align)) (before after rows : List Node)
  /-- A cell in a later row, with the first row, and the rows before and behind its own. -/
  | bodyCell (align : List (Option Align)) (first : Node) (rows before after rest : List Node)

/-- The node with these children. -/
def Holder.fill (cs : List Node) : Holder → Node
  | root => .root cs
  | paragraph => .paragraph cs
  | heading depth => .heading depth cs
  | blockquote => .blockquote cs
  | list ordered start spread => .list ordered start spread cs
  | listItem spread checked => .listItem spread checked cs
  | emphasis => .emphasis cs
  | strong => .strong cs
  | delete => .delete cs
  | link url title => .link url title cs
  | linkReference identifier label kind => .linkReference identifier label kind cs
  | headCell align before after rows =>
    .table align (.tableRow (before ++ .tableCell cs :: after) :: rows)
  | bodyCell align first rows before after rest =>
    .table align (first :: (rows ++ .tableRow (before ++ .tableCell cs :: after) :: rest))

/-- The scene of the children. -/
def Holder.scene (s : Scene) : Holder → Scene
  | paragraph | heading _ | headCell .. | bodyCell .. => s.inText
  | list _ _ spread => s.inList spread
  | _ => s

/-- One node on the way down to a place: what holds the way on, between its siblings. -/
structure Frame where
  before : List Node
  holder : Holder
  after : List Node

/-- The nodes with some put in the place that a way leads to, from the outside in. -/
def place : List Frame → List Node → List Node
  | [], cs => cs
  | f :: way, cs => f.before ++ f.holder.fill (place way cs) :: f.after

/-- The scene in a place. -/
def Scene.along (s : Scene) (way : List Frame) : Scene := way.foldl (fun s f => f.holder.scene s) s

end Places

section Around

variable {m : Type → Type} [Monad m]

/-- A row of a table around one of its cells. -/
def aroundCell (p : Productions m) (s : Scene) (align : List (Option Align)) (head : Bool)
    (before after : List Node) (inner : m (List Char)) : m (List Char) := do
  let left ← cells p s align head before
  let html ← inner
  let right ← cells p s (align.drop (before.length + 1)) head after
  return "<tr>".toList ++ (left ++ (cellTag head ((align.drop before.length).head?.getD none) html ++
    right)) ++ "</tr>\n".toList

/-- What a holder writes around its children. -/
def Holder.write (p : Productions m) (s : Scene) (cs : List Node) (inner : m (List Char)) :
    Holder → m (List Char)
  | root => inner
  | paragraph => do return paragraphTag s (← inner)
  | heading depth => do
    let html ← inner
    return (← p.heading depth html (textOf cs)) ++ ['\n']
  | blockquote => do return "<blockquote>\n".toList ++ (← inner) ++ "</blockquote>\n".toList
  | list ordered start _ => do
    let html ← inner
    return listOpening ordered start ++ html ++ listClosing ordered
  | listItem _ checked => do return itemTag s checked (← inner)
  | emphasis => do return element "em" (← inner)
  | strong => do return element "strong" (← inner)
  | delete => do return element "del" (← inner)
  | link url title => do
    let html ← inner
    p.link url.toList (title.map String.toList) html
  | linkReference identifier _ _ => do
    let html ← inner
    match s.destination? identifier with
    | some d => p.link d.url.toList (d.title.map String.toList) html
    | none => return html
  | headCell align before after below => do
    let head ← aroundCell p s align true before after inner
    let body ← rows p s align below
    return "<table>\n<thead>\n".toList ++ (head ++ "</thead>\n".toList ++
      if below.isEmpty then [] else "<tbody>\n".toList ++ body ++ "</tbody>\n".toList) ++
        "</table>\n".toList
  | bodyCell align first above before after below => do
    let head ← row p s align true first
    let upper ← rows p s align above
    let html ← aroundCell p s align false before after inner
    let lower ← rows p s align below
    return "<table>\n<thead>\n".toList ++ (head ++ "</thead>\n".toList ++
      ("<tbody>\n".toList ++ (upper ++ (html ++ lower)) ++ "</tbody>\n".toList)) ++
        "</table>\n".toList

/-- What is written around a place. -/
def around (p : Productions m) (s : Scene) (cs : List Node) (inner : m (List Char)) :
    List Frame → m (List Char)
  | [] => inner
  | f :: way => do
    let left ← nodes p s f.before
    let html ← f.holder.write p s (place way cs) (around p (f.holder.scene s) cs inner way)
    let right ← nodes p s f.after
    return left ++ (html ++ right)

variable [LawfulMonad m] (p : Productions m) (s : Scene)

theorem nodes_split (before : List Node) (n : Node) (after : List Node) :
    nodes p s (before ++ n :: after) = do
      let left ← nodes p s before
      let html ← node p s n
      let right ← nodes p s after
      return left ++ (html ++ right) := by
  induction before with
  | nil => simp [nodes]
  | cons b before ih => simp [nodes, ih]

theorem cells_split (align : List (Option Align)) (head : Bool) (before : List Node) (n : Node)
    (after : List Node) :
    cells p s align head (before ++ n :: after) = do
      let left ← cells p s align head before
      let html ← cell p s ((align.drop before.length).head?.getD none) head n
      let right ← cells p s (align.drop (before.length + 1)) head after
      return left ++ (html ++ right) := by
  induction before generalizing align with
  | nil => simp [cells]
  | cons b before ih => simp [cells, ih]

theorem rows_split (align : List (Option Align)) (above : List Node) (n : Node)
    (below : List Node) :
    rows p s align (above ++ n :: below) = do
      let upper ← rows p s align above
      let html ← row p s align false n
      let lower ← rows p s align below
      return upper ++ (html ++ lower) := by
  induction above with
  | nil => simp [rows]
  | cons b above ih => simp [rows, ih]

theorem row_eq_aroundCell (align : List (Option Align)) (head : Bool) (before cs after : List Node) :
    row p s align head (.tableRow (before ++ .tableCell cs :: after)) =
      aroundCell p s align head before after (nodes p s.inText cs) := by
  simp [row, cells_split, cell, aroundCell]

theorem node_fill (h : Holder) (cs : List Node) :
    node p s (h.fill cs) = h.write p s cs (nodes p (h.scene s) cs) := by
  cases h with
  | headCell align before after below =>
    simp only [Holder.fill, Holder.write, Holder.scene, node, table, row_eq_aroundCell, bind_assoc,
      pure_bind]
  | bodyCell align first above before after below =>
    have hrest (n : Node) : (above ++ n :: below).isEmpty = false := by cases above <;> rfl
    simp only [Holder.fill, Holder.write, Holder.scene, node, table, rows_split, row_eq_aroundCell,
      bind_assoc, pure_bind, hrest, Bool.false_eq_true, if_false]
  | linkReference identifier label kind =>
    cases hfound : s.destination? identifier <;>
    simp only [Holder.fill, Holder.write, Holder.scene, node, hfound]
  | _ => simp only [Holder.fill, Holder.write, Holder.scene, node]

/-- The walk writes around a place what stands around it, whatever is in it. -/
theorem nodes_place (way : List Frame) (cs : List Node) :
    nodes p s (place way cs) = around p s cs (nodes p (s.along way) cs) way := by
  induction way generalizing s with
  | nil => rfl
  | cons f way ih =>
    rw [place, nodes_split, node_fill, ih]
    rfl

end Around

section Lists

/-- Whether it is a list, and one that is spread. -/
def Holder.spread? : Holder → Option Bool
  | list _ _ spread => some spread
  | _ => none

/-- Whether the nearest list around a place is spread. -/
def nearest (way : List Frame) : Option Bool := way.reverse.findSome? fun f => f.holder.spread?

theorem Holder.tight_scene (h : Holder) (s : Scene) :
    (h.scene s).tight = (h.spread?.map (!·)).getD s.tight := by
  cases h <;> rfl

theorem nearest_concat (way : List Frame) (f : Frame) :
    nearest (way ++ [f]) = (f.holder.spread? <|> nearest way) := by
  unfold nearest
  rw [List.reverse_concat, List.findSome?_cons]
  cases f.holder.spread? <;> rfl

theorem tight_along (s : Scene) (way : List Frame) :
    (s.along way).tight = ((nearest way).map (!·)).getD s.tight := by
  induction way using List.reverseRecOn with
  | nil => rfl
  | append_singleton way f ih =>
    have hlast : s.along (way ++ [f]) = f.holder.scene (s.along way) := by simp [Scene.along]
    rw [hlast, Holder.tight_scene, nearest_concat, ih]
    cases f.holder.spread? <;> rfl

theorem nearest_eq_some_iff {way : List Frame} {spread : Bool} :
    nearest way = some spread ↔ ∃ outer list inner, way = outer ++ list :: inner ∧
      list.holder.spread? = some spread ∧ ∀ f ∈ inner, f.holder.spread? = none := by
  rw [nearest, List.findSome?_eq_some_iff]
  constructor
  · rintro ⟨inner, list, outer, hway, hlist, hinner⟩
    refine ⟨outer.reverse, list, inner.reverse, ?_, hlist, fun f hf => hinner f (by simpa using hf)⟩
    rw [← List.reverse_reverse way, hway]
    simp
  · rintro ⟨outer, list, inner, rfl, hlist, hinner⟩
    exact ⟨inner.reverse, list, outer.reverse, by simp, hlist, fun f hf => hinner f (by simpa using hf)⟩

def isSpread : Node → Bool
  | .listItem spread _ _ => spread
  | _ => false

/-- An item, with none among it and those beside it that is spread. -/
def Frame.OfTightItem (f : Frame) : Prop :=
  (∃ checked, f.holder = .listItem false checked) ∧ ∀ n ∈ f.before ++ f.after, isSpread n = false

/-- The place is right in an item of a tight list: neither the list nor an item of it is spread. -/
def InTightItem (way : List Frame) : Prop :=
  ∃ outer list item, way = outer ++ [list, item] ∧ list.holder.spread? = some false ∧
    item.OfTightItem

/-- The nearest list is not spread, but the place is not right in an item of it, or one of its items
is spread. -/
def Astray (way : List Frame) : Prop :=
  ∃ outer list inner, way = outer ++ list :: inner ∧ list.holder.spread? = some false ∧
    (∀ f ∈ inner, f.holder.spread? = none) ∧ ¬∃ item, inner = [item] ∧ item.OfTightItem

theorem nearest_eq_some_false_iff {way : List Frame} :
    nearest way = some false ↔ InTightItem way ∨ Astray way := by
  rw [nearest_eq_some_iff]
  constructor
  · rintro ⟨outer, list, inner, rfl, hlist, hinner⟩
    by_cases hitem : ∃ item, inner = [item] ∧ item.OfTightItem
    · obtain ⟨item, rfl, hitem⟩ := hitem
      exact .inl ⟨outer, list, item, rfl, hlist, hitem⟩
    · exact .inr ⟨outer, list, inner, rfl, hlist, hinner, hitem⟩
  · rintro (⟨outer, list, item, rfl, hlist, ⟨checked, hitem⟩, -⟩ | ⟨outer, list, inner, rfl, h, hinner, -⟩)
    · refine ⟨outer, list, [item], rfl, hlist, ?_⟩
      rw [List.forall_mem_singleton, hitem]
      rfl
    · exact ⟨outer, list, inner, rfl, h, hinner⟩

theorem reverse_inner {outer inner : List Frame} {list : Frame}
    (hlist : list.holder.spread?.isSome) (hinner : ∀ f ∈ inner, f.holder.spread? = none) :
    (outer ++ list :: inner).reverse.takeWhile (·.holder.spread?.isNone) = inner.reverse := by
  have hstays : ∀ f ∈ inner.reverse, f.holder.spread?.isNone = true := by
    intro f hf
    rw [hinner f (List.mem_reverse.1 hf)]
    rfl
  have hstop : ¬list.holder.spread?.isNone = true := by
    rw [Option.isNone_iff_eq_none, ← Option.not_isSome_iff_eq_none]
    exact fun h => h hlist
  rw [List.reverse_append, List.reverse_cons, List.append_assoc, List.takeWhile_append_of_pos hstays,
    List.singleton_append, List.takeWhile_cons, if_neg hstop, List.append_nil]

theorem not_astray_of_inTightItem {way : List Frame} (h : InTightItem way) : ¬Astray way := by
  obtain ⟨outer, list, item, rfl, hlist, hitem⟩ := h
  rintro ⟨outer', list', inner, hway, hlist', hinner, hastray⟩
  have hnone : ∀ f ∈ [item], f.holder.spread? = none := by
    obtain ⟨checked, hholder⟩ := hitem.1
    rw [List.forall_mem_singleton, hholder]
    rfl
  have hsame : [item].reverse = inner.reverse := by
    rw [← reverse_inner (by rw [hlist]; rfl) hnone, hway, reverse_inner (by rw [hlist']; rfl) hinner]
  exact hastray ⟨item, (List.reverse_inj.1 hsame).symm, hitem⟩

end Lists

/-- A paragraph is written without its `<p>` exactly when the nearest list around it is not spread.
That leaves out the `<p>` in every item of a tight list, and besides wherever the paragraph has gone
astray. -/
theorem document_place {m : Type → Type} [Monad m] [LawfulMonad m] (p : Productions m)
    (options : Markdown.Options) (way : List Frame) (left cs right : List Node) :
    let children := left ++ .paragraph cs :: right
    let outside : Scene := ⟨options, allDestinations (place way children), false, false⟩
    let inside := outside.along way
    document p options (place way children) = (do
      let html ← around p outside children (do
        let before ← nodes p inside left
        let html ← nodes p inside.inText cs
        let after ← nodes p inside right
        let paragraph :=
          if nearest way = some false then html else "<p>".toList ++ html ++ "</p>
".toList
        return before ++ (paragraph ++ after)) way
      return if options.smartypants then Html.Typography.educateMarkup html else html) ∧
    (nearest way = some false ↔ InTightItem way ∨ Astray way) ∧
    ¬(InTightItem way ∧ Astray way) := by
  intro children outside inside
  refine ⟨?_, nearest_eq_some_false_iff, fun h => not_astray_of_inTightItem h.1 h.2⟩
  have htight : inside.tight = true ↔ nearest way = some false := by
    rw [tight_along]
    cases nearest way with
    | none => simp [outside]
    | some spread => simp
  have hchildren : nodes p inside children = (do
      let before ← nodes p inside left
      let html ← nodes p inside.inText cs
      let after ← nodes p inside right
      let paragraph :=
        if nearest way = some false then html else "<p>".toList ++ html ++ "</p>
".toList
      return before ++ (paragraph ++ after)) := by
    simp only [children, nodes_split, node, paragraphTag, htight, bind_assoc, pure_bind]
  rw [document, nodes_place, hchildren]

/-- A quote in an item, and an item of two paragraphs. -/
theorem document_place_gone_astray :
    let quote : List Frame := [⟨[], .list false none false, []⟩, ⟨[], .listItem false none, []⟩,
      ⟨[], .blockquote, []⟩]
    let pair : List Frame := [⟨[], .list false none false, []⟩, ⟨[], .listItem true none, []⟩]
    let a : Node := .paragraph [.text "a"]
    let b : Node := .paragraph [.text "b"]
    Astray quote ∧ Astray pair ∧
    document (Productions.plain {}) {} (place quote [a]) =
      "<ul>\n<li><blockquote>\na</blockquote></li>\n</ul>\n".toList ∧
    document (Productions.plain {}) {} (place pair [a, b]) =
      "<ul>\n<li>ab</li>\n</ul>\n".toList := by
  intro quote pair a b
  obtain ⟨hquote, hiff, -⟩ := document_place (m := Id) (Productions.plain {}) {} quote []
    [.text "a"] []
  obtain ⟨hpair, hiff', -⟩ := document_place (m := Id) (Productions.plain {}) {} pair [a]
    [.text "b"] []
  refine ⟨?_, ?_, hquote.trans rfl, hpair.trans rfl⟩
  · refine (hiff.1 rfl).resolve_left ?_
    rintro ⟨outer, list, item, hway, -, ⟨checked, hitem⟩, -⟩
    have hlast : ⟨[], .blockquote, []⟩ = item := by simpa [quote] using congrArg List.getLast? hway
    subst hlast
    cases hitem
  · refine (hiff'.1 rfl).resolve_left ?_
    rintro ⟨outer, list, item, hway, -, ⟨checked, hitem⟩, -⟩
    have hlast : ⟨[], .listItem true none, []⟩ = item := by
      simpa [pair] using congrArg List.getLast? hway
    subst hlast
    cases hitem

end Bindery.Rendering
