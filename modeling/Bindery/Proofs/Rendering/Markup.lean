import Bindery.Proofs.Html.Flow
import Bindery.Proofs.Rendering.Finished
import Bindery.Rendering.Productions

/-! A document without raw HTML is rendered by plain productions to markup that reads as text and
tags of the renderer's own. None of its texts, destinations, titles and identifiers adds a tag. -/

namespace Bindery

open Markdown
open Markdown.Node (inside within forall_within)
open Html (Flow Element VoidElement escapeText escapeAttr fit_escaped writeAll_escaped flow_escapeText)
open Html.Attribute (Fit fit_nil writeAll)

namespace Html

variable {u lead trail : List Char}

/-- An element with some markup in front of its content and some behind its end. -/
theorem Flow.enclosed {e : Element} {attrs : List Attribute} (hattrs : Fit attrs e.attributes)
    (hlead : Flow lead) (hu : Flow u) (htrail : Flow trail) :
    Flow ((e.opening attrs ++ lead) ++ u ++ (e.closing ++ trail)) := by
  have h := Flow.element hattrs (hlead.append hu) htrail
  simpa only [List.append_assoc] using h

theorem flow_line : Flow ['\n'] := Flow.of_text (by simp)

theorem headingTag_eq (level : Nat) (id : Option (List Char)) (html : List Char) :
    headingTag level id html = (Element.heading level).opening
      ((id.toList.map fun id => ("id".toList, id)).map fun x => ⟨x.1, some (escapeAttr x.2)⟩) ++
        html ++ (Element.heading level).closing := by
  rw [Element.opening, writeAll_escaped]
  delta headingTag Element.closing Element.name
  cases id <;> simp

theorem anchorTag_eq (href : List Char) (title : Option (List Char)) (html : List Char) :
    anchorTag [] href title html = Element.anchor.opening
      ((("href".toList, href) :: title.toList.map fun title => ("title".toList, title)).map
        fun x => ⟨x.1, some (escapeAttr x.2)⟩) ++ html ++ Element.anchor.closing := by
  rw [Element.opening, writeAll_escaped]
  delta anchorTag titleAttribute Element.closing Element.name
  cases title <;> simp

theorem imageTag_eq (src : List Char) (title : Option (List Char)) (alt : List Char)
    (slash : Bool) : imageTag [] src title alt slash = VoidElement.image.tag
      ((("src".toList, src) :: ("alt".toList, alt) ::
        title.toList.map fun title => ("title".toList, title)).map
        fun x => ⟨x.1, some (escapeAttr x.2)⟩) slash := by
  rw [VoidElement.tag, writeAll_escaped]
  delta imageTag titleAttribute VoidElement.name
  cases title <;> cases slash <;> simp

theorem flow_headingTag (level : Nat) (id : Option (List Char)) (hu : Flow u) :
    Flow (headingTag level id u) := by
  rw [headingTag_eq]
  refine Flow.wrap (fit_escaped ?_) hu
  show List.Sublist _ ["id".toList]
  cases id <;> simp

theorem flow_anchorTag (href : List Char) (title : Option (List Char)) (hu : Flow u) :
    Flow (anchorTag [] href title u) := by
  rw [anchorTag_eq]
  refine Flow.wrap (fit_escaped ?_) hu
  show List.Sublist _ ["href".toList, "title".toList]
  cases title <;> simp

theorem flow_imageTag (src : List Char) (title : Option (List Char)) (alt : List Char)
    (slash : Bool) : Flow (imageTag [] src title alt slash) := by
  rw [imageTag_eq]
  refine Flow.tag _ _ (fit_escaped ?_)
  show List.Sublist _ ["src".toList, "alt".toList, "title".toList]
  cases title <;> simp

end Html

namespace Rendering

variable {html : List Char} (options : Markdown.Options)

theorem flow_breakTag : Flow (breakTag options) := by
  unfold breakTag
  cases options.xhtml
  · exact Flow.tag .lineBreak false (fit_nil _)
  · exact Flow.tag .lineBreak true (fit_nil _)

theorem flow_join {sep : List Char} (hsep : Flow sep) : (pieces : List (List Char)) →
    (∀ piece ∈ pieces, Flow piece) → Flow (Text.join sep pieces)
  | [], _ => .nil
  | [piece], h => h piece List.mem_cons_self
  | piece :: next :: pieces, h =>
    ((h piece List.mem_cons_self).append hsep).append
      (flow_join hsep (next :: pieces) fun x hx => h x (List.mem_cons_of_mem _ hx))

theorem flow_writeText (cs : List Char) : Flow (writeText options cs) := by
  unfold writeText
  split
  · refine flow_join ((flow_breakTag options).append Html.flow_line) _ fun piece hpiece => ?_
    obtain ⟨line, -, rfl⟩ := List.mem_map.1 hpiece
    exact flow_escapeText line
  · exact flow_escapeText cs

theorem flow_paragraphTag (s : Scene) (h : Flow html) : Flow (paragraphTag s html) := by
  unfold paragraphTag
  split
  · exact h
  · exact Flow.enclosed (e := .paragraph) (fit_nil _) .nil h Html.flow_line

theorem fit_start (n : Nat) :
    Fit [⟨"start".toList, some (Html.digitsOf n)⟩] Element.numbers.attributes where
  names := List.Sublist.refl ["start".toList]
  values := by
    rintro a ha value hvalue
    obtain rfl := List.mem_singleton.1 ha
    obtain rfl := Option.mem_some.1 hvalue
    refine ⟨?_, ?_, ?_⟩ <;>
      exact fun h => absurd (Html.isDigit_of_mem_digitsOf h) (by decide)

theorem flow_list (ordered : Bool) (start : Option Nat) (h : Flow html) :
    Flow (listOpening ordered start ++ html ++ listClosing ordered) := by
  unfold listOpening listClosing
  split
  · next n =>
    split
    · exact Flow.enclosed (e := .numbers) (fit_nil _) Html.flow_line h Html.flow_line
    · have hlist := Flow.enclosed (fit_start n) Html.flow_line h Html.flow_line
      convert hlist using 1
      show ("<ol start=\"" ++ toString n ++ "\">\n").toList ++ html ++ "</ol>\n".toList = _
      delta Element.opening Element.closing Element.name
      simp [writeAll, Html.Attribute.write, Html.digitsOf]
  · exact Flow.enclosed (e := .numbers) (fit_nil _) Html.flow_line h Html.flow_line
  · exact Flow.enclosed (e := .bullets) (fit_nil _) Html.flow_line h Html.flow_line

/-- The attributes of a task's checkbox. -/
def boxAttributes (checked : Bool) : List Html.Attribute :=
  ⟨"type".toList, some "checkbox".toList⟩ :: ⟨"disabled".toList, none⟩ ::
    if checked then [⟨"checked".toList, none⟩] else []

theorem fit_boxAttributes (checked : Bool) :
    Fit (boxAttributes checked) VoidElement.checkbox.attributes where
  names := by cases checked <;> decide
  values := by cases checked <;> decide

theorem flow_checkbox (checked : Option Bool) : Flow (checkbox options checked) := by
  have hblank : Flow [' '] := Flow.of_text (by simp)
  cases checked with
  | none => exact .nil
  | some checked =>
    have hbox := Flow.void _ options.xhtml (fit_boxAttributes checked) hblank
    unfold checkbox
    cases checked <;> cases hslash : options.xhtml <;> rw [hslash] at hbox <;> exact hbox

theorem flow_itemTag (s : Scene) (checked : Option Bool) (h : Flow html) :
    Flow (itemTag s checked html) := by
  have hitem : ∀ content, Flow content →
      Flow ("<li>".toList ++ checkbox s.options checked ++ content ++ "</li>\n".toList) :=
    fun content hcontent => Flow.enclosed (e := .item) (fit_nil _) (flow_checkbox s.options checked)
      hcontent Html.flow_line
  unfold itemTag
  refine hitem _ ?_
  split
  · next hline =>
    rw [Bool.and_eq_true, endsLine, beq_iff_eq] at hline
    exact h.dropLast hline.2
  · exact h

theorem flow_codeBlock (value : String) (lang : Option String) :
    Flow (codeBlock options value lang) := by
  have htext : Flow (escapeText value.toList ++ if value.isEmpty then [] else ['\n']) := by
    refine (flow_escapeText _).append ?_
    split
    · exact .nil
    · exact Html.flow_line
  have hfit : Fit ((lang.toList.map fun lang => ("class".toList,
      (options.langPrefix ++ lang).toList)).map fun x => ⟨x.1, some (escapeAttr x.2)⟩)
      Element.code.attributes := by
    refine fit_escaped ?_
    show List.Sublist _ ["class".toList]
    cases lang <;> simp
  have hblock := Flow.enclosed (e := .preformatted) (fit_nil _) .nil (Flow.wrap hfit htext)
    Html.flow_line
  rw [Element.opening, Element.opening, writeAll_escaped] at hblock
  convert hblock using 1
  delta codeBlock Element.closing Element.name
  cases lang <;> simp [writeAll, Html.writeAttr]

theorem fit_align {value : List Char} (h : '\x22' ∉ value ∧ '<' ∉ value ∧ '>' ∉ value) :
    Fit [⟨"align".toList, some value⟩] ["align".toList] where
  names := .refl _
  values := by
    intro a ha v hv
    obtain rfl := List.mem_singleton.1 ha
    exact Option.mem_some.1 hv ▸ h

theorem exists_alignText (align : Option Align) :
    ∃ attrs, Fit attrs ["align".toList] ∧ alignText align = writeAll attrs := by
  rcases align with _ | _ | _ | _
  · exact ⟨[], fit_nil _, rfl⟩
  · exact ⟨[⟨"align".toList, some "left".toList⟩], fit_align (by decide), rfl⟩
  · exact ⟨[⟨"align".toList, some "right".toList⟩], fit_align (by decide), rfl⟩
  · exact ⟨[⟨"align".toList, some "center".toList⟩], fit_align (by decide), rfl⟩

theorem flow_cellTag (head : Bool) (align : Option Align) (h : Flow html) :
    Flow (cellTag head align html) := by
  obtain ⟨attrs, hattrs, halign⟩ := exists_alignText align
  cases head with
  | true =>
    have hcell := Flow.wrap (e := .headCell) hattrs h
    convert hcell using 1
    delta Element.opening Element.closing Element.name
    simp [cellTag, halign]
  | false =>
    have hcell := Flow.wrap (e := .cell) hattrs h
    convert hcell using 1
    delta Element.opening Element.closing Element.name
    simp [cellTag, halign]

/-- The head of a table, and its body when there are rows for one. -/
theorem flow_tableTag {body : List Char} (h : Flow html) (hbody : Flow body) (bare : Bool) :
    Flow ("<table>\n<thead>\n".toList ++ (html ++ "</thead>\n".toList ++
      if bare then [] else "<tbody>\n".toList ++ body ++ "</tbody>\n".toList) ++
        "</table>\n".toList) := by
  have hhead : Flow ("<thead>\n".toList ++ html ++ "</thead>\n".toList) :=
    Flow.enclosed (e := .tableHead) (fit_nil _) Html.flow_line h Html.flow_line
  have hrest : Flow (if bare then [] else "<tbody>\n".toList ++ body ++ "</tbody>\n".toList) := by
    split
    · exact .nil
    · exact Flow.enclosed (e := .tableBody) (fit_nil _) Html.flow_line hbody Html.flow_line
  have htable : Flow ("<table>\n".toList ++ ("<thead>\n".toList ++ html ++ "</thead>\n".toList ++
      if bare then [] else "<tbody>\n".toList ++ body ++ "</tbody>\n".toList) ++
        "</table>\n".toList) :=
    Flow.enclosed (e := .table) (fit_nil _) Html.flow_line (hhead.append hrest) Html.flow_line
  have hopening : "<table>\n<thead>\n".toList = "<table>\n".toList ++ "<thead>\n".toList := by
    decide
  rw [hopening]
  simpa only [List.append_assoc] using htable

theorem flow_rule : Flow (if options.xhtml then "<hr />\n" else "<hr>\n").toList := by
  cases options.xhtml
  · exact Flow.void .rule false (fit_nil _) Html.flow_line
  · exact Flow.void .rule true (fit_nil _) Html.flow_line

section Walk

/-- The node is no raw HTML. -/
def NoHtml (n : Node) : Prop := ∀ markup, n ≠ .html markup

mutual

theorem flow_node (s : Scene) : (n : Node) → NoHtml n → (∀ m ∈ inside n, NoHtml m) →
    Flow (node (Productions.plain options) s n).run
  | .definition .., _, _ | .footnoteReference .., _, _ | .math .., _, _ | .inlineMath _, _, _ |
    .yaml _, _, _ | .toml _, _, _ | .tableRow _, _, _ | .tableCell _, _, _ |
    .footnoteDefinition .., _, _ => .nil
  | .html markup, hn, _ => absurd rfl (hn markup)
  | .text value, _, _ => flow_writeText s.options value.toList
  | .inlineCode value, _, _ => Flow.wrap (e := .code) (fit_nil _) (flow_escapeText value.toList)
  | .lineBreak, _, _ => (flow_breakTag s.options).append Html.flow_line
  | .code value lang _, _, _ => flow_codeBlock s.options value lang
  | .thematicBreak, _, _ => flow_rule s.options
  | .root cs, _, hcs => flow_nodes s cs hcs
  | .paragraph cs, _, hcs => flow_paragraphTag s (flow_nodes s.inText cs hcs)
  | .heading level cs, _, hcs =>
    (Html.flow_headingTag level _ (flow_nodes s.inText cs hcs)).append Html.flow_line
  | .link url title cs, _, hcs => Html.flow_anchorTag _ _ (flow_nodes s cs hcs)
  | .linkReference identifier label kind cs, _, hcs => by
    have hinner := flow_nodes s cs hcs
    unfold node
    cases s.destination? identifier with
    | none => exact hinner
    | some d => exact Html.flow_anchorTag _ _ hinner
  | .image url title alt, _, _ => Html.flow_imageTag _ _ _ _
  | .imageReference identifier label kind alt, _, _ => by
    unfold node
    cases s.destination? identifier with
    | none => exact flow_escapeText alt.toList
    | some d => exact Html.flow_imageTag _ _ _ _
  | .strong cs, _, hcs => Flow.wrap (e := .strong) (fit_nil _) (flow_nodes s cs hcs)
  | .emphasis cs, _, hcs => Flow.wrap (e := .emphasis) (fit_nil _) (flow_nodes s cs hcs)
  | .delete cs, _, hcs => Flow.wrap (e := .deletion) (fit_nil _) (flow_nodes s cs hcs)
  | .list ordered start spread cs, _, hcs =>
    flow_list ordered start (flow_nodes (s.inList spread) cs hcs)
  | .listItem _ checked cs, _, hcs => flow_itemTag s checked (flow_nodes s cs hcs)
  | .blockquote cs, _, hcs =>
    Flow.enclosed (e := .quotation) (fit_nil _) Html.flow_line (flow_nodes s cs hcs) Html.flow_line
  | .table align cs, _, hcs => flow_table s align cs hcs

theorem flow_nodes (s : Scene) : (ns : List Node) → (∀ m ∈ within ns, NoHtml m) →
    Flow (nodes (Productions.plain options) s ns).run
  | [], _ => .nil
  | n :: ns, h =>
    have ⟨hn, hinside, hns⟩ := forall_within h
    (flow_node s n hn hinside).append (flow_nodes s ns hns)

theorem flow_table (s : Scene) (align : List (Option Align)) : (ns : List Node) →
    (∀ m ∈ within ns, NoHtml m) →
    Flow ("<table>\n<thead>\n".toList ++ (table (Productions.plain options) s align ns).run ++
      "</table>\n".toList)
  | [], _ => flow_tableTag .nil .nil true
  | n :: ns, h =>
    have ⟨_, hinside, hns⟩ := forall_within h
    flow_tableTag (flow_row s align true n hinside) (flow_rows s align ns hns) ns.isEmpty

theorem flow_rows (s : Scene) (align : List (Option Align)) : (ns : List Node) →
    (∀ m ∈ within ns, NoHtml m) → Flow (rows (Productions.plain options) s align ns).run
  | [], _ => .nil
  | n :: ns, h =>
    have ⟨_, hinside, hns⟩ := forall_within h
    (flow_row s align false n hinside).append (flow_rows s align ns hns)

theorem flow_row (s : Scene) (align : List (Option Align)) (head : Bool) : (n : Node) →
    (∀ m ∈ inside n, NoHtml m) → Flow (row (Productions.plain options) s align head n).run
  | .tableRow cs, h =>
    Flow.enclosed (e := .row) (fit_nil _) .nil (flow_cells s align head cs h) Html.flow_line
  | .root _, _ | .paragraph _, _ | .heading .., _ | .blockquote _, _ | .list .., _ |
    .listItem .., _ | .code .., _ | .html _, _ | .thematicBreak, _ | .definition .., _ |
    .table .., _ | .tableCell _, _ | .text _, _ | .inlineCode _, _ | .emphasis _, _ |
    .strong _, _ | .delete _, _ | .lineBreak, _ | .link .., _ | .image .., _ |
    .linkReference .., _ | .imageReference .., _ | .footnoteDefinition .., _ |
    .footnoteReference .., _ | .math .., _ | .inlineMath _, _ | .yaml _, _ | .toml _, _ => .nil

theorem flow_cells (s : Scene) (align : List (Option Align)) (head : Bool) : (ns : List Node) →
    (∀ m ∈ within ns, NoHtml m) → Flow (cells (Productions.plain options) s align head ns).run
  | [], _ => .nil
  | n :: ns, h =>
    have ⟨_, hinside, hns⟩ := forall_within h
    (flow_cell s (align.head?.getD none) head n hinside).append (flow_cells s align.tail head ns hns)

theorem flow_cell (s : Scene) (align : Option Align) (head : Bool) : (n : Node) →
    (∀ m ∈ inside n, NoHtml m) → Flow (cell (Productions.plain options) s align head n).run
  | .tableCell cs, h => flow_cellTag head align (flow_nodes s.inText cs h)
  | .root _, _ | .paragraph _, _ | .heading .., _ | .blockquote _, _ | .list .., _ |
    .listItem .., _ | .code .., _ | .html _, _ | .thematicBreak, _ | .definition .., _ |
    .table .., _ | .tableRow _, _ | .text _, _ | .inlineCode _, _ | .emphasis _, _ |
    .strong _, _ | .delete _, _ | .lineBreak, _ | .link .., _ | .image .., _ |
    .linkReference .., _ | .imageReference .., _ | .footnoteDefinition .., _ |
    .footnoteReference .., _ | .math .., _ | .inlineMath _, _ | .yaml _, _ | .toml _, _ => .nil

end

end Walk

end Rendering

namespace Productions

/-- Productions that never fail, among those that may. -/
def fallible (p : Productions Id) : Productions (Except MarkupError) where
  heading level html raw := .ok (p.heading level html raw).run
  link href title html := .ok (p.link href title html).run
  image src title alt := .ok (p.image src title alt).run
  html markup := .ok (p.html markup).run

end Productions

namespace Rendering

/-- The result is not a failure, whatever was finished. -/
def Succeeds (α : Type) (_ : List Finished) (x : Except MarkupError α) (y : Id α) : Prop :=
  x = .ok y.run

theorem simulating_succeeds : Simulating Succeeds where
  pure _ := rfl
  bind {α β fs gs x y h k} hx hrest := by
    obtain rfl := hx
    exact hrest y.run

theorem simulated_fallible (p : Productions Id) :
    Simulated Succeeds id (fun _ => True) (fun _ => True) p.fallible p where
  heading _ _ _ _ := rfl
  link _ _ _ _ := rfl
  image _ _ _ _ := rfl

/-- Rendering a document without raw HTML with plain productions succeeds, and gives markup that
reads as text and tags of the renderer's own, properly nested and all closed. Typographic punctuation
may be on or off. -/
theorem plainDocument_flow (options : Markdown.Options) {tree : List Node}
    (h : ∀ n ∈ within tree, NoHtml n) :
    document (Productions.plain options).fallible options tree = .ok (plainDocument options tree) ∧
      Flow (plainDocument options tree) := by
  constructor
  · have hsuits : ∀ n ∈ within tree, Suits (fun _ => True) (fun _ => True) n := by
      intro n hn
      have hplain := h n hn
      unfold Suits
      split
      · exact absurd rfl (hplain _)
      all_goals simp
    have hwalk := document_simulated simulating_succeeds
      (simulated_fallible (Productions.plain options)) options hsuits
    rw [Node.relinkAll_id] at hwalk
    exact hwalk
  · have hwalk := flow_nodes options ⟨options, allDestinations tree, false, false⟩ tree h
    show Flow (if options.smartypants then Html.Typography.educateMarkup _ else _)
    split
    · exact Html.Typography.flow_educateMarkup hwalk
    · exact hwalk

/-- A link whose destination, title and text would end the tag they stand in. -/
def hostile : List Node :=
  [.paragraph [.link "\"><script>" (some "\"") [.text "</p> \"<b>"], .imageReference "x" none .full "<i>"]]

theorem plainDocument_flow_hostile : (∀ n ∈ within hostile, NoHtml n) ∧
    document (Productions.plain { smartypants := true }).fallible { smartypants := true } hostile =
      .ok ("<p><a href=\"&quot;&gt;&lt;script&gt;\" title=\"&quot;\">&lt;/p&gt; \u201c&lt;b&gt;</a>" ++
        "&lt;i&gt;</p>\n").toList ∧
    Flow (plainDocument { smartypants := true } hostile) := by
  have hplain : ∀ n ∈ within hostile, NoHtml n := by
    simp [hostile, within, inside, NoHtml]
  obtain ⟨hok, hflow⟩ := plainDocument_flow { smartypants := true } hplain
  refine ⟨hplain, ?_, hflow⟩
  rw [hok]
  decide +kernel

end Rendering
end Bindery
