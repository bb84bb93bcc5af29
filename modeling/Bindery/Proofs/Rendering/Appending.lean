import Bindery.Rendering.Draft
import Bindery.Rendering.Productions

/-! Writing a node only appends. On every draft the node adds the text that the walk gives for the scene
the draft is in, and the scopes are in the end as they were before; what was written earlier is neither
read nor taken back. A document is then its nodes one after the other. -/

namespace Bindery.Rendering

open Markdown

namespace Draft

variable (d : Draft) (xs ys : List Char)

@[simp] theorem push_nil : d.push [] = d := by simp [push]

@[simp] theorem push_push : (d.push xs).push ys = d.push (xs ++ ys) := by simp [push]

@[simp] theorem html_push : (d.push xs).html = d.html ++ xs := rfl

@[simp] theorem scene_push : (d.push xs).scene = d.scene := rfl

@[simp] theorem scene_rewritten : (d.rewritten xs).scene = d.scene := rfl

theorem scene_enter_phrasing : (d.enter .phrasing).scene = d.scene.inText := rfl

theorem scene_enter_list (spread : Bool) :
    (d.enter (.list spread)).scene = d.scene.inList spread := by
  cases spread <;> rfl

theorem exit_push_enter (scope : Scope) : ((d.enter scope).push xs).exit = d.push xs := rfl

theorem rewritten_push_rewritten : ((d.rewritten []).push xs).rewritten d.html = d := rfl

/-- A line end that is taken back is one of the text that was written last. -/
theorem joinLine_push {xs : List Char} (hne : xs ≠ []) (hopen : endsLine xs = false) :
    (d.push (xs ++ ys)).joinLine =
      d.push (xs ++ if d.scene.tight && endsLine ys then ys.dropLast else ys) := by
  have hline : endsLine (d.push (xs ++ ys)).html = endsLine ys := by
    cases ys with
    | nil =>
      rw [List.append_nil]
      refine Eq.trans ?_ hopen
      simp [endsLine, push, List.getLast?_append, List.getLast?_eq_some_getLast hne]
    | cons y ys => simp [endsLine, push, List.getLast?_append, List.getLast?_cons]
  unfold joinLine
  rw [hline, scene_push, Bool.and_comm]
  split
  · next hends =>
    have hys : ys ≠ [] := by
      rintro rfl
      simp [endsLine] at hends
    simp [push, rewritten, List.dropLast_append_of_ne_nil, hys]
  · rfl

end Draft

namespace Writing

variable {ε α β : Type} {m : Type → Type} [Monad m] [LawfulMonad m]

/-! What comes of the steps of a writer. -/

theorem outcome_eq (act : Writing ε m α) (d : Draft) :
    act.outcome d = ExceptT.mk ((fun out => out.1.map fun a => (a, out.2)) <$> act.run.run d) := by
  rw [outcome, map_eq_pure_bind]

theorem outcome_of_run {act : Writing ε m α} {d d' : Draft} {a : α}
    (h : act.run.run d = pure (.ok a, d')) : act.outcome d = pure (a, d') := by
  rw [outcome_eq, h, map_pure]
  rfl

@[simp] theorem outcome_pure (a : α) (d : Draft) :
    (pure a : Writing ε m α).outcome d = pure (a, d) := outcome_of_run rfl

@[simp] theorem outcome_bind (act : Writing ε m α) (next : α → Writing ε m β) (d : Draft) :
    (act >>= next).outcome d = act.outcome d >>= fun out => (next out.1).outcome out.2 := by
  apply ExceptT.ext
  simp only [outcome, ExceptT.run_bind, ExceptT.run_mk, StateT.run_bind, bind_assoc]
  refine bind_congr fun ⟨result, d'⟩ => ?_
  cases result with
  | ok a => simp [Except.map]
  | error e => simp [Except.map]

@[simp] theorem outcome_get (d : Draft) : (get : Writing ε m Draft).outcome d = pure (d, d) := by
  apply outcome_of_run
  exact pure_bind _ _

@[simp] theorem outcome_scene (d : Draft) :
    (scene : Writing ε m Scene).outcome d = pure (d.scene, d) := by
  unfold scene
  rw [outcome_bind, outcome_get, pure_bind, outcome_pure]

@[simp] theorem outcome_modify (f : Draft → Draft) (d : Draft) :
    (modify f : Writing ε m Unit).outcome d = pure ((), f d) := by
  apply outcome_of_run
  exact pure_bind _ _

@[simp] theorem outcome_push (cs : List Char) (d : Draft) :
    (push cs : Writing ε m Unit).outcome d = pure ((), d.push cs) := outcome_modify _ d

@[simp] theorem outcome_produce (x : ExceptT ε m α) (d : Draft) :
    (produce x).outcome d = (fun a => (a, d)) <$> x := by
  apply ExceptT.ext
  simp [outcome, produce]

theorem outcome_within (scope : Scope) (act : Writing ε m α) (d : Draft) :
    (within scope act).outcome d =
      (fun out => (out.1, out.2.exit)) <$> act.outcome (d.enter scope) := by
  apply ExceptT.ext
  simp only [outcome, within, ExceptT.run_mk, ExceptT.run_map, StateT.run_bind, StateT.run_modify,
    StateT.run_pure, pure_bind, bind_assoc, map_bind, map_pure]
  refine bind_congr fun ⟨result, d'⟩ => ?_
  cases result <;> rfl

theorem outcome_capture (act : Writing ε m Unit) (d : Draft) :
    (capture act).outcome d =
      (fun out => (out.2.html, out.2.rewritten d.html)) <$> act.outcome (d.rewritten []) := by
  apply ExceptT.ext
  simp only [outcome, capture, ExceptT.run_mk, ExceptT.run_map, StateT.run_bind, StateT.run_get,
    StateT.run_modify, StateT.run_pure, pure_bind, bind_assoc, map_bind, map_pure]
  refine bind_congr fun ⟨result, d'⟩ => ?_
  cases result <;> rfl

/-! Writers that only append. -/

/-- The draft goes on with a text that is told by the scene, and is left as it was otherwise. -/
def Appends (act : Writing ε m Unit) (text : Scene → ExceptT ε m (List Char)) : Prop :=
  ∀ d, act.outcome d = (fun html => ((), d.push html)) <$> text d.scene

variable {act act' : Writing ε m Unit} {text text' : Scene → ExceptT ε m (List Char)}

omit [LawfulMonad m] in
theorem Appends.congr (h : act.Appends text) (hsame : ∀ s, text s = text' s) : act.Appends text' :=
  fun d => (h d).trans (congrArg _ (hsame d.scene))

theorem appends_pure : (pure () : Writing ε m Unit).Appends fun _ => pure [] := by
  intro d
  simp

theorem appends_push (cs : List Char) : (push cs : Writing ε m Unit).Appends fun _ => pure cs := by
  intro d
  simp

theorem Appends.andThen (h : act.Appends text) (h' : act'.Appends text') :
    Appends (do act; act') fun s => do
      let html ← text s
      return html ++ (← text' s) := by
  intro d
  rw [outcome_bind, h d]
  simp [h' _]

theorem Appends.unless (h : act.Appends text) (skip : Bool) :
    (unless skip do act : Writing ε m Unit).Appends fun s => if skip then pure [] else text s := by
  cases skip with
  | true => exact appends_pure
  | false => exact h

theorem Appends.between (h : act.Appends text) (before after : List Char) :
    Appends (do push before; act; push after) fun s => do
      return before ++ (← text s) ++ after := by
  refine ((appends_push before).andThen (h.andThen (appends_push after))).congr fun s => ?_
  simp

theorem Appends.inElement (h : act.Appends text) (name : String) :
    (pushElement name act).Appends fun s => do return element name (← text s) :=
  h.between _ _

theorem Appends.inText (h : act.Appends text) :
    (within .phrasing act).Appends fun s => text s.inText := by
  intro d
  rw [outcome_within, h, Draft.scene_enter_phrasing, Functor.map_map]
  rfl

theorem Appends.inList (h : act.Appends text) (spread : Bool) (h' : act'.Appends text') :
    Appends (do
      modify (·.enter (.list spread))
      act
      modify Draft.exit
      act') fun s => do
      let html ← text (s.inList spread)
      return html ++ (← text' s) := by
  intro d
  simp only [outcome_bind, outcome_modify, pure_bind, h _, h' _, Draft.scene_enter_list,
    Draft.exit_push_enter, Draft.scene_push, Draft.push_push, map_eq_pure_bind, bind_assoc]

theorem appends_produce (x : ExceptT ε m α) {next : α → Writing ε m Unit}
    {more : α → Scene → ExceptT ε m (List Char)} (h : ∀ a, (next a).Appends (more a)) :
    (produce x >>= next).Appends fun s => x >>= fun a => more a s := by
  intro d
  rw [outcome_bind, outcome_produce, bind_map_left, map_bind]
  exact bind_congr fun a => h a d

theorem appends_produced (x : ExceptT ε m (List Char)) :
    Appends (do push (← produce x)) fun _ => x :=
  (appends_produce x appends_push).congr fun _ => bind_pure x

/-- What is captured stays off the draft. -/
theorem Appends.capture (h : act.Appends text) {next : List Char → Writing ε m Unit}
    {more : List Char → Scene → ExceptT ε m (List Char)}
    (hnext : ∀ html, (next html).Appends (more html)) :
    (Writing.capture act >>= next).Appends fun s => text s >>= fun html => more html s := by
  intro d
  rw [outcome_bind, outcome_capture, h]
  simp only [Functor.map_map, bind_map_left, map_bind, Draft.scene_rewritten, Draft.html_push,
    Draft.rewritten_push_rewritten]
  exact bind_congr fun html => hnext html d

theorem Appends.captured (h : act.Appends text) (make : List Char → ExceptT ε m (List Char)) :
    Appends (do
      let html ← Writing.capture act
      push (← produce (make html))) fun s => text s >>= make :=
  h.capture fun html => appends_produced (make html)

theorem appends_scene {next : Scene → Writing ε m Unit}
    (more : Scene → Scene → ExceptT ε m (List Char)) (h : ∀ s, (next s).Appends (more s)) :
    (scene >>= next).Appends fun s => more s s := by
  intro d
  rw [outcome_bind, outcome_scene, pure_bind]
  exact h d.scene d

theorem appends_pushFor (html : Markdown.Options → List Char) :
    (pushFor html : Writing ε m Unit).Appends fun s => pure (html s.options) :=
  appends_scene _ fun s => appends_push (html s.options)

theorem appends_pushLines (lines : List (List Char)) :
    (pushLines lines : Writing ε m Unit).Appends fun s =>
      pure (Text.join (breakTag s.options ++ ['\n']) (lines.map Html.escapeText)) := by
  induction lines with
  | nil => exact appends_pure
  | cons line lines ih =>
    cases lines with
    | nil => exact appends_push _
    | cons next lines =>
      refine ((appends_push _).andThen ((appends_pushFor _).andThen
        ((appends_push _).andThen ih))).congr fun s => ?_
      simp [Text.join]

theorem appends_pushText (value : List Char) :
    (pushText value : Writing ε m Unit).Appends fun s => pure (writeText s.options value) := by
  -- The options are looked at twice, for the lines and for each break between them.
  refine (appends_scene (fun s s' => pure (if s.options.breaks then
    Text.join (breakTag s'.options ++ ['\n']) ((Text.lines value).map Html.escapeText)
    else Html.escapeText value)) fun s => ?_).congr fun s => rfl
  cases s.options.breaks with
  | true => exact appends_pushLines (Text.lines value)
  | false => exact appends_push (Html.escapeText value)

/-- The language of a code block, as its class. -/
def classText (options : Markdown.Options) : Option String → List Char
  | some lang =>
    " class=\"".toList ++ Html.escapeAttr (options.langPrefix ++ lang).toList ++ "\"".toList
  | none => []

theorem codeBlock_eq (options : Markdown.Options) (value : String) (lang : Option String) :
    codeBlock options value lang = "<pre><code".toList ++ classText options lang ++ ['>'] ++
      Html.escapeText value.toList ++ (if value.isEmpty then [] else ['\n']) ++
        "</code></pre>\n".toList := by
  cases lang <;> rfl

theorem appends_pushClass (lang : Option String) :
    (pushClass lang : Writing ε m Unit).Appends fun s => pure (classText s.options lang) := by
  cases lang with
  | none => exact appends_pure
  | some lang =>
    refine ((appends_pushFor _).between _ _).congr fun s => ?_
    exact pure_bind _ _

theorem appends_pushCode (value : String) (lang : Option String) :
    (pushCode value lang : Writing ε m Unit).Appends fun s =>
      pure (codeBlock s.options value lang) := by
  intro d
  simp only [pushCode, codeBlock_eq, outcome_bind, outcome_push, pure_bind, appends_pushClass lang _,
    map_pure, Draft.push_push, Draft.scene_push, List.append_assoc]

theorem not_endsLine_opening (options : Markdown.Options) (checked : Option Bool) :
    endsLine ("<li>".toList ++ checkbox options checked) = false := by
  unfold checkbox
  cases checked with
  | none => rfl
  | some checked =>
    generalize options.xhtml = xhtml
    cases checked <;> cases xhtml <;> rfl

/-- The end of an item takes back no more than its content wrote. -/
theorem Appends.item (h : act.Appends text) (checked : Option Bool) :
    Appends (do
      push "<li>".toList
      pushFor (checkbox · checked)
      act
      modify Draft.joinLine
      push "</li>\n".toList) fun s => do return itemTag s checked (← text s) := by
  intro d
  simp only [outcome_bind, outcome_push, outcome_modify, appends_pushFor _ _, h _, map_pure, pure_bind,
    bind_map_left, Draft.push_push, Draft.scene_push]
  -- The content stands behind an opening that ends in no line end of its own.
  have hne : "<li>".toList ++ checkbox d.scene.options checked ≠ [] := by simp
  have hopen := not_endsLine_opening d.scene.options checked
  simp only [← List.append_assoc, Draft.joinLine_push d _ hne hopen, itemTag, Draft.push_push,
    map_bind, map_pure]

end Writing

open Writing

variable {ε : Type} {m : Type → Type} [Monad m] [LawfulMonad m]

-- By the recursion of the writer, which goes down the tree as the walk does. Every draft is meant at
-- once, so the children are written where the node has brought its draft to.
mutual

theorem appends_writeNode (p : Productions (ExceptT ε m)) :
    (n : Node) → (writeNode p n).Appends fun s => node p s n
  | .root children => by
    simpa only [writeNode, node] using appends_writeNodes p children
  | .text value => by
    simpa only [writeNode, node] using appends_pushText value.toList
  | .paragraph children => by
    have hchildren := (appends_writeNodes p children).inText
    simp only [writeNode, node]
    refine (appends_scene _ fun s => hchildren.between _ _).congr fun s => ?_
    cases htight : s.tight <;> simp [paragraphTag, htight]
  | .heading depth children => by
    have hchildren := (appends_writeNodes p children).inText
    simp only [writeNode, node]
    refine (hchildren.capture fun html => appends_produce _ fun out =>
      (appends_push out).andThen (appends_push ['\n'])).congr fun s => ?_
    simp
  | .link url title children => by
    simpa only [writeNode, node] using (appends_writeNodes p children).captured _
  | .linkReference identifier _ _ children => by
    have hchildren := appends_writeNodes p children
    simp only [writeNode, node]
    -- The writer looks for the definition first, the walk after it has the children.
    refine (appends_scene (fun s s' => match s.destination? identifier with
      | some d => nodes p s' children >>= p.link d.url.toList (d.title.map String.toList)
      | none => nodes p s' children) fun s => ?_).congr fun s => ?_
    · cases s.destination? identifier with
      | some d => exact hchildren.captured _
      | none => exact hchildren
    · cases s.destination? identifier <;> simp
  | .image url title alt => by
    simpa only [writeNode, node] using appends_produced _
  | .imageReference identifier _ _ alt => by
    simp only [writeNode, node]
    refine appends_scene (fun s _ => match s.destination? identifier with
      | some d => p.image d.url.toList (d.title.map String.toList) alt.toList
      | none => pure (Html.escapeText alt.toList)) fun s => ?_
    cases s.destination? identifier with
    | some d => exact appends_produced _
    | none => exact appends_push _
  | .html value => by
    simp only [writeNode, node]
    refine (appends_produce _ fun html => (appends_push html).andThen
      (appends_scene _ fun s => appends_push _)).congr fun s => bind_congr fun html => ?_
    cases s.phrasing || endsLine html <;> simp
  | .strong children => by
    simpa only [writeNode, node] using (appends_writeNodes p children).inElement "strong"
  | .emphasis children => by
    simpa only [writeNode, node] using (appends_writeNodes p children).inElement "em"
  | .delete children => by
    simpa only [writeNode, node] using (appends_writeNodes p children).inElement "del"
  | .inlineCode value => by
    simp only [writeNode, node]
    refine ((appends_push _).inElement "code").congr fun s => ?_
    simp
  | .lineBreak => by
    simp only [writeNode, node]
    refine ((appends_pushFor breakTag).andThen (appends_push ['\n'])).congr fun s => ?_
    simp
  | .list ordered start spread children => by
    have hchildren := appends_writeNodes p children
    simp only [writeNode, node]
    refine ((appends_push _).andThen (hchildren.inList spread (appends_push _))).congr fun s => ?_
    simp
  | .listItem _ checked children => by
    simpa only [writeNode, node] using (appends_writeNodes p children).item checked
  | .code value lang _ => by
    simpa only [writeNode, node] using appends_pushCode value lang
  | .blockquote children => by
    simpa only [writeNode, node] using (appends_writeNodes p children).between _ _
  | .thematicBreak => by
    simpa only [writeNode, node] using appends_pushFor _
  | .table align children => by
    simpa only [writeNode, node] using (appends_writeTable p align children).between _ _
  | .definition .. | .tableRow _ | .tableCell _ | .footnoteDefinition .. | .footnoteReference .. |
    .math .. | .inlineMath _ | .yaml _ | .toml _ => by
    simpa only [writeNode, node] using appends_pure

theorem appends_writeNodes (p : Productions (ExceptT ε m)) :
    (ns : List Node) → (writeNodes p ns).Appends fun s => nodes p s ns
  | [] => by
    simpa only [writeNodes, nodes] using appends_pure
  | n :: ns => by
    simpa only [writeNodes, nodes] using (appends_writeNode p n).andThen (appends_writeNodes p ns)

theorem appends_writeTable (p : Productions (ExceptT ε m)) (align : List (Option Align)) :
    (ns : List Node) → (writeTable p align ns).Appends fun s => table p s align ns
  | [] => by
    simpa only [writeTable, table] using appends_push _
  | first :: rest => by
    have hbody := ((appends_writeRows p align rest).between "<tbody>\n".toList
      "</tbody>\n".toList).unless rest.isEmpty
    simp only [writeTable, table]
    refine ((appends_writeRow p align true first).andThen
      ((appends_push _).andThen hbody)).congr fun s => bind_congr fun head => ?_
    cases rest with
    | nil => simp [rows]
    | cons n ns => simp

theorem appends_writeRows (p : Productions (ExceptT ε m)) (align : List (Option Align)) :
    (ns : List Node) → (writeRows p align ns).Appends fun s => rows p s align ns
  | [] => by
    simpa only [writeRows, rows] using appends_pure
  | n :: ns => by
    simpa only [writeRows, rows] using
      (appends_writeRow p align false n).andThen (appends_writeRows p align ns)

theorem appends_writeRow (p : Productions (ExceptT ε m)) (align : List (Option Align)) (head : Bool) :
    (n : Node) → (writeRow p align head n).Appends fun s => row p s align head n
  | .tableRow cs => by
    simpa only [writeRow, row] using (appends_writeCells p align head cs).between _ _
  | .root _ | .paragraph _ | .heading .. | .blockquote _ | .list .. | .listItem .. | .code .. |
    .html _ | .thematicBreak | .definition .. | .table .. | .tableCell _ | .text _ |
    .inlineCode _ | .emphasis _ | .strong _ | .delete _ | .lineBreak | .link .. | .image .. |
    .linkReference .. | .imageReference .. | .footnoteDefinition .. | .footnoteReference .. |
    .math .. | .inlineMath _ | .yaml _ | .toml _ => by
    simpa only [writeRow, row] using appends_pure

theorem appends_writeCells (p : Productions (ExceptT ε m)) (align : List (Option Align))
    (head : Bool) : (ns : List Node) →
      (writeCells p align head ns).Appends fun s => cells p s align head ns
  | [] => by
    simpa only [writeCells, cells] using appends_pure
  | n :: ns => by
    simpa only [writeCells, cells] using (appends_writeCell p (align.head?.getD none) head n).andThen
      (appends_writeCells p align.tail head ns)

theorem appends_writeCell (p : Productions (ExceptT ε m)) (align : Option Align) (head : Bool) :
    (n : Node) → (writeCell p align head n).Appends fun s => cell p s align head n
  | .tableCell cs => by
    have hchildren := (appends_writeNodes p cs).inText
    simp only [writeCell, cell]
    refine (hchildren.between _ _).congr fun s => ?_
    simp [cellTag]
  | .root _ | .paragraph _ | .heading .. | .blockquote _ | .list .. | .listItem .. | .code .. |
    .html _ | .thematicBreak | .definition .. | .table .. | .tableRow _ | .text _ |
    .inlineCode _ | .emphasis _ | .strong _ | .delete _ | .lineBreak | .link .. | .image .. |
    .linkReference .. | .imageReference .. | .footnoteDefinition .. | .footnoteReference .. |
    .math .. | .inlineMath _ | .yaml _ | .toml _ => by
    simpa only [writeCell, cell] using appends_pure

end

/-! What is on the draft in the end. -/

theorem Writing.Appends.written {act : Writing ε m Unit} {text : Scene → ExceptT ε m (List Char)}
    (h : act.Appends text) (d : Draft) : act.written d = (d.html ++ ·) <$> text d.scene := by
  unfold Writing.written
  rw [h d, bind_map_left, map_eq_pure_bind]
  rfl

theorem written_blank {act : Writing ε m Unit} {text : Scene → ExceptT ε m (List Char)}
    (h : act.Appends text) (options : Markdown.Options) (defined : List (List Char × Destination)) :
    act.written (.blank options defined) = text ⟨options, defined, false, false⟩ := by
  rw [h.written]
  exact id_map _

theorem nodes_eq_mapM (p : Productions m) (s : Scene) (ns : List Node) :
    nodes p s ns = List.flatten <$> ns.mapM (node p s) := by
  induction ns with
  | nil => simp [nodes]
  | cons n ns ih => simp [nodes, ih]

theorem writeDocument_eq (p : Productions (ExceptT ε m)) (options : Markdown.Options)
    (tree : List Node) : writeDocument p options tree = document p options tree := by
  unfold writeDocument document
  rw [written_blank (appends_writeNodes p tree)]

theorem document_eq_pieces (p : Productions (ExceptT ε m)) {options : Markdown.Options}
    (h : options.smartypants = false) (tree : List Node) : document p options tree = (do
      let pieces ← tree.mapM fun n => (writeNode p n).written (.blank options (allDestinations tree))
      return pieces.flatten) := by
  have hpieces : (fun n => (writeNode p n).written (.blank options (allDestinations tree))) =
      node p ⟨options, allDestinations tree, false, false⟩ := by
    funext n
    exact written_blank (appends_writeNode p n) options (allDestinations tree)
  rw [hpieces, bind_pure_comp, ← nodes_eq_mapM]
  unfold document
  simp [h]

variable {σ : Type}

/-- A run that succeeds is one of the text, on whatever the draft held before. -/
theorem Writing.Appends.run_eq_ok_iff {act : Writing ε (StateM σ) Unit}
    {text : Scene → ExceptT ε (StateM σ) (List Char)} (h : act.Appends text) {d d' : Draft}
    {s s' : σ} : (act.run.run d).run s = ((.ok (), d'), s') ↔
      ∃ html, (text d.scene).run.run s = (.ok html, s') ∧ d' = d.push html := by
  have hrun := congrArg (fun x => (ExceptT.run x).run s) (h d)
  -- Both runs from here on are an outcome and a state, and agree in what is kept of the first.
  rw [outcome_eq] at hrun
  simp only [ExceptT.run_map, ExceptT.run_mk, StateT.run_map] at hrun
  generalize (act.run.run d).run s = wrote at hrun ⊢
  generalize (text d.scene).run.run s = gave at hrun ⊢
  obtain ⟨⟨result, e⟩, t⟩ := wrote
  obtain ⟨answer, t'⟩ := gave
  obtain ⟨hresult, rfl⟩ := Prod.mk.inj hrun
  cases result with
  | error =>
    cases answer with
    | error =>
      constructor
      · rintro ⟨⟩
      · rintro ⟨_, ⟨⟩, -⟩
    | ok html => cases hresult
  | ok =>
    cases answer with
    | error => cases hresult
    | ok html =>
      obtain rfl : e = d.push html := (Prod.mk.inj (Except.ok.inj hresult)).2
      constructor
      · rintro ⟨⟩
        exact ⟨html, rfl, rfl⟩
      · rintro ⟨_, ⟨⟩, rfl⟩
        rfl

/-- Writing a node succeeds where the walk does, and then the draft has the text of the walk behind what
it held and is the same otherwise, scopes included. The text depends on the scene and on the state of the
productions alone. So a document is written as it is rendered, and without typographic punctuation it is
the pieces that its nodes are written as on blank drafts, in order and with the definitions of them all. -/
theorem write_appends (p : Productions (ExceptT ε (StateM σ))) :
    (∀ (n : Node) (options : Markdown.Options) (defined : List (List Char × Destination))
      (scopes : List Scope) (before : List Char) (d : Draft) (s s' : σ),
      ((writeNode p n).run.run ⟨options, defined, scopes, before⟩).run s = ((.ok (), d), s') ↔
        ∃ html, (node p (.inside options defined scopes) n).run.run s = (.ok html, s') ∧
          d = ⟨options, defined, scopes, before ++ html⟩) ∧
    ∀ (options : Markdown.Options) (tree : List Node),
      writeDocument p options tree = document p options tree ∧
      (options.smartypants = false → document p options tree = (do
        let pieces ← tree.mapM fun n => (writeNode p n).written (.blank options (allDestinations tree))
        return pieces.flatten)) := by
  refine ⟨fun n options defined scopes before d s s' => ?_, fun options tree => ⟨?_, fun h => ?_⟩⟩
  · exact (appends_writeNode p n).run_eq_ok_iff
  · exact writeDocument_eq p options tree
  · exact document_eq_pieces p h tree

/-- A quote in a tight list, and a reference in front of its definition. -/
def quotation : List Node :=
  [.list false none false [.listItem false none [.blockquote [.paragraph [.text "a"]]]],
    .paragraph [.linkReference "X" none .full [.text "b"]],
    .definition "x" none "https://x.org" none]

theorem write_appends_quotation :
    let p := Productions.linking {} 0 ⟨"/site"⟩
    let pieces := quotation.mapM fun n => (writeNode p n).written (.blank {} (allDestinations quotation))
    ({} : Markdown.Options).smartypants = false ∧
    document p {} quotation = (do return (← pieces).flatten) ∧
    (pieces.run.run ⟨{}, []⟩).1.toOption = some
      ["<ul>\n<li><blockquote>\na</blockquote></li>\n</ul>\n".toList,
        "<p><a href=\"https://x.org\">b</a></p>\n".toList, []] := by
  intro p pieces
  exact ⟨rfl, ((write_appends p).2 {} quotation).2 rfl, by decide +kernel⟩

end Bindery.Rendering
