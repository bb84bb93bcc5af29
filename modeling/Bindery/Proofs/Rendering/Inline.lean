import Bindery.Proofs.Rendering.Finished
import Bindery.Proofs.Rendering.Uniform
import Bindery.Rendering.Productions

/-! Links and images by identifier against those that are written out. The two are rendered alike but
in headings: the text of a heading has the text that stands for an image, and nothing for an image by
identifier. Where this makes no difference to a heading, writing all references out changes nothing. -/

namespace Bindery

open Markdown
open Markdown.Node (inside within forall_within)

/-- The entry of a heading from its text. -/
def Heading.ofText (options : Markdown.Options) (level : Nat) (text : List Char) : Heading :=
  let (title, marker) := extractMarker text
  ⟨level, String.ofList (Text.trimEnd title),
    (chooseId title marker options.headerIds options.headerPrefix.toList).map String.ofList⟩

namespace Rendering

section

variable (defined : List (List Char × Destination))

mutual

/-- A node with every reference that is defined written out. -/
def inlined : Node → Node
  | .linkReference identifier label kind cs =>
    match defined.lookup (foldIdentifier identifier) with
    | some d => .link d.url d.title (inlinedAll cs)
    | none => .linkReference identifier label kind (inlinedAll cs)
  | .imageReference identifier label kind alt =>
    match defined.lookup (foldIdentifier identifier) with
    | some d => .image d.url d.title alt
    | none => .imageReference identifier label kind alt
  | .root cs => .root (inlinedAll cs)
  | .paragraph cs => .paragraph (inlinedAll cs)
  | .heading depth cs => .heading depth (inlinedAll cs)
  | .blockquote cs => .blockquote (inlinedAll cs)
  | .list ordered start spread cs => .list ordered start spread (inlinedAll cs)
  | .listItem spread checked cs => .listItem spread checked (inlinedAll cs)
  | .table align cs => .table align (inlinedAll cs)
  | .tableRow cs => .tableRow (inlinedAll cs)
  | .tableCell cs => .tableCell (inlinedAll cs)
  | .emphasis cs => .emphasis (inlinedAll cs)
  | .strong cs => .strong (inlinedAll cs)
  | .delete cs => .delete (inlinedAll cs)
  | .link url title cs => .link url title (inlinedAll cs)
  | .footnoteDefinition identifier label cs => .footnoteDefinition identifier label (inlinedAll cs)
  | n => n

def inlinedAll : List Node → List Node
  | [] => []
  | n :: ns => inlined n :: inlinedAll ns

end

mutual

theorem destinations_inlined : (n : Node) → destinations (inlined defined n) = destinations n
  | .linkReference identifier label kind cs => by
    simp only [inlined]
    split <;> exact allDestinations_inlinedAll cs
  | .imageReference identifier label kind alt => by
    simp only [inlined]
    split <;> rfl
  | .root cs | .paragraph cs | .heading _ cs | .blockquote cs | .list _ _ _ cs | .listItem _ _ cs |
    .table _ cs | .tableRow cs | .tableCell cs | .emphasis cs | .strong cs | .delete cs |
    .link _ _ cs | .footnoteDefinition _ _ cs => allDestinations_inlinedAll cs
  | .text _ | .inlineCode _ | .lineBreak | .image .. | .code .. | .html _ | .thematicBreak |
    .definition .. | .footnoteReference .. | .math .. | .inlineMath _ | .yaml _ | .toml _ => rfl

theorem allDestinations_inlinedAll : (ns : List Node) →
    allDestinations (inlinedAll defined ns) = allDestinations ns
  | [] => rfl
  | n :: ns => by
    rw [inlinedAll, allDestinations, allDestinations, destinations_inlined n,
      allDestinations_inlinedAll ns]

end

/-- An image by identifier that is defined, with a text that stands for it. -/
def Pictured : Node → Prop
  | .imageReference identifier _ _ alt =>
    (defined.lookup (foldIdentifier identifier)).isSome ∧ alt ≠ ""
  | _ => False

mutual

theorem plainText_inlined : (n : Node) → ¬ Pictured defined n →
    (∀ m ∈ inside n, ¬ Pictured defined m) → plainText (inlined defined n) = plainText n
  | .linkReference identifier label kind cs, _, hcs => by
    simp only [inlined]
    split <;> exact plainTexts_inlinedAll cs hcs
  | .imageReference identifier label kind alt, h, _ => by
    simp only [inlined]
    split
    · next d hd =>
      have halt : alt = "" :=
        Classical.byContradiction fun hne => h ⟨by rw [hd]; rfl, hne⟩
      rw [halt]
      rfl
    · rfl
  | .root cs, _, hcs | .paragraph cs, _, hcs | .heading _ cs, _, hcs | .blockquote cs, _, hcs |
    .list _ _ _ cs, _, hcs | .listItem _ _ cs, _, hcs | .table _ cs, _, hcs | .tableRow cs, _, hcs |
    .tableCell cs, _, hcs | .emphasis cs, _, hcs | .strong cs, _, hcs | .delete cs, _, hcs |
    .link _ _ cs, _, hcs | .footnoteDefinition _ _ cs, _, hcs => plainTexts_inlinedAll cs hcs
  | .text _, _, _ | .inlineCode _, _, _ | .lineBreak, _, _ | .image .., _, _ | .code .., _, _ |
    .html _, _, _ | .thematicBreak, _, _ | .definition .., _, _ | .footnoteReference .., _, _ |
    .math .., _, _ | .inlineMath _, _, _ | .yaml _, _, _ | .toml _, _, _ => rfl

theorem plainTexts_inlinedAll : (ns : List Node) → (∀ m ∈ within ns, ¬ Pictured defined m) →
    plainTexts (inlinedAll defined ns) = plainTexts ns
  | [], _ => rfl
  | n :: ns, h => by
    obtain ⟨hn, hinside, hns⟩ := forall_within h
    rw [inlinedAll, plainTexts, plainTexts, plainText_inlined n hn hinside,
      plainTexts_inlinedAll ns hns]

end

/-- Without a picture by identifier, the text stays. -/
theorem textOf_inlinedAll {ns : List Node} (h : ∀ m ∈ within ns, ¬ Pictured defined m) :
    textOf (inlinedAll defined ns) = textOf ns := congrArg Text.trim (plainTexts_inlinedAll defined ns h)

/-- The marker and the title of a heading are the same when its references are written out. -/
def Alike : Finished → Prop
  | .heading _ cs =>
    Heading.extractMarker (textOf (inlinedAll defined cs)) = Heading.extractMarker (textOf cs)
  | .reference _ => True

end

variable {m : Type → Type} [Monad m]

/-- A relation between computations whose values are the same if `e` holds. -/
structure Following (e : Prop) (R : ∀ α : Type, List Finished → m α → m α → Prop) : Prop where
  pure {α : Type} (a a' : α) (h : e → a = a') : R _ [] (Pure.pure a) (Pure.pure a')
  bind {α β : Type} {fs gs : List Finished} {x x' : m α} {h k : α → m β} :
    R _ fs x x' → (∀ a a', (e → a = a') → R _ gs (h a) (k a')) → R _ (fs ++ gs) (x >>= h) (x' >>= k)

/-- Each production follows itself, also over the text of a heading that is written out. -/
structure Followed (e : Prop) (R : ∀ α : Type, List Finished → m α → m α → Prop)
    (defined : List (List Char × Destination)) (p : Productions m) : Prop where
  heading (level : Nat) (html html' : List Char) (cs : List Node) (hhtml : e → html = html')
    (hcs : e → Alike defined (.heading level cs)) : R _ [.heading level cs]
      (p.heading level html (textOf cs)) (p.heading level html' (textOf (inlinedAll defined cs)))
  link (url : String) (title : Option String) (html html' : List Char) (hhtml : e → html = html') :
    R _ [.reference url] (p.link url.toList (title.map String.toList) html)
      (p.link url.toList (title.map String.toList) html')
  image (url : String) (title : Option String) (alt : List Char) :
    R _ [.reference url] (p.image url.toList (title.map String.toList) alt)
      (p.image url.toList (title.map String.toList) alt)
  html (markup : List Char) : R _ [] (p.html markup) (p.html markup)

section

variable {e : Prop} {R : ∀ α : Type, List Finished → m α → m α → Prop} {p : Productions m}

theorem Following.map {α β : Type} (hR : Following e R) {fs : List Finished} {x x' : m α}
    (h : R _ fs x x') (g : α → β) :
    R _ fs (x >>= fun a => Pure.pure (g a)) (x' >>= fun a => Pure.pure (g a)) := by
  have hbind := hR.bind h fun a a' ha => hR.pure (g a) (g a') fun he => congrArg g (ha he)
  rwa [List.append_nil] at hbind

theorem Following.append (hR : Following e R) {fs gs : List Finished} {x x' y y' : m (List Char)}
    (g : List Char → List Char → List Char) (h : R _ fs x x') (h' : R _ gs y y') :
    R _ (fs ++ gs) (x >>= fun a => y >>= fun b => Pure.pure (g a b))
      (x' >>= fun a => y' >>= fun b => Pure.pure (g a b)) := by
  refine hR.bind h fun a a' ha => ?_
  have hbind := hR.bind h' fun b b' hb =>
    hR.pure (g a b) (g a' b') fun he => by rw [ha he, hb he]
  rwa [List.append_nil] at hbind

mutual

theorem node_followed (hR : Following e R) (s : Scene) (hp : Followed e R s.defined p) :
    (n : Node) → (e → ∀ x ∈ finished s.defined n, Alike s.defined x) →
      R _ (finished s.defined n) (node p s n) (node p s (inlined s.defined n))
  | .text _, _ | .inlineCode _, _ | .lineBreak, _ | .code .., _ | .thematicBreak, _ |
    .definition .., _ | .footnoteReference .., _ | .math .., _ | .inlineMath _, _ | .yaml _, _ |
    .toml _, _ | .tableRow _, _ | .tableCell _, _ | .footnoteDefinition .., _ =>
    hR.pure _ _ fun _ => rfl
  | .html value, _ => hR.map (hp.html value.toList) _
  | .root cs, h => nodes_followed hR s hp cs h
  | .paragraph cs, h => hR.map (nodes_followed hR s.inText hp cs h) _
  | .heading level cs, h => by
    have hbefore := nodes_followed hR s.inText hp cs fun he x hx => h he x (List.mem_append_left _ hx)
    refine hR.bind hbefore fun html html' hhtml => ?_
    exact hR.map (hp.heading level html html' cs hhtml fun he =>
      h he _ (List.mem_append_right _ List.mem_cons_self)) _
  | .link url title cs, h => by
    have hbefore := nodes_followed hR s hp cs fun he x hx => h he x (List.mem_append_left _ hx)
    exact hR.bind hbefore fun html html' hhtml => hp.link url title html html' hhtml
  | .linkReference identifier label kind cs, h => by
    have hbefore := nodes_followed hR s hp cs fun he x hx => h he x (List.mem_append_left _ hx)
    simp only [inlined, finished, node, s.referenced_eq]
    cases hd : s.defined.lookup (foldIdentifier identifier) with
    | none =>
      simp only [node, Scene.destination?, hd]
      exact hR.bind hbefore fun html html' hhtml => hR.pure html html' hhtml
    | some d =>
      simp only [node, Scene.destination?, hd]
      exact hR.bind hbefore fun html html' hhtml => hp.link d.url d.title html html' hhtml
  | .image url title alt, _ => hp.image url title alt.toList
  | .imageReference identifier label kind alt, _ => by
    simp only [inlined, finished, node, s.referenced_eq]
    cases hd : s.defined.lookup (foldIdentifier identifier) with
    | none =>
      simp only [node, Scene.destination?, hd]
      exact hR.pure _ _ fun _ => rfl
    | some d =>
      simp only [node, Scene.destination?, hd]
      exact hp.image d.url d.title alt.toList
  | .strong cs, h | .emphasis cs, h | .delete cs, h | .blockquote cs, h | .listItem _ _ cs, h =>
    hR.map (nodes_followed hR s hp cs h) _
  | .list _ _ spread cs, h => hR.map (nodes_followed hR (s.inList spread) hp cs h) _
  | .table align cs, h => hR.map (table_followed hR s hp align cs h) _

theorem nodes_followed (hR : Following e R) (s : Scene) (hp : Followed e R s.defined p) :
    (ns : List Node) → (e → ∀ x ∈ finishedAll s.defined ns, Alike s.defined x) →
      R _ (finishedAll s.defined ns) (nodes p s ns) (nodes p s (inlinedAll s.defined ns))
  | [], _ => hR.pure _ _ fun _ => rfl
  | n :: ns, h =>
    hR.append _ (node_followed hR s hp n fun he x hx => h he x (List.mem_append_left _ hx))
      (nodes_followed hR s hp ns fun he x hx => h he x (List.mem_append_right _ hx))

theorem table_followed (hR : Following e R) (s : Scene) (hp : Followed e R s.defined p)
    (align : List (Option Align)) :
    (ns : List Node) → (e → ∀ x ∈ finishedRows s.defined ns, Alike s.defined x) →
      R _ (finishedRows s.defined ns) (table p s align ns) (table p s align (inlinedAll s.defined ns))
  | [], _ => hR.pure _ _ fun _ => rfl
  | n :: ns, h => by
    have hempty : (inlinedAll s.defined ns).isEmpty = ns.isEmpty := by cases ns <;> rfl
    simp only [table, inlinedAll, hempty]
    exact hR.append _
      (row_followed hR s hp align true n fun he x hx => h he x (List.mem_append_left _ hx))
      (rows_followed hR s hp align ns fun he x hx => h he x (List.mem_append_right _ hx))

theorem rows_followed (hR : Following e R) (s : Scene) (hp : Followed e R s.defined p)
    (align : List (Option Align)) :
    (ns : List Node) → (e → ∀ x ∈ finishedRows s.defined ns, Alike s.defined x) →
      R _ (finishedRows s.defined ns) (rows p s align ns) (rows p s align (inlinedAll s.defined ns))
  | [], _ => hR.pure _ _ fun _ => rfl
  | n :: ns, h =>
    hR.append _ (row_followed hR s hp align false n fun he x hx => h he x (List.mem_append_left _ hx))
      (rows_followed hR s hp align ns fun he x hx => h he x (List.mem_append_right _ hx))

theorem row_followed (hR : Following e R) (s : Scene) (hp : Followed e R s.defined p)
    (align : List (Option Align)) (head : Bool) :
    (n : Node) → (e → ∀ x ∈ finishedRow s.defined n, Alike s.defined x) →
      R _ (finishedRow s.defined n) (row p s align head n) (row p s align head (inlined s.defined n))
  | .tableRow cs, h => hR.map (cells_followed hR s hp align head cs h) _
  | .linkReference .., _ | .imageReference .., _ => by
    simp only [inlined]
    split <;> exact hR.pure _ _ fun _ => rfl
  | .root _, _ | .paragraph _, _ | .heading .., _ | .blockquote _, _ | .list .., _ |
    .listItem .., _ | .code .., _ | .html _, _ | .thematicBreak, _ | .definition .., _ |
    .table .., _ | .tableCell _, _ | .text _, _ | .inlineCode _, _ | .emphasis _, _ |
    .strong _, _ | .delete _, _ | .lineBreak, _ | .link .., _ | .image .., _ |
    .footnoteDefinition .., _ | .footnoteReference .., _ | .math .., _ | .inlineMath _, _ |
    .yaml _, _ | .toml _, _ => hR.pure _ _ fun _ => rfl

theorem cells_followed (hR : Following e R) (s : Scene) (hp : Followed e R s.defined p)
    (align : List (Option Align)) (head : Bool) :
    (ns : List Node) → (e → ∀ x ∈ finishedCells s.defined ns, Alike s.defined x) →
      R _ (finishedCells s.defined ns) (cells p s align head ns)
        (cells p s align head (inlinedAll s.defined ns))
  | [], _ => hR.pure _ _ fun _ => rfl
  | n :: ns, h =>
    hR.append _ (cell_followed hR s hp (align.head?.getD none) head n fun he x hx =>
        h he x (List.mem_append_left _ hx))
      (cells_followed hR s hp align.tail head ns fun he x hx => h he x (List.mem_append_right _ hx))

theorem cell_followed (hR : Following e R) (s : Scene) (hp : Followed e R s.defined p)
    (align : Option Align) (head : Bool) :
    (n : Node) → (e → ∀ x ∈ finishedCell s.defined n, Alike s.defined x) →
      R _ (finishedCell s.defined n) (cell p s align head n)
        (cell p s align head (inlined s.defined n))
  | .tableCell cs, h => hR.map (nodes_followed hR s.inText hp cs h) _
  | .linkReference .., _ | .imageReference .., _ => by
    simp only [inlined]
    split <;> exact hR.pure _ _ fun _ => rfl
  | .root _, _ | .paragraph _, _ | .heading .., _ | .blockquote _, _ | .list .., _ |
    .listItem .., _ | .code .., _ | .html _, _ | .thematicBreak, _ | .definition .., _ |
    .table .., _ | .tableRow _, _ | .text _, _ | .inlineCode _, _ | .emphasis _, _ |
    .strong _, _ | .delete _, _ | .lineBreak, _ | .link .., _ | .image .., _ |
    .footnoteDefinition .., _ | .footnoteReference .., _ | .math .., _ | .inlineMath _, _ |
    .yaml _, _ | .toml _, _ => hR.pure _ _ fun _ => rfl

end

end

/-- The headings of a document that are rendered, with their levels. -/
def captions (fs : List Finished) : List (Nat × List Node) :=
  fs.filterMap fun
    | .heading level cs => some (level, cs)
    | .reference _ => none

theorem alike_of_not_pictured {defined : List (List Char × Destination)} {fs : List Finished}
    (h : ∀ level cs, (level, cs) ∈ captions fs → ∀ n ∈ within cs, ¬ Pictured defined n) :
    ∀ x ∈ fs, Alike defined x := by
  rintro (⟨level, cs⟩ | url) hx
  · have hmem : (level, cs) ∈ captions fs := List.mem_filterMap.2 ⟨_, hx, rfl⟩
    exact congrArg Heading.extractMarker (textOf_inlinedAll defined (h level cs hmem))
  · trivial

theorem captions_append (fs gs : List Finished) : captions (fs ++ gs) = captions fs ++ captions gs :=
  List.filterMap_append

section

variable (options : Markdown.Options) (defined : List (List Char × Destination)) (e : Prop)

/-- The entries of headings, from their text as it is or with its references written out. -/
def entries (text : List Node → List Char) (fs : List Finished) : List Heading :=
  (captions fs).map fun c => Heading.ofText options c.1 (text c.2)

theorem entries_append (text : List Node → List Char) (fs gs : List Finished) :
    entries options text (fs ++ gs) = entries options text fs ++ entries options text gs := by
  rw [entries, captions_append, List.map_append, ← entries, ← entries]

/-- The results of two computations with the entries that they add: both fail in the same way, or
each adds those of the headings that are finished. -/
inductive Ended {α : Type} (fs : List Finished) :
    Except MarkupError α × List Heading → Except MarkupError α × List Heading → Prop
  | fault (error : MarkupError) (added added' : List Heading) (h : e → added = added') :
    Ended fs (.error error, added) (.error error, added')
  | done (a a' : α) (h : e → a = a')
    (hadded : e → entries options textOf fs = entries options (textOf <| inlinedAll defined ·) fs) :
    Ended fs (.ok a, entries options textOf fs)
      (.ok a', entries options (textOf <| inlinedAll defined ·) fs)

variable {options defined e} in
theorem Ended.eq {α : Type} {fs : List Finished} {out out' : Except MarkupError α × List Heading}
    (h : Ended options defined e fs out out') (he : e) : out' = out := by
  cases h with
  | fault error added added' hadded => rw [hadded he]
  | done a a' ha hadded => rw [ha he, hadded he]

/-- Two computations that do the same to the registries, and end alike. -/
def Parallel (α : Type) (fs : List Finished) (x x' : Productions.Linking α) : Prop :=
  ∀ store outline outline', ∃ (store' : Store) (out out' : Except MarkupError α × List Heading),
    x.run.run ⟨store, outline⟩ = (out.1, ⟨store', outline ++ out.2⟩) ∧
    x'.run.run ⟨store, outline'⟩ = (out'.1, ⟨store', outline' ++ out'.2⟩) ∧
    Ended options defined e fs out out'

theorem following_parallel : Following e (Parallel options defined e) where
  pure {α} a a' h store outline outline' := by
    refine ⟨store, (.ok a, []), (.ok a', []), ?_, ?_, .done a a' h fun _ => rfl⟩
    · rw [List.append_nil]
      rfl
    · rw [List.append_nil]
      rfl
  bind {α β fs gs x x' h k} hx hrest store outline outline' := by
    obtain ⟨store', out, out', hrun, hrun', hended⟩ := hx store outline outline'
    have hbind : ∀ (y : Productions.Linking α) (f : α → Productions.Linking β) recording,
        (y >>= f).run.run recording = (ExceptT.bindCont f (y.run.run recording).1 :
          StateM Productions.Recording _) (y.run.run recording).2 := fun _ _ _ => rfl
    rw [hbind, hbind, hrun, hrun']
    cases hended with
    | fault error added added' hadded =>
      exact ⟨store', (.error error, added), (.error error, added'), rfl, rfl,
        .fault error added added' hadded⟩
    | done a a' ha hadded =>
      obtain ⟨store'', last, last', hlast, hlast', hended⟩ := hrest a a' ha store'
        (outline ++ entries options textOf fs)
        (outline' ++ entries options (textOf <| inlinedAll defined ·) fs)
      refine ⟨store'', (last.1, entries options textOf fs ++ last.2),
        (last'.1, entries options (textOf <| inlinedAll defined ·) fs ++ last'.2), ?_, ?_, ?_⟩
      · rw [← List.append_assoc]
        exact hlast
      · rw [← List.append_assoc]
        exact hlast'
      · cases hended with
        | fault error added added' hlater =>
          exact .fault error _ _ fun he => by rw [hadded he, hlater he]
        | done b b' hb hlater =>
          rw [← entries_append, ← entries_append]
          exact .done b b' hb fun he => by
            rw [entries_append, entries_append, hadded he, hlater he]

/-- Computations that leave the outline alone, whatever it is. -/
def Silent (α : Type) (x : RegistryId → Productions.Linking α) : Prop :=
  ∀ r store, ∃ (result : Except MarkupError α) (store' : Store),
    ∀ outline, (x r).run.run ⟨store, outline⟩ = (result, ⟨store', outline⟩)

theorem sequential_silent : Sequential Silent where
  pure a _ store := ⟨.ok a, store, fun _ => rfl⟩
  bind {α β x f} hx hf r store := by
    obtain ⟨result, store', hrun⟩ := hx r store
    have hbind : ∀ outline, (x r >>= f r).run.run ⟨store, outline⟩ =
        (ExceptT.bindCont (f r) result : StateM Productions.Recording _) ⟨store', outline⟩ := by
      intro outline
      change (ExceptT.bindCont (f r) ((x r).run.run ⟨store, outline⟩).1 :
        StateM Productions.Recording _) ((x r).run.run ⟨store, outline⟩).2 = _
      rw [hrun]
    cases result with
    | error error => exact ⟨.error error, store', hbind⟩
    | ok a =>
      obtain ⟨result', store'', hrun'⟩ := hf a r store'
      exact ⟨result', store'', fun outline => (hbind outline).trans (hrun' outline)⟩

theorem silent_linkFile (base : Path) (target : List Char) :
    Silent _ fun r => Productions.linkFile r base target :=
  fun r store => ⟨.ok (Productions.register r base target store).2,
    (Productions.register r base target store).1, fun _ => rfl⟩

theorem silent_reference (base : Path) (href : List Char) :
    Silent _ fun r => Productions.reference r base href := by
  unfold Productions.reference
  cases Html.Reference.localTarget href with
  | none => exact sequential_silent.pure href
  | some target => exact silent_linkFile base target

theorem silent_titleAttrs (title : Option (List Char)) :
    Silent _ fun _ => (Productions.titleAttrs title : Productions.Linking _) :=
  fun _ store => ⟨Productions.titleAttrs title, store, fun _ => rfl⟩

variable {options defined e}

theorem Parallel.of_silent {α : Type} {x : RegistryId → Productions.Linking α} (h : Silent α x)
    (r : RegistryId) {fs : List Finished} (hfs : captions fs = []) :
    Parallel options defined e α fs (x r) (x r) := by
  intro store outline outline'
  obtain ⟨result, store', hrun⟩ := h r store
  have hnone : ∀ text, entries options text fs = [] := fun text => by rw [entries, hfs]; rfl
  refine ⟨store', (result, []), (result, []), ?_, ?_, ?_⟩
  · rw [hrun, List.append_nil]
  · rw [hrun, List.append_nil]
  · cases result with
    | error error => exact .fault error [] [] fun _ => rfl
    | ok a =>
      have hdone : Ended options defined e fs (.ok a, entries options textOf fs)
          (.ok a, entries options (textOf <| inlinedAll defined ·) fs) :=
        .done a a (fun _ => rfl) fun _ => by rw [hnone, hnone]
      rwa [hnone, hnone] at hdone

variable (options defined e)

/-- A tag with the attributes that a title asks for. -/
theorem parallel_titled (title : Option (List Char))
    (tag tag' : List Char → Option (List Char) → List Char) (h : e → tag = tag') :
    Parallel options defined e _ [] (do
      let (attrs, title) ← Productions.titleAttrs title
      return tag attrs title : Productions.Linking (List Char)) (do
      let (attrs, title) ← Productions.titleAttrs title
      return tag' attrs title : Productions.Linking (List Char)) := by
  have hR := following_parallel options defined e
  have hattrs : Parallel options defined e _ [] (Productions.titleAttrs title : Productions.Linking _)
      (Productions.titleAttrs title) := .of_silent (silent_titleAttrs title) 0 rfl
  exact hR.bind hattrs fun x x' hx => hR.pure (tag x.1 x.2) (tag' x'.1 x'.2) fun he => by
    rw [hx he, h he]

/-- What a heading is written as, from its title and marker. -/
def headingMarkup (level : Nat) (html : List Char) (split : List Char × Option (List Char)) :
    List Char :=
  Html.headingTag level
    (Heading.chooseId split.1 split.2 options.headerIds options.headerPrefix.toList)
    (if split.2.isSome then Heading.stripMarker html else html)

theorem run_heading (r : RegistryId) (base : Path) (level : Nat) (html raw : List Char)
    (store : Store) (outline : List Heading) :
    ((Productions.linking options r base).heading level html raw).run.run ⟨store, outline⟩ =
      (.ok (headingMarkup options level html (Heading.extractMarker raw)),
        ⟨store, outline ++ [Heading.ofText options level raw]⟩) := rfl

theorem followed_linking (r : RegistryId) (base : Path) :
    Followed e (Parallel options defined e) defined (Productions.linking options r base) where
  heading level html html' cs hhtml hcs store outline outline' := by
    have hsplit : e → Heading.extractMarker (textOf (inlinedAll defined cs)) =
      Heading.extractMarker (textOf cs) := hcs
    refine ⟨store, (.ok _, [_]), (.ok _, [_]), run_heading .., run_heading .., .done _ _ ?_ ?_⟩
    · intro he
      rw [hsplit he, hhtml he]
    · intro he
      have hentry : Heading.ofText options level (textOf cs) =
          Heading.ofText options level (textOf (inlinedAll defined cs)) := by
        unfold Heading.ofText
        rw [hsplit he]
      exact congrArg (fun entry => [entry]) hentry
  link url title html html' hhtml := by
    have hreference : Parallel options defined e _ [.reference url]
        (Productions.reference r base url.toList) (Productions.reference r base url.toList) :=
      .of_silent (silent_reference base url.toList) r rfl
    exact (following_parallel options defined e).bind hreference fun href href' hhref =>
      parallel_titled options defined e (title.map String.toList)
        (fun attrs title => Html.anchorTag attrs href title html)
        (fun attrs title => Html.anchorTag attrs href' title html') fun he => by
          rw [hhref he, hhtml he]
  image url title alt := Parallel.of_silent
    (sequential_silent.bind (silent_reference base url.toList) fun src =>
      sequential_silent.bind (silent_titleAttrs (title.map String.toList)) fun x =>
        sequential_silent.pure (Html.imageTag x.1 src x.2 alt options.xhtml)) r rfl
  html markup := Parallel.of_silent
    (Html.Reference.redirect_all sequential_silent (silent_linkFile base) markup) r rfl

end

/-- A document with every reference that is defined in it written out. -/
def inlinedIn (tree : List Node) : List Node := inlinedAll (allDestinations tree) tree

theorem linkedDocument_parallel (options : Markdown.Options) (r : RegistryId) (base : Path)
    (store : Store) (tree : List Node) (e : Prop)
    (h : e → ∀ x ∈ finishedIn tree, Alike (allDestinations tree) x) :
    ∃ (store' : Store) (out out' : Except MarkupError (List Char) × List Heading),
      linkedDocument options r base store tree = (out.1, ⟨store', out.2⟩) ∧
      linkedDocument options r base store (inlinedIn tree) = (out'.1, ⟨store', out'.2⟩) ∧
      Ended options (allDestinations tree) e (finishedIn tree) out out' := by
  have hR := following_parallel options (allDestinations tree) e
  have hwalk := hR.map (nodes_followed hR ⟨options, allDestinations tree, false, false⟩
      (followed_linking options _ e r base) tree h)
    fun html => if options.smartypants then Html.Typography.educateMarkup html else html
  obtain ⟨store', out, out', hrun, hrun', hended⟩ := hwalk store [] []
  refine ⟨store', out, out', hrun, ?_, hended⟩
  unfold linkedDocument document
  rw [inlinedIn, allDestinations_inlinedAll]
  exact hrun'

/-- Writing out the references of a document changes nothing in the registries and in the faults that
are found, and nothing at all when each rendered heading has the same title and marker from its text
as it is written out. Of a document without faults the outline stays exactly when each has the same
title and id. -/
theorem linkedDocument_inlined (options : Markdown.Options) (r : RegistryId) (base : Path)
    (store : Store) (tree : List Node) :
    (linkedDocument options r base store (inlinedIn tree)).2.store =
        (linkedDocument options r base store tree).2.store ∧
      (∀ error, (linkedDocument options r base store (inlinedIn tree)).1 = .error error ↔
        (linkedDocument options r base store tree).1 = .error error) ∧
      ((∀ x ∈ finishedIn tree, Alike (allDestinations tree) x) →
        linkedDocument options r base store (inlinedIn tree) =
          linkedDocument options r base store tree) ∧
      ((∃ html, (linkedDocument options r base store tree).1 = .ok html) →
        ((linkedDocument options r base store (inlinedIn tree)).2.outline =
            (linkedDocument options r base store tree).2.outline ↔
          ∀ level cs, (level, cs) ∈ captions (finishedIn tree) →
            Heading.ofText options level (textOf (inlinedAll (allDestinations tree) cs)) =
              Heading.ofText options level (textOf cs))) := by
  obtain ⟨store', out, out', hrun, hrun', hended⟩ :=
    linkedDocument_parallel options r base store tree False False.elim
  refine ⟨by rw [hrun, hrun'], fun error => ?_, fun halike => ?_, fun ⟨html, hok⟩ => ?_⟩
  · rw [hrun, hrun']
    cases hended <;> simp
  · obtain ⟨store', out, out', hrun, hrun', hended⟩ :=
      linkedDocument_parallel options r base store tree True fun _ => halike
    rw [hrun, hrun', hended.eq trivial]
  · rw [hrun] at hok
    rw [hrun, hrun']
    cases hended with
    | fault error added added' => exact absurd hok nofun
    | done a a' =>
      simp only [entries, List.map_inj_left, Prod.forall]

/-- A heading with a link by identifier, and a picture by identifier outside of headings. -/
def handbook : List Node :=
  [.heading 1 [.linkReference "A" none .full [.text "Start"], .text " \x7b\x23top\x7d"],
    .paragraph [.imageReference "a" none .full "pic"], .definition "a" none "a.png" none]

theorem linkedDocument_inlined_handbook :
    (∀ x ∈ finishedIn handbook, Alike (allDestinations handbook) x) ∧
      linkedDocument {} (Store.newRoot {}).2 ⟨"/site"⟩ (Store.newRoot {}).1 (inlinedIn handbook) =
        linkedDocument {} (Store.newRoot {}).2 ⟨"/site"⟩ (Store.newRoot {}).1 handbook := by
  have hcaptions : captions (finishedIn handbook) =
      [(1, [.linkReference "A" none .full [.text "Start"], .text " \x7b\x23top\x7d"])] := rfl
  have halike : ∀ x ∈ finishedIn handbook, Alike (allDestinations handbook) x := by
    refine alike_of_not_pictured fun level cs hmem => ?_
    rw [hcaptions, List.mem_singleton] at hmem
    obtain ⟨rfl, rfl⟩ := Prod.mk.inj hmem
    simp [within, inside, Pictured]
  obtain ⟨-, -, hsame, -⟩ :=
    linkedDocument_inlined {} (Store.newRoot {}).2 ⟨"/site"⟩ (Store.newRoot {}).1 handbook
  exact ⟨halike, hsame halike⟩

end Rendering
end Bindery
