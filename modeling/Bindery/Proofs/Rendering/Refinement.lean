import Bindery.Proofs.Asset.Record
import Bindery.Proofs.Marker
import Bindery.Proofs.Project.References
import Bindery.Proofs.Rendering.Finished
import Bindery.Proofs.Rendering.Mentions
import Bindery.Proofs.Text.Trim

/-! Linking productions against plain ones. On a document that asks nothing special of its headings
and titles they write what plain ones write with the token of every local file in its place, and they
record what the document finishes: the files it refers to, and its headings. -/

namespace Bindery

open Markdown
open Markdown.Node (relinkAll inside within)

namespace Store

/-- An asset that was registered on a root by its path alone. -/
def assetNamed (origin : String) : Asset where
  source := ⟨origin⟩
  token := .ofOrigin origin
  isMaster := true

/-- Origins as registrations on the first registry. -/
def unsourced (origins : List String) : List Registration := origins.map fun o => ⟨0, o, none⟩

variable {origins : List String}

theorem origins_unsourced (origins : List String) :
    (unsourced origins).map (·.origin) = origins := by
  rw [unsourced, List.map_map]
  exact List.map_id _

theorem recordOf_unsourced (origins : List String) (origin : String) :
    recordOf (unsourced origins) origin = assetNamed origin := by
  have hnone : lastSource (unsourced origins) origin = none := by
    have hall : ((unsourced origins).filter (·.origin = origin)).filterMap (·.source) = [] := by
      rw [List.filterMap_eq_nil_iff]
      intro g hg
      obtain ⟨o, -, rfl⟩ := List.mem_map.1 (List.mem_of_mem_filter hg)
      rfl
    rw [lastSource, hall]
    rfl
  rw [recordOf, hnone]
  rfl

theorem recorded_registerAll (hinj : Set.InjOn Token.ofOrigin {o | o ∈ origins}) :
    ((newRoot {}).1.registerAll 0 origins).Recorded (unsourced origins) := by
  induction origins using List.reverseRecOn with
  | nil => exact recorded_newRoot
  | append_singleton origins origin ih =>
    have hbefore := ih (hinj.mono fun o ho => List.mem_append_left _ ho)
    have hconcat : unsourced (origins ++ [origin]) = unsourced origins ++ [⟨0, origin, none⟩] :=
      List.map_append
    rw [hconcat, registerAll, List.foldl_append]
    refine hbefore.register ⟨0, origin, none⟩ hbefore.descends.pos ?_
    rwa [← hconcat, origins_unsourced]

/-- With a token for each origin, the first of every token are the first of every origin. -/
theorem firstOrigins_of_injOn (hinj : Set.InjOn Token.ofOrigin {o | o ∈ origins}) :
    firstOrigins [] origins = origins.eraseDups := by
  induction origins using List.reverseRecOn with
  | nil => rfl
  | append_singleton origins origin ih =>
    have hbefore := ih (hinj.mono fun o ho => List.mem_append_left _ ho)
    have hknown : Token.ofOrigin origin ∈ origins.eraseDups.map Token.ofOrigin ↔
        origin ∈ origins.eraseDups := by
      refine ⟨fun h => ?_, List.mem_map_of_mem⟩
      obtain ⟨o, ho, htoken⟩ := List.mem_map.1 h
      have hsame : o = origin :=
        hinj (List.mem_append_left _ (List.mem_eraseDups.1 ho)) (by simp) htoken
      exact hsame ▸ ho
    calc firstOrigins [] (origins ++ [origin])
        = keepFirst (firstOrigins [] origins) origin := by
          rw [firstOrigins, List.foldl_append]
          rfl
      _ = (origins ++ [origin]).eraseDups := by
          rw [hbefore, eraseDups_concat]
          simp only [keepFirst, hknown]

/-- A new root holds what is registered on it, each origin once and in order of first use. -/
theorem assetsOf_registerAll (hinj : Set.InjOn Token.ofOrigin {o | o ∈ origins}) :
    ((newRoot {}).1.registerAll 0 origins).assetsOf 0 = origins.eraseDups.map assetNamed := by
  have hsources := sources_registerAll origins
  have hentry := (recorded_registerAll hinj).entry
  rw [firstOrigins_of_injOn hinj] at hsources
  generalize (newRoot {}).1.registerAll 0 origins = s at hsources hentry
  have hnamed : ∀ a ∈ s.assetsOf 0, assetNamed a.source.text = a := by
    intro a ha
    obtain ⟨slot, hslot, hasset⟩ := List.mem_filterMap.1 ha
    obtain ⟨origin, -, -, hrecord⟩ := hentry slot hslot
    rw [recordOf_unsourced] at hrecord
    obtain rfl : assetNamed origin = a := Option.some.inj (hrecord.symm.trans hasset)
    rfl
  calc s.assetsOf 0
      = (s.assetsOf 0).map fun a => assetNamed a.source.text := by
        rw [List.map_congr_left hnamed]
        exact (List.map_id' _).symm
    _ = ((s.assetsOf 0).map (·.source)).map fun p => assetNamed p.text := by
        rw [List.map_map]
        rfl
    _ = origins.eraseDups.map assetNamed := by
        rw [hsources, List.map_map]
        rfl

end Store

namespace Productions

/-- A reference with a token in place of the local file that it names, read from `base`. -/
def tokened (base : Path) (url : String) : String :=
  match Html.Reference.localTarget url.toList with
  | some target => (Token.ofOrigin (base.resolve ⟨String.ofList target⟩).text).text
  | none => url

end Productions

namespace Rendering

open Productions (originsOf originsOf_append tokened)

namespace Finished

def url? : Finished → Option (List Char)
  | heading .. => none
  | reference url => some url.toList

/-- The entry of a heading in the outline, from its text. -/
def heading? (options : Markdown.Options) : Finished → Option Heading
  | heading level cs => some ⟨level, String.ofList (textOf cs),
      (Heading.chooseId (textOf cs) none options.headerIds
        options.headerPrefix.toList).map String.ofList⟩
  | reference _ => none

end Finished

def urlsOf (fs : List Finished) : List (List Char) := fs.filterMap Finished.url?

def outlineOf (options : Markdown.Options) (fs : List Finished) : List Heading :=
  fs.filterMap (·.heading? options)

/-- No raw HTML, no title in the form of a selector, and no heading that ends in a marker. -/
def Unadorned : Node → Prop :=
  Suits (fun title => Selector.opens title.toList = false)
    fun text => (Heading.extractMarker text).2 = none

variable (options : Markdown.Options) (r : RegistryId) (base : Path)

/-- The computation gives what the pure one gives, and records what is finished. -/
def Refines (α : Type) (fs : List Finished) (x : Productions.Linking α) (y : Id α) : Prop :=
  ∀ recording, x.run.run recording = (.ok y.run,
    ⟨recording.store.registerAll r (originsOf base (urlsOf fs)),
      recording.outline ++ outlineOf options fs⟩)

theorem simulating_refines : Simulating (Refines options r base) where
  pure a recording := by
    show _ = (_, (⟨recording.store, recording.outline ++ []⟩ : Productions.Recording))
    rw [List.append_nil]
    rfl
  bind {α β fs gs x y h k} hx hrest recording := by
    change (ExceptT.bindCont h (x.run.run recording).1 : StateM Productions.Recording _)
      (x.run.run recording).2 = _
    rw [hx]
    refine (hrest y.run _).trans ?_
    simp [urlsOf, outlineOf, originsOf_append, Store.registerAll]

theorem refines_reference (url : String) : Refines options r base _ [.reference url]
    (Productions.reference r base url.toList) (pure (tokened base url).toList) := by
  intro recording
  unfold Productions.reference
  simp only [urlsOf, outlineOf, List.filterMap_cons, List.filterMap_nil, Finished.url?,
    Finished.heading?, originsOf, tokened]
  cases Html.Reference.localTarget url.toList with
  | none =>
    rw [List.append_nil]
    rfl
  | some target =>
    have htoken := Store.token_register recording.store r
      (base.resolve ⟨String.ofList target⟩).text none
    rw [List.append_nil]
    dsimp only
    rw [← htoken]
    rfl

variable {options r base}

/-- A title that asks for no attributes is written as it is. -/
theorem Refines.titled {title : Option String} (h : ∀ t ∈ title, Selector.opens t.toList = false)
    (tag : List Char → Option (List Char) → List Char) :
    Refines options r base _ [] (do
      let (attrs, title) ← Productions.titleAttrs (title.map String.toList)
      return tag attrs title : Productions.Linking (List Char))
      (pure (tag [] (title.map String.toList))) := by
  have hattrs : Productions.titleAttrs (title.map String.toList) =
      .ok ([], title.map String.toList) := by
    cases title with
    | none => rfl
    | some t =>
      simp only [Option.map_some, Productions.titleAttrs, h t rfl]
      rfl
  rw [hattrs]
  exact (simulating_refines options r base).pure (tag [] (title.map String.toList))

variable (options r base)

theorem trimEnd_textOf (cs : List Node) : Text.trimEnd (textOf cs) = textOf cs := by
  obtain ⟨-, -, -, htrimmed⟩ := Text.exists_trim (plainTexts cs)
  have h : Text.dropEndWhile Text.isBlank (textOf cs ++ []) = textOf cs :=
    Text.dropEndWhile_append (fun _ h => absurd h List.not_mem_nil) htrimmed.last
  rwa [List.append_nil] at h

theorem simulated_linking : Simulated (Refines options r base) (tokened base)
    (fun title => Selector.opens title.toList = false)
    (fun text => (Heading.extractMarker text).2 = none)
    (Productions.linking options r base) (Productions.plain options) where
  heading level html cs hcs recording := by
    simp only [Productions.linking, Heading.extractMarker_of_none hcs, trimEnd_textOf cs]
    rfl
  link url title html htitle := (simulating_refines options r base).bind
    (refines_reference options r base url) fun href =>
      Refines.titled htitle fun attrs title => Html.anchorTag attrs href title html
  image url title alt htitle := (simulating_refines options r base).bind
    (refines_reference options r base url) fun src =>
      Refines.titled htitle fun attrs title => Html.imageTag attrs src title alt options.xhtml

/-- Rendering with linking productions and a registry that nothing has used before. -/
def firstDocument (options : Markdown.Options) (base : Path) (tree : List Node) :
    Except MarkupError (List Char) × Productions.Recording :=
  linkedDocument options (Store.newRoot {}).2 base (Store.newRoot {}).1 tree

/-- Linking productions with a new registry give the HTML that plain ones give on the document with
tokens in place of its local destinations. The registry then holds the files of the references that
are finished, each once and in this order, and the outline holds the headings that are. -/
theorem linkedDocument_refines {tree : List Node} (h : ∀ n ∈ within tree, Unadorned n)
    (hinj : Set.InjOn Token.ofOrigin {o | o ∈ originsOf base (urlsOf (finishedIn tree))}) :
    (firstDocument options base tree).1 =
        .ok (plainDocument options (relinkAll (tokened base) tree)) ∧
      (firstDocument options base tree).2.store.assetsOf (Store.newRoot {}).2 =
        (originsOf base (urlsOf (finishedIn tree))).eraseDups.map Store.assetNamed ∧
      (firstDocument options base tree).2.outline = outlineOf options (finishedIn tree) := by
  have hwalk := document_simulated (simulating_refines options 0 base)
    (simulated_linking options 0 base) options h
  have hrun : firstDocument options base tree = _ := hwalk ⟨(Store.newRoot {}).1, []⟩
  rw [hrun]
  exact ⟨rfl, Store.assetsOf_registerAll hinj, List.nil_append _⟩

/-- A picture inside a link, named again through a definition, and a link to another site. -/
def illustrated : List Node :=
  [.heading 2 [.text "Guide"],
    .paragraph [.link "a.md?v=1" none [.image "p.png" none "p"], .linkReference "X" none .full [],
      .link "https://x.org" none []],
    .definition "x" none "p.png" (some "P"), .definition "y" none "q.png" none]

theorem linkedDocument_refines_illustrated : (∀ n ∈ within illustrated, Unadorned n) ∧
    Set.InjOn Token.ofOrigin {o | o ∈ originsOf ⟨"/site"⟩ (urlsOf (finishedIn illustrated))} ∧
    (firstDocument {} ⟨"/site"⟩ illustrated).1 =
        .ok (plainDocument {} (relinkAll (tokened ⟨"/site"⟩) illustrated)) ∧
      (firstDocument {} ⟨"/site"⟩ illustrated).2.store.assetsOf (Store.newRoot {}).2 =
        [Store.assetNamed "/site/p.png", Store.assetNamed "/site/a.md"] ∧
      (firstDocument {} ⟨"/site"⟩ illustrated).2.outline = [⟨2, "Guide", some "Guide"⟩] := by
  have hplain : ∀ n ∈ within illustrated, Unadorned n := by
    simp [illustrated, within, inside, Unadorned, Suits]
    decide +kernel
  have horigins : originsOf ⟨"/site"⟩ (urlsOf (finishedIn illustrated)) =
      ["/site/p.png", "/site/a.md", "/site/p.png"] := by decide +kernel
  have houtline : outlineOf {} (finishedIn illustrated) = [⟨2, "Guide", some "Guide"⟩] := by
    decide +kernel
  have hinj : Set.InjOn Token.ofOrigin
      {o | o ∈ originsOf ⟨"/site"⟩ (urlsOf (finishedIn illustrated))} := by
    have hne : Token.ofOrigin "/site/p.png" ≠ Token.ofOrigin "/site/a.md" := by decide +kernel
    rw [horigins]
    simp [Set.InjOn, hne, hne.symm]
  have honce : (originsOf ⟨"/site"⟩ (urlsOf (finishedIn illustrated))).eraseDups =
      ["/site/p.png", "/site/a.md"] := by decide +kernel
  have h := linkedDocument_refines {} ⟨"/site"⟩ hplain hinj
  rw [honce, houtline] at h
  exact ⟨hplain, hinj, h⟩

end Rendering
end Bindery
