import Bindery.Proofs.Project.Tour

/-! An orderly project is compiled in the order of its rounds. A part of the run fails where a text, a
layout or the place of a page is at fault, where a page cannot be filled in, or where the crawl
stops. -/

namespace Bindery

open FileTree (placeOf)

/-- All that the pages of a project are made of is there, and there is room for them. -/
structure Brief.Ready (brief : Brief) (output : Output) (tree : FileTree) : Prop where
  renders : ∀ d, brief.Reaches tree d → brief.Renders tree d
  layout : ∃ l, Layout.Found tree brief.root output.layout l
  room : tree.Fits (brief.outputPlaces output tree)

/-- Why a part of a run over a task can fail. -/
def Falters (brief : Brief) (output : Output) (tree : FileTree) (task : Task) (σ : Progress)
    (f : Failure) : Prop :=
  (f = .tooDeep ∨ (∃ t, f = .template t) ∨ ¬ brief.Ready output tree) ∨
    ∃ p σ', f = .cycle p ∧ Crawl (brief.links tree) task σ (some p) σ'

/-- A part of a run over a task that came to an end in `s'`. -/
def Toured (brief : Brief) (output : Output) (tree : FileTree) (u : RegistryId)
    (waiting : List RegistryId) (gathered : List Path) (task : Task) (σ : Progress) (s s' : Bench) : Prop :=
  ∃ σ', Crawl (brief.links tree) task σ none σ' ∧ Tour brief output tree u waiting gathered s' σ' ∧
    s.Proceeds s'

/-- The document `e` of the input is on its way, and those before it are done. -/
structure Progress.Along (brief : Brief) (before : List Path) (e : Path) (σ : Progress) : Prop where
  split : ∃ after, brief.entries = before ++ e :: after
  entry : e ∈ σ.inFlight
  finished : before ⊆ σ.finished

variable {brief : Brief} {output : Output} {tree : FileTree} {u : RegistryId}
  {waiting : List RegistryId} {before gathered : List Path} {e d l : Path} {b : Bundle} {s s' : Bench} {σ σ' : Progress}
  {task : Task} {plan : Relocation} {E : Failure → Prop}

theorem Falters.of_not_ready {f : Failure} (h : ¬ brief.Ready output tree) :
    Falters brief output tree task σ f :=
  .inl (.inr (.inr h))

theorem Falters.lift {task' : Task} {f : Failure} (h : Falters brief output tree task σ f)
    (hlift : ∀ p σ₁, Crawl (brief.links tree) task σ (some p) σ₁ →
      Crawl (brief.links tree) task' σ' (some p) σ₁) : Falters brief output tree task' σ' f := by
  rcases h with h | ⟨p, σ₁, rfl, hcrawl⟩
  · exact .inl h
  · exact .inr ⟨p, σ₁, rfl, hlift p σ₁ hcrawl⟩

namespace Progress.Along

theorem later (h : σ.Along brief before e) (hentry : e ∈ σ'.inFlight)
    (hfinished : σ.finished ⊆ σ'.finished) : σ'.Along brief before e :=
  ⟨h.split, hentry, List.Subset.trans h.finished hfinished⟩

theorem of_crawl (h : σ.Along brief before e) {links : Path → List Path}
    (hcrawl : Crawl links task σ none σ') : σ'.Along brief before e :=
  h.later (hcrawl.inFlight_eq rfl ▸ h.entry) hcrawl.finished_subset

theorem reaches (h : σ.Along brief before e) (hd : Leads (brief.links tree) e d) :
    brief.Reaches tree d := by
  obtain ⟨after, hsplit⟩ := h.split
  exact ⟨e, hsplit ▸ by simp, hd⟩

/-- Another document that is taken up gets a page. -/
theorem paged (h : σ.Along brief before e) (hd : Leads (brief.links tree) e d) (hne : d ≠ e)
    (hnew : d ∉ σ.finished) : Paged (brief.links tree) brief.entries d := by
  obtain ⟨after, hsplit⟩ := h.split
  exact ⟨before, e, after, hsplit, fun hmem => hnew (h.finished hmem), hne, hd⟩

end Progress.Along

namespace Bundle

/-- A bundle of the run at or below the registry `u`, which is none of those that wait. -/
structure Below (brief : Brief) (output : Output) (u : RegistryId) (waiting : List RegistryId)
    (s : Bench) (b : Bundle) : Prop extends b.Of brief output s where
  le : u ≤ b.registry
  idle : b.registry ∉ waiting

theorem Below.proceed (h : b.Below brief output u waiting s) (hs : s.Proceeds s') :
    b.Below brief output u waiting s' :=
  ⟨⟨h.brief_eq, h.output_eq, Nat.lt_of_lt_of_le h.registry_lt hs.extends_store.size⟩, h.le, h.idle⟩

theorem Below.alike {b' : Bundle} (h : b.Below brief output u waiting s) (hb : b.Alike b') :
    b'.Below brief output u waiting s :=
  ⟨h.toOf.alike hb (Nat.le_refl _), hb.registry.symm ▸ h.le, hb.registry.symm ▸ h.idle⟩

/-- A document as it was read, with a registry of its own that is empty. -/
structure Opened (brief : Brief) (tree : FileTree) (waiting : List RegistryId) (s : Bench)
    (doc : Document) : Prop where
  pos : 0 < doc.registry
  lt : doc.registry < s.session.store.registries.size
  idle : doc.registry ∉ waiting
  empty : s.session.store.snapshot doc.registry = []
  reads : Reads tree brief doc

theorem Opened.of_same {doc : Document} (h : Opened brief tree waiting s doc) (hs : s.Same s') :
    Opened brief tree waiting s' doc :=
  ⟨h.pos, hs.store ▸ h.lt, h.idle, hs.store ▸ h.empty, h.reads⟩

/-- A bundle of the run that is to set the document `d` in a page. -/
structure Presents (brief : Brief) (output : Output) (tree : FileTree) (u : RegistryId)
    (waiting : List RegistryId) (s : Bench) (b : Bundle) (d : Path) : Prop
    extends b.Below brief output u waiting s where
  outfile : b.outfile.isSome = true
  documents : ∃ doc, b.documents = [doc] ∧ doc.source = d ∧ Opened brief tree waiting s doc

/-- `inner` makes the pages of the documents that `e` leads to. -/
def Tours (brief : Brief) (output : Output) (tree : FileTree) (u : RegistryId)
    (waiting : List RegistryId) (before : List Path) (e : Path) (inner : Making Generated) : Prop :=
  ∀ ⦃d b s σ⦄, Leads (brief.links tree) e d → b.Presents brief output tree u waiting s d →
    Tour brief output tree u waiting before s σ → σ.Along brief before e →
    inner.Ends b s (fun g b' s' => b.Alike b' ∧
        g.plan = { brief.plan output tree with outfile := b.outfile } ∧
        Toured brief output tree u waiting (d :: before) (.document d) σ s s')
      (Falters brief output tree (.document d) σ)

theorem opened_of_made (h : brief.Orderly output tree)
    (htour : Tour brief output tree u waiting gathered s σ) {input : Entry} {data : Json.Fields}
    {target : Option Path} (hmade : Made { brief with input } { output with data } target s b s')
    {doc : Document} (hdoc : doc ∈ b.documents) (hreaches : brief.Reaches tree doc.source) :
    Opened brief tree waiting s' doc := by
  obtain ⟨hle, hlt, hreads⟩ := hmade.documents doc hdoc
  refine ⟨?_, hlt, fun hmem => ?_, ?_, h.reads htour.spread htour.places_subset hreaches hreads⟩
  · exact Nat.lt_of_lt_of_le (Nat.lt_trans htour.funnels.pos htour.funnels.lt) hle
  · exact absurd (htour.funnels.waiting _ hmem).1 (Nat.not_lt_of_le hle)
  · rw [hmade.widens.snapshot]
    exact Store.snapshot_of_size_le hle

theorem below_of_made (htour : Tour brief output tree u waiting gathered s σ) {input : Entry}
    {data : Json.Fields} {target : Option Path}
    (hmade : Made { brief with input } { output with data } target s b s') :
    b.Below brief output u waiting s' := by
  refine ⟨⟨⟨input, hmade.brief_eq⟩, ⟨data, hmade.output_eq⟩, hmade.registry_lt⟩, ?_, fun hmem => ?_⟩
  · exact Nat.le_of_lt (Nat.lt_of_lt_of_le htour.funnels.lt hmade.registry_le)
  · exact absurd (htour.funnels.waiting _ hmem).1 (Nat.not_lt_of_le hmade.registry_le)

section Follow

variable {inner : Making Generated}

/-- A page of a project that is ready has room, whatever pages were written before. -/
theorem admits_of_ready (hready : brief.Ready output tree)
    (htour : Tour brief output tree u waiting gathered s σ) {q : Place}
    (hq : q ∈ brief.outputPlaces output tree) : s.tree.Admits q :=
  htour.spread.admits hready.room (fun _ hmem => .inl (htour.places_subset hmem)) hq

/-- A document that is not compiled yet is compiled to its page. -/
theorem tours_follow (h : brief.Orderly output tree) (htour : Tour brief output tree u waiting before s σ)
    (hb : b.Below brief output u waiting s) (hinner : Tours brief output tree u waiting before e inner)
    (halong : σ.Along brief before e) (hl : Leads (brief.links tree) e l)
    (hname : brief.mapping.lookup l.text = none) {Q : Unit → Bundle → Bench → Prop}
    (hdone : l ∈ σ.finished → Q () b s)
    (hpassed : l ∉ σ.finished → ∀ s', Toured brief output tree u waiting before (.document l) σ s s' → Q () b s')
    (hfails : l ∉ σ.finished → ∀ f, Falters brief output tree (.document l) σ f → E f) :
    (follow inner ⟨l, brief.pageFile output tree l⟩).Ends b s Q E := by
  have hreaches := halong.reaches hl
  have hnormal := h.normal hreaches
  unfold follow
  simp only [Making.ends_bind, Making.ends_lift, Work.ends_session, List.contains_iff_mem]
  split
  · next hmem => exact hdone (htour.marks.finished ▸ hmem)
  · next hmem =>
    have hnew : l ∉ σ.finished := htour.marks.finished ▸ hmem
    have hfaults : ∀ f, ¬ brief.Ready output tree → E f := fun f hready =>
      hfails hnew f (.of_not_ready hready)
    have hfiles : (Entry.one l.text).files brief.mapping brief.root = [l] := by
      unfold Entry.files
      simp [hname, Entry.paths, Path.resolve, Path.join, hnormal.absolute, hnormal.normalize_eq]
    simp only [Making.ends_bind, Making.ends_lift, Work.ends_log, Work.ends_noteLinked,
      Making.ends_bundle]
    obtain ⟨input, hbrief⟩ := hb.brief_eq
    obtain ⟨data, hdata⟩ := hb.output_eq
    unfold nested
    rw [hbrief, hdata]
    refine ends_make_of_fault h.plugins htour.marks.descends hb.registry_lt ?_
      fun nb s₁ hmade hmasters => ?_
    · intro d hd path f hpath hread
      obtain rfl : d = l := List.mem_singleton.1 (hfiles ▸ hd)
      exact hfaults _ fun hready => h.not_renders htour.spread htour.places_subset hreaches hpath
        hread (hready.renders d hreaches)
    have hsame : (s.withStore s₁.session.store).Same s₁ :=
      ⟨hmade.same.tree, rfl, hmade.same.inFlight, hmade.same.finished, hmade.same.pages⟩
    have hlogged : ∀ events linked, Tour brief output tree u waiting before
        { s with session := { s.session with events, linked } } σ :=
      fun _ _ => htour.of_same ⟨rfl, rfl, rfl, rfl, rfl⟩
    have hbelow := below_of_made (hlogged _ _) hmade
    have htour₁ : Tour brief output tree u waiting before s₁ σ := by
      refine htour.widen hmade.widens hsame fun r m hm => (hmasters r m hm).imp_right ?_
      rintro (⟨-, rfl⟩ | rfl)
      · exact ⟨hb.le, hb.idle⟩
      · exact ⟨hbelow.le, hbelow.idle⟩
    have houtfile : nb.outfile = some (brief.pageFile output tree l) := by
      unfold outfile
      rw [hmade.target_eq, Option.some_or]
    have hpresents : nb.Presents brief output tree u waiting s₁ l := by
      obtain ⟨doc, hdocuments, hsource⟩ := List.map_eq_singleton_iff.1 (hmade.sources.trans hfiles)
      refine ⟨hbelow, houtfile ▸ rfl, doc, hdocuments, hsource, ?_⟩
      exact opened_of_made h (hlogged _ _) hmade (hdocuments ▸ List.mem_singleton_self doc)
        (hsource ▸ hreaches)
    simp only [Making.ends_bind, Making.ends_pure, Making.ends_within]
    refine (hinner hl hpresents htour₁ halong).mono ?_ fun f hf => hfails hnew f hf
    rintro g nb' s₂ ⟨halike, hplan, σ', hcrawl, htour₂, hproceeds⟩
    have hne : l ≠ e := by
      rintro rfl
      cases hcrawl with
      | take hfree _ => exact hfree halong.entry
    have hpaged := halong.paged hl hne hnew
    have hnested : nb'.isNested = true := by
      unfold isNested
      rw [halike.target, hmade.target_eq]
      rfl
    have hfile : g.plan.outfile = some (brief.pageFile output tree l) :=
      (congrArg (·.outfile) hplan).trans houtfile
    simp only [Making.ends_bundle, Making.ends_lift]
    refine ends_emit_nested hfile hnested (fun f hwrite => hfaults _ fun hready => ?_)
      fun _ after s₃ hwrite hs₃ => ?_
    · obtain ⟨t', ht'⟩ := FileTree.write_ok.2
        (admits_of_ready hready htour₂ (.inl ⟨l, hpaged, rfl⟩))
      cases hwrite.symm.trans ht'
    · let page : WrittenPage := ⟨brief.pageFile output tree l,
        (g.plan.run g.html s₂.session.store g.registry).made⟩
      have hpage : page.file = brief.pageFile output tree l := rfl
      have hwritten := (htour₂.relocate g.plan g.html g.registry).write hpaged hpage hwrite
      refine hpassed hnew s₃ ⟨σ', hcrawl, hwritten.of_same hs₃, ?_⟩
      have hwiden : s.Proceeds s₁ :=
        ⟨hmade.widens.extends, hmade.same.pages.symm ▸ List.Subset.refl _⟩
      refine (hwiden.trans hproceeds).trans (Bench.Proceeds.trans ?_ hs₃.proceeds)
      exact ⟨Relocation.extends_run, List.subset_append_left _ _⟩

/-- What is done for a reference: nothing when it is known or no link to a document, a mark when it
is compiled already or leads to the document itself, and else the document is compiled. -/
theorem tours_followCell (h : brief.Orderly output tree)
    (htour : Tour brief output tree u waiting before s σ) (hb : b.Below brief output u waiting s)
    (hinner : Tours brief output tree u waiting before e inner) (halong : σ.Along brief before e)
    (hd : Leads (brief.links tree) e d)
    (hplan : plan = { brief.plan output tree with outfile := plan.outfile })
    (hpreview : plan.isPreview = false) {p : Path} (hp : p ∈ brief.references tree d)
    {r : RegistryId} {c : CellId} (hslot : (.ofOrigin p.text, c) ∈ s.session.store.snapshot r)
    {Q : Unit → Bundle → Bench → Prop} (hknown : p.isMarkdown = false ∨ p ∈ σ.marked → Q () b s)
    (hskip : p.isMarkdown = true → p ∉ σ.marked → p = d ∨ p ∈ σ.finished → ∀ s',
      Tour brief output tree u waiting before s' (σ.mark p) → s.Proceeds s' → Q () b s')
    (hfollow : p.isMarkdown = true → p ∉ σ.marked → p ≠ d → p ∉ σ.finished → ∀ s',
      Toured brief output tree u waiting before (.document p) (σ.mark p) s s' → Q () b s')
    (hstop : p.isMarkdown = true → p ∉ σ.marked → p ≠ d → p ∉ σ.finished → ∀ f,
      Falters brief output tree (.document p) (σ.mark p) f → E f) :
    (followCell inner plan d c).Ends b s Q E := by
  have hreaches := halong.reaches hd
  have hnamed : p ∈ brief.named output tree := .inl ⟨d, hreaches, hp⟩
  obtain ⟨hnormal, a, ha, hmarked, hunmarked⟩ := htour.marks.asset_of_slot h.tokens hnamed hslot
  unfold followCell
  simp only [Making.ends_bind, Making.ends_lift]
  by_cases hleft : p.isMarkdown = false ∨ p ∈ σ.marked
  · refine ends_markLink_of_known ha ?_ (hknown hleft)
    by_cases hmem : p ∈ σ.marked
    · exact .inl (hmarked hmem)
    · exact .inr ((hunmarked hmem).2 ▸ hleft.resolve_right hmem)
  · obtain ⟨hmarkdown, hnew⟩ := not_or.1 hleft
    rw [Bool.not_eq_false] at hmarkdown
    obtain ⟨hunmark, rfl⟩ := hunmarked hnew
    have hlink : a.source ∈ brief.links tree d := List.mem_filter.2 ⟨hp, hmarkdown⟩
    have hl : Leads (brief.links tree) e a.source := hd.tail hlink
    refine ends_markLink_of_new ha hunmark hmarkdown hnormal hpreview fun placed hplaced => ?_
    have hmark : placed.isMarked = true := by
      rw [hplaced]
      exact Relocation.isMarked_place
    have htour' := htour.mark h.tokens hnamed hslot hmark
    have hproceeds : s.Proceeds (s.withStore (s.session.store.modifyCell c fun _ => placed)) :=
      ⟨⟨Nat.le_refl _, fun _ _ h => h⟩, List.Subset.refl _⟩
    by_cases hself : a.source = d
    · rw [if_pos hself]
      exact hskip hmarkdown hnew (.inl hself) _ htour' hproceeds
    · rw [if_neg hself]
      have htarget : placed.target.getD (a.source.withExtension "html") =
          brief.pageFile output tree a.source := by
        obtain ⟨-, -, -, -, -, hhtml, -⟩ := Path.withExtension_html hnormal hmarkdown
        have hsource : placed.source = a.source.withExtension "html" := by
          rw [hplaced, Relocation.source_place, hhtml.normalize_eq]
        have hplaced' : placed = (brief.plan output tree).place
            { a with source := a.source.withExtension "html", isMarked := true } := by
          rw [hplaced, hplan, Relocation.place_outfile]
        calc placed.target.getD (a.source.withExtension "html")
            = placed.target.getD placed.source := by rw [hsource]
          _ = brief.pageFile output tree a.source := by
            rw [hplaced']
            exact Relocation.goal_source.symm
      have halong' : (σ.mark a.source).Along brief before e :=
        halong.later halong.entry (List.Subset.refl _)
      rw [htarget]
      refine tours_follow h htour' (hb.proceed hproceeds) hinner halong' hl (h.mapping d hreaches _ hlink) ?_ ?_ ?_
      · exact fun hfinished => hskip hmarkdown hnew (.inr hfinished) _ htour' hproceeds
      · rintro hunfinished s' ⟨σ', hcrawl, htour'', hproceeds'⟩
        exact hfollow hmarkdown hnew hself hunfinished s'
          ⟨σ', hcrawl, htour'', hproceeds.trans hproceeds'⟩
      · exact fun hunfinished f hf => hstop hmarkdown hnew hself hunfinished f hf

/-- The references of a document are gone along in their order. -/
theorem tours_followCells (h : brief.Orderly output tree)
    (htour : Tour brief output tree u waiting before s σ) (hb : b.Below brief output u waiting s)
    (hinner : Tours brief output tree u waiting before e inner) (halong : σ.Along brief before e)
    (hd : Leads (brief.links tree) e d)
    (hplan : plan = { brief.plan output tree with outfile := plan.outfile })
    (hpreview : plan.isPreview = false) {r : RegistryId} {refs : List Path}
    (hrefs : ∀ p ∈ refs, p ∈ brief.references tree d) {slots : List (Token × CellId)}
    (htokens : slots.map Prod.fst = refs.map fun p => .ofOrigin p.text)
    (hslots : ∀ slot ∈ slots, slot ∈ s.session.store.snapshot r) :
    (slots.forM fun (_, cell) => followCell inner plan d cell).Ends b s
      (fun _ b' s' => b' = b ∧
        Toured brief output tree u waiting before (.links d (refs.filter (·.isMarkdown))) σ s s')
      (Falters brief output tree (.links d (refs.filter (·.isMarkdown))) σ) := by
  induction refs generalizing slots s σ with
  | nil =>
    obtain rfl := List.map_eq_nil_iff.1 htokens
    exact ⟨rfl, σ, .done, htour, .refl s⟩
  | cons p refs ih =>
    obtain ⟨⟨t, c⟩, slots, rfl, ht, htokens'⟩ := List.map_eq_cons_iff.1 htokens
    obtain rfl : t = .ofOrigin p.text := ht
    rw [List.forM_eq_forM, List.forM_cons, Making.ends_bind]
    -- The rest of the references, from what the first of them leaves.
    have hrest : ∀ s₁ σ₁, Tour brief output tree u waiting before s₁ σ₁ → σ₁.Along brief before e →
        s.Proceeds s₁ → (slots.forM fun (_, cell) => followCell inner plan d cell).Ends b s₁
          (fun _ b' s' => b' = b ∧
            Toured brief output tree u waiting before (.links d (refs.filter (·.isMarkdown))) σ₁ s₁ s')
          (Falters brief output tree (.links d (refs.filter (·.isMarkdown))) σ₁) := by
      intro s₁ σ₁ htour₁ halong₁ hproceeds
      have hextends := hproceeds.extends_store
      exact ih htour₁ (hb.proceed hproceeds) halong₁
        (fun q hq => hrefs q (List.mem_cons_of_mem _ hq)) htokens' fun slot hslot =>
          hextends.slots r _ (hslots slot (List.mem_cons_of_mem _ hslot))
    have hfirst := hrefs p List.mem_cons_self
    have hslot := hslots _ List.mem_cons_self
    refine tours_followCell h htour hb hinner halong hd hplan hpreview hfirst hslot
      ?known ?skip ?follow ?stop
    case known =>
      intro hknown
      have hends := hrest s σ htour halong (.refl s)
      cases hmarkdown : p.isMarkdown with
      | false =>
        rw [List.filter_cons_of_neg (by simp [hmarkdown])]
        exact hends
      | true =>
        rw [List.filter_cons_of_pos hmarkdown]
        have hmem : p ∈ σ.marked := hknown.resolve_left (by simp [hmarkdown])
        refine hends.mono ?_ fun f hf => hf.lift fun _ _ => .known hmem
        rintro _ b' s' ⟨rfl, σ', hcrawl, hrest⟩
        exact ⟨rfl, σ', .known hmem hcrawl, hrest⟩
    case skip =>
      intro hmarkdown hnew hleft s₁ htour₁ hproceeds
      rw [List.filter_cons_of_pos hmarkdown]
      have halong₁ : (σ.mark p).Along brief before e :=
        halong.later halong.entry (List.Subset.refl _)
      refine (hrest s₁ _ htour₁ halong₁ hproceeds).mono ?_ fun f hf =>
        hf.lift fun _ _ => .skip hnew hleft
      rintro _ b' s' ⟨rfl, σ', hcrawl, htour', hproceeds'⟩
      exact ⟨rfl, σ', .skip hnew hleft hcrawl, htour', hproceeds.trans hproceeds'⟩
    case follow =>
      rintro hmarkdown hnew hne hunfinished s₁ ⟨σ₁, hcrawl₁, htour₁, hproceeds⟩
      rw [List.filter_cons_of_pos hmarkdown]
      have halong₁ : (σ.mark p).Along brief before e :=
        halong.later halong.entry (List.Subset.refl _)
      refine (hrest s₁ σ₁ htour₁ (halong₁.of_crawl hcrawl₁) hproceeds).mono ?_ fun f hf =>
        hf.lift fun _ _ => .follow hnew hne hunfinished hcrawl₁
      rintro _ b' s' ⟨rfl, σ', hcrawl, htour', hproceeds'⟩
      exact ⟨rfl, σ', .follow hnew hne hunfinished hcrawl₁ hcrawl, htour', hproceeds.trans hproceeds'⟩
    case stop =>
      intro hmarkdown hnew hne hunfinished f hf
      rw [List.filter_cons_of_pos hmarkdown]
      exact hf.lift fun _ _ => .stop hnew hne hunfinished

/-- A document is taken up, rendered, and laid down when its links have been gone along. -/
theorem tours_pass (h : brief.Orderly output tree)
    (htour : Tour brief output tree u waiting before s σ) (hb : b.Below brief output u waiting s)
    (hinner : Tours brief output tree u waiting before e inner) {doc : Document}
    (halong : (σ.enter doc.source).Along brief before e)
    (hd : Leads (brief.links tree) e doc.source) (hdoc : Opened brief tree waiting s doc)
    (hplan : plan = { brief.plan output tree with outfile := plan.outfile })
    (hpreview : plan.isPreview = false) {i : Nat} :
    (pass inner plan i doc).Ends b s
      (fun _ b' s' => b.Alike b' ∧
        Toured brief output tree u waiting (doc.source :: before) (.document doc.source) σ s s')
      (Falters brief output tree (.document doc.source) σ) := by
  have hreaches := halong.reaches hd
  unfold pass
  simp only [Making.ends_bind, Making.ends_lift]
  refine Work.ends_enter (fun hmem => ?_) fun hnew => ?_
  · exact .inr ⟨_, σ, rfl, .halt (htour.marks.inFlight ▸ hmem)⟩
  · have hnew' : doc.source ∉ σ.inFlight := htour.marks.inFlight ▸ hnew
    obtain ⟨result, origins, outline, hrender, hreferences, hfiles, hrenders⟩ :=
      h.rendering hreaches hdoc.reads
    have hplugins : b.brief.plugins = [] := by
      obtain ⟨input, hbrief⟩ := hb.brief_eq
      rw [hbrief]
      exact h.plugins
    refine ends_transform hplugins (fun f hf => ?_) hrender fun b₁ s₁ hhtml halike₁ hs₁ => ?_
    · refine .of_not_ready fun hready => ?_
      obtain ⟨html, hok⟩ := hrenders.2 (hready.renders _ hreaches)
      cases hf.symm.trans hok
    refine ends_wrap fun b₂ halike₂ => ?_
    have halike := halike₁.trans halike₂
    have hstore : s₁.session.store = s.session.store.registerAll doc.registry origins := hs₁.store
    have hentered := (htour.enter doc.source).registerAll hdoc.pos hdoc.lt hdoc.idle
      hdoc.empty hfiles
    have htour₁ : Tour brief output tree u waiting before s₁ (σ.enter doc.source) := hentered.of_same hs₁
    have hproceeds₁ : s.Proceeds s₁ := by
      refine ⟨?_, (show s₁.session.pages = s.session.pages from hs₁.pages) ▸ List.Subset.refl _⟩
      exact hstore ▸ (htour.marks.descends.registerAll hdoc.lt origins).2.1
    have htokens : (s₁.session.store.snapshot doc.registry).map Prod.fst =
        (brief.references tree doc.source).map fun p => .ofOrigin p.text := by
      have hnone : s.session.store.tokens doc.registry = ([] : List String).map Token.ofOrigin := by
        rw [Store.tokens, hdoc.empty]
        rfl
      rw [hstore, hreferences, List.map_map]
      exact Store.tokens_registerAll htour.marks.descends hdoc.lt origins hnone
    unfold followAll
    simp only [Making.ends_bind, Making.ends_lift, Work.ends_session]
    refine (tours_followCells h htour₁ ((hb.proceed hproceeds₁).alike halike) hinner halong hd hplan
      hpreview (fun _ h => h) htokens fun _ h => h).mono ?_ fun f hf => hf.lift fun _ _ => .fail hnew'
    rintro _ b' s' ⟨rfl, σ', hcrawl, htour', hproceeds'⟩
    refine ⟨halike, σ'.leave doc.source, .take hnew' hcrawl, htour'.leave (hrenders.1 hhtml) ?_, ?_⟩
    · intro p hp
      have hmem : Token.ofOrigin p.text ∈ s₁.session.store.tokens doc.registry := by
        unfold Store.tokens
        rw [htokens]
        exact List.mem_map_of_mem hp
      obtain ⟨slot, hslot, htoken⟩ := List.mem_map.1 hmem
      have hroot := htour₁.marks.descends.inRoot doc.registry _ hslot
      exact hproceeds'.extends_store.tokens_subset 0 (htoken ▸ List.mem_map_of_mem hroot)
    · exact ⟨(hproceeds₁.trans hproceeds').extends_store, (hproceeds₁.trans hproceeds').pages⟩

/-- The origins that a layout registers are files of the run. -/
theorem named_of_origins (hroot : brief.root.IsNormal) {page : Layout}
    (hfound : Layout.Found tree brief.root output.layout page) :
    ∀ o ∈ page.origins brief.root, (⟨o⟩ : Path) ∈ brief.named output tree ∧ (⟨o⟩ : Path).IsNormal := by
  intro o ho
  refine ⟨.inr ⟨page, hfound, ho⟩, ?_⟩
  obtain ⟨target, -, rfl⟩ := List.mem_map.1 ho
  have hbase : (page.dir.getD brief.root).IsNormal := by
    cases hdir : page.dir with
    | none => exact hroot
    | some dir => exact hfound.isNormal_dir hroot dir hdir
  exact Path.isNormal_resolve_of_absolute hbase.absolute _

/-- A page that was filled in, after a run over its documents that came to an end as `C` says. -/
structure FillsIn (brief : Brief) (output : Output) (tree : FileTree) (u : RegistryId)
    (waiting : List RegistryId) (gathered : List Path) (C : Progress → Bench → Prop) (b : Bundle)
    (s : Bench) (g : Generated) (b' : Bundle) (s' : Bench) : Prop where
  alike : b.Alike b'
  plan_eq : g.plan = { brief.plan output tree with outfile := b.outfile }
  registry : g.registry = b.registry
  layout : ∃ page, Layout.Found tree brief.root output.layout page ∧
    ∀ o ∈ page.origins brief.root, .ofOrigin o ∈ s'.session.store.tokens 0
  toured : ∃ σ' s₁, C σ' s₁ ∧ s.Proceeds s₁ ∧ s₁.Proceeds s' ∧
    Tour brief output tree u waiting gathered s' σ'

/-- A page is filled in when its documents have been laid down. -/
theorem fillsIn_setPage (h : brief.Orderly output tree)
    (htour : Tour brief output tree u waiting before s σ) (hb : b.Below brief output u waiting s)
    {C : Progress → Bench → Prop} (hfaults : ∀ f, ¬ brief.Ready output tree → E f)
    (htemplate : ∀ t, E (.template t))
    (hpasses : ∀ s₁, s.Same s₁ → (b.documents.zipIdx.forM fun (d, i) =>
        pass inner { brief.plan output tree with outfile := b.outfile } i d).Ends b s₁
      (fun _ b' s' => b.Alike b' ∧ ∃ σ', C σ' s' ∧
        Tour brief output tree u waiting gathered s' σ' ∧ s₁.Proceeds s') E) :
    (setPage inner).Ends b s (FillsIn brief output tree u waiting gathered C b s) E := by
  obtain ⟨input, hbrief⟩ := hb.brief_eq
  obtain ⟨data, hdata⟩ := hb.output_eq
  have hload : Layout.load b.output.layout b.brief.root = Layout.load output.layout brief.root := by
    rw [hbrief, hdata]
  have hfound : ∀ {page}, Layout.Found s.tree brief.root output.layout page ↔
      Layout.Found tree brief.root output.layout page :=
    h.found_iff htour.spread htour.places_subset (htour.sound h.sound)
  unfold setPage
  simp only [Making.ends_bind, Making.ends_bundle, Making.ends_lift, hload]
  refine ends_load (fun hnone path f => hfaults _ fun hready => ?_) fun page s₁ hpage hs₁ => ?_
  · obtain ⟨page, hpage⟩ := hready.layout
    exact hnone page (hfound.2 hpage)
  have hpage' := hfound.1 hpage
  have hplan : (⟨b.brief.root, b.output.distDir b.brief.root, page.dir, b.outfile⟩ : Relocation) =
      { brief.plan output tree with outfile := b.outfile } := by
    rw [hpage'.dir_eq, hbrief, hdata]
    rfl
  have hroot : b.brief.root = brief.root := by rw [hbrief]
  simp only [hplan]
  refine (hpasses s₁ hs₁).mono ?_ fun _ h => h
  rintro _ b' s₂ ⟨halike, σ', hC, htour₂, hproceeds⟩
  have hb' := ((hb.proceed hs₁.proceeds).proceed hproceeds).alike halike
  have hpos : 0 < b'.registry := Nat.lt_of_lt_of_le htour.funnels.pos hb'.le
  refine ends_layout htemplate fun html s₃ hs₃ => ?_
  rw [hroot] at hs₃
  have horigins := named_of_origins h.root hpage'
  have hdescends := htour₂.marks.descends
  refine ⟨halike, rfl, halike.registry, ⟨page, hpage', fun o ho => ?_⟩,
    σ', s₂, hC, hs₁.proceeds.trans hproceeds, Bench.Proceeds.trans ?_ hs₃.proceeds, ?_⟩
  · rw [show s₃.session.store = _ from hs₃.store]
    exact (hdescends.registerAll hb'.registry_lt _).1.tokens_subset _
      (Store.mem_tokens_registerAll hdescends hb'.registry_lt ho)
  · exact ⟨(hdescends.registerAll hb'.registry_lt _).2.1, List.Subset.refl _⟩
  · exact (htour₂.registerAll_of_mem hpos hb'.registry_lt hb'.idle horigins).of_same hs₃

theorem tours_setPage (h : brief.Orderly output tree)
    (hinner : Tours brief output tree u waiting before e inner) :
    Tours brief output tree u waiting before e (setPage inner) := by
  rintro d b s σ hd ⟨hb, houtfile, doc, hdocuments, rfl, hdoc⟩ htour halong
  have hpasses : ∀ s₁, s.Same s₁ → (b.documents.zipIdx.forM fun (d, i) =>
      pass inner { brief.plan output tree with outfile := b.outfile } i d).Ends b s₁
        (fun _ b' s' => b.Alike b' ∧ ∃ σ',
          Crawl (brief.links tree) (.document doc.source) σ none σ' ∧
          Tour brief output tree u waiting (doc.source :: before) s' σ' ∧ s₁.Proceeds s')
        (Falters brief output tree (.document doc.source) σ) := by
    intro s₁ hs₁
    rw [hdocuments, List.zipIdx_singleton, List.forM_eq_forM, List.forM_cons, Making.ends_bind]
    have halong' : (σ.enter doc.source).Along brief before e :=
      halong.later (List.mem_cons_of_mem _ halong.entry) (List.Subset.refl _)
    refine (tours_pass h (htour.of_same hs₁) (hb.proceed hs₁.proceeds) hinner halong' hd
      (hdoc.of_same hs₁) rfl ?_).mono (fun _ _ _ h => h) fun _ h => h
    rw [Relocation.isPreview, ← Option.not_isSome, houtfile]
    rfl
  refine (fillsIn_setPage h htour hb (fun _ => .of_not_ready) (fun t => .inl (.inr (.inl ⟨t, rfl⟩)))
    hpasses).mono ?_ fun _ h => h
  rintro g b' s' ⟨halike, hplan, -, -, σ', s₁, hcrawl, hproceeds, hproceeds', htour'⟩
  exact ⟨halike, hplan, σ', hcrawl, htour', hproceeds.trans hproceeds'⟩

theorem tours_generateWithin (h : brief.Orderly output tree) (depth : Nat) :
    Tours brief output tree u waiting before e (generateWithin depth) := by
  induction depth with
  | zero => exact fun _ _ _ _ _ _ _ _ => .inl (.inl rfl)
  | succ depth ih => exact tours_setPage h ih

end Follow
end Bundle
end Bindery
