import Bindery.Proofs.Project.Itinerary

/-! A run over all the documents of an orderly project, and what it leaves when it comes to an end. -/

namespace Bindery

open FileTree (placeOf)

/-- All that the first documents lead to has its page. -/
def Covers (brief : Brief) (output : Output) (tree : FileTree) (before : List Path) (s : Bench) :
    Prop :=
  ∀ l, Paged (brief.links tree) before l → s.HasPage (brief.pageFile output tree l)

/-- Why a run over a project can fail. -/
def Founders (brief : Brief) (output : Output) (tree : FileTree) (f : Failure) : Prop :=
  (f = .tooDeep ∨ (∃ t, f = .template t) ∨ ¬ brief.Ready output tree) ∨
    ∃ e ∈ brief.entries, f = .cycle e ∧ StopsAt (brief.links tree) brief.entries e

variable {brief : Brief} {output : Output} {tree : FileTree} {u : RegistryId} {before : List Path}
  {e l : Path} {b : Bundle} {s s' : Bench} {σ σ' : Progress} {plan : Relocation}

/-- What another document leads to has its page when the run over that document is done. -/
theorem Covers.next (h : Covers brief output tree before s) (hs : s.Proceeds s')
    (hrounds : Rounds (brief.links tree) (before ++ [e]) σ')
    {waiting : List RegistryId} (htour : Tour brief output tree u waiting (e :: before) s' σ') :
    Covers brief output tree (before ++ [e]) s' := by
  rintro l ⟨front, e', back, hsplit, hnew, hne, hleads⟩
  rcases List.eq_nil_or_concat back with rfl | ⟨back, last, rfl⟩
  · obtain ⟨rfl, heq⟩ := List.append_inj' hsplit rfl
    obtain rfl := List.singleton_inj.1 heq
    have hfinished := hrounds.finished_of_leads (hrounds.subset_finished (by simp)) hleads
    refine (htour.finished l hfinished).page.resolve_left fun hmem => ?_
    rcases List.mem_cons.1 hmem with heq | hmem
    · exact hne heq
    · exact hnew hmem
  · rw [List.concat_eq_append, ← List.cons_append, ← List.append_assoc] at hsplit
    obtain ⟨rfl, -⟩ := List.append_inj' hsplit rfl
    exact hs.hasPage (h l ⟨front, e', back, rfl, hnew, hne, hleads⟩)

/-- Where the asset of a file goes. -/
def Relocation.aim (plan : Relocation) (p : Path) : Option Path :=
  (plan.place { source := p, token := default }).target

theorem Relocation.target_place_aim {a : Asset} : (plan.place a).target = plan.aim a.source := by
  unfold aim place
  dsimp only
  split <;> rfl

/-- The assets that a run copies. -/
structure Carries (brief : Brief) (output : Output) (tree : FileTree) (assets : List Asset) : Prop
    where
  sound : ∀ a ∈ assets, a.source ∈ brief.carried output tree ∧ a.source.IsNormal ∧
    a.target = (brief.plan output tree).aim a.source
  complete : ∀ p ∈ brief.carried output tree, ∃ a ∈ assets, a.source = p

/-- What a run leaves: the pages are there, and the assets were copied after them. -/
structure Arrives (brief : Brief) (output : Output) (tree : FileTree) (report : WriteReport)
    (s : Bench) : Prop where
  ready : brief.Ready output tree
  free : ∀ e, ¬ StopsAt (brief.links tree) brief.entries e
  pages : ∀ file, s.HasPage file ↔
    (∃ l, Paged (brief.links tree) brief.entries l ∧ file = brief.pageFile output tree l) ∨
      output.fileFor brief.input brief.root = some file
  copies : ∃ (mid : FileTree) (assets : List Asset), tree.Spread (brief.outputPlaces output tree) mid ∧
    Carries brief output tree assets ∧ s.tree = (Bundle.copyAssets mid mid assets).1 ∧
    report.assets = (Bundle.copyAssets mid mid assets).2

namespace Tour

variable {waiting : List RegistryId} {gathered : List Path}

/-- The assets that relocation leaves unmarked are those that the run copies, when all that the run
refers to is registered. -/
theorem carries (htour : Tour brief output tree u waiting gathered s σ)
    (htokens : Set.InjOn (fun p : Path => Token.ofOrigin p.text) (brief.named output tree))
    (hrounds : Rounds (brief.links tree) brief.entries σ)
    (hregistered : ∀ p ∈ brief.named output tree, .ofOrigin p.text ∈ s.session.store.tokens 0)
    (hplan : plan = { brief.plan output tree with outfile := plan.outfile }) {html : String} :
    Carries brief output tree
      (((plan.run html s.session.store u).store.assetsOf 0).filter (!·.isMarked)) := by
  have hdone := htour.relocate plan html u
  have hsnapshot : (plan.run html s.session.store u).store.snapshot 0 =
      s.session.store.snapshot 0 :=
    Store.snapshot_of_registries Relocation.registries_run 0
  have hcarried : ∀ p ∈ brief.named output tree, p ∉ σ.marked ↔ p ∈ brief.carried output tree := by
    intro p hp
    rw [hrounds.marked_iff]
    constructor
    · rintro hnot
      refine ⟨hp, fun d hd hlink => hnot ?_⟩
      obtain ⟨e, he, hleads⟩ := hd
      exact ⟨e, he, d, hleads, hlink⟩
    · rintro ⟨-, hfree⟩ ⟨e, he, d, hleads, hlink⟩
      exact hfree d ⟨e, he, hleads⟩ hlink
  refine ⟨fun a ha => ?_, fun p hp => ?_⟩
  · obtain ⟨hmem, hunmarked⟩ := List.mem_filter.1 ha
    obtain ⟨⟨t, c⟩, hslot, hasset⟩ := List.mem_filterMap.1 hmem
    obtain ⟨a', ha', p, hp, rfl, hnormal, hmarked, hsource⟩ := hdone.marks.known _ hslot
    obtain rfl : a' = a := Option.some.inj (ha'.symm.trans hasset)
    have hnew : p ∉ σ.marked := fun hmem => by simp [hmarked hmem] at hunmarked
    obtain ⟨-, rfl⟩ := hsource hnew
    -- All that the root holds is in the registry that was settled.
    have hbelow : ∃ slot ∈ s.session.store.snapshot u, slot = (.ofOrigin a'.source.text, c) := by
      rw [hsnapshot] at hslot
      obtain ⟨⟨t', c'⟩, hslot', rfl⟩ :=
        List.mem_map.1 (htour.funnels.tokens (List.mem_map_of_mem hslot))
      exact ⟨_, hslot', congrArg (Prod.mk _) (htour.marks.descends.cell_eq hslot' hslot)⟩
    obtain ⟨slot, hslot', rfl⟩ := hbelow
    obtain ⟨-, a₀, ha₀, -, hunmarked₀⟩ := htour.marks.asset_of_slot htokens hp hslot'
    obtain ⟨a₁, ha₁, -, hplace⟩ : ∃ a, (plan.run html s.session.store u).store.asset? c = some a ∧
        a.source.IsNormal ∧ plan.place a = a :=
      Relocation.placed_run_of_asset ha₀ ((hunmarked₀ hnew).2.symm ▸ hnormal) hslot'
    obtain rfl : a₁ = a' := Option.some.inj (ha₁.symm.trans ha')
    refine ⟨(hcarried _ hp).1 hnew, hnormal, ?_⟩
    calc a₁.target = (plan.place a₁).target := by rw [hplace]
      _ = plan.aim a₁.source := Relocation.target_place_aim
      _ = (brief.plan output tree).aim a₁.source := by rw [hplan]; rfl
  · have hnew := (hcarried p hp.1).2 hp
    obtain ⟨⟨t, c⟩, hslot, ht⟩ := List.mem_map.1 (hregistered p hp.1)
    obtain rfl : t = .ofOrigin p.text := ht
    rw [← hsnapshot] at hslot
    obtain ⟨-, a, ha, -, hunmarked⟩ := hdone.marks.asset_of_slot htokens hp.1 hslot
    obtain ⟨hmark, hsource⟩ := hunmarked hnew
    refine ⟨a, List.mem_filter.2 ⟨List.mem_filterMap.2 ⟨_, hslot, ha⟩, ?_⟩, hsource⟩
    rw [hmark]
    rfl

/-- All that the documents and the layout of a run refer to is registered in the end. -/
theorem registered (htour : Tour brief output tree u waiting gathered s σ)
    (hrounds : Rounds (brief.links tree) brief.entries σ)
    (hlayout : ∃ page, Layout.Found tree brief.root output.layout page ∧
      ∀ o ∈ page.origins brief.root, .ofOrigin o ∈ s.session.store.tokens 0) :
    ∀ p ∈ brief.named output tree, .ofOrigin p.text ∈ s.session.store.tokens 0 := by
  rintro p (⟨d, ⟨e, he, hleads⟩, hp⟩ | ⟨page, hpage, hp⟩)
  · have hfinished := hrounds.finished_of_leads (hrounds.subset_finished he) hleads
    exact (htour.finished d hfinished).registered p hp
  · obtain ⟨page', hpage', horigins⟩ := hlayout
    obtain rfl := hpage.unique hpage'
    exact horigins _ hp

end Tour

namespace Bundle

/-- The documents of the input are taken through the first pass in their order. -/
theorem tours_passes (h : brief.Orderly output tree) {inner : Making Generated}
    (hinner : ∀ waiting before e, Tours brief output tree u waiting before e inner)
    (hplan : plan = { brief.plan output tree with outfile := plan.outfile })
    (hpreview : plan.isPreview = false) {docs : List (Document × Nat)}
    (hsplit : brief.entries = before ++ docs.map (·.1.source))
    (hnodup : (docs.map (·.1.registry)).Nodup)
    (hdocs : ∀ x ∈ docs, 0 < x.1.registry ∧ Reads tree brief x.1)
    (hrounds : Rounds (brief.links tree) before σ) (hcovers : Covers brief output tree before s)
    (htour : Tour brief output tree u (docs.map (·.1.registry)) before s σ)
    (hb : b.Below brief output u (docs.map (·.1.registry)) s) :
    (docs.forM fun (doc, i) => pass inner plan i doc).Ends b s
      (fun _ b' s' => b.Alike b' ∧ ∃ σ',
        (Rounds (brief.links tree) brief.entries σ' ∧ Covers brief output tree brief.entries s') ∧
        Tour brief output tree u [] brief.entries s' σ' ∧ s.Proceeds s')
      (Founders brief output tree) := by
  induction docs generalizing before b s σ with
  | nil =>
    rw [List.map_nil, List.append_nil] at hsplit
    subst hsplit
    exact ⟨.refl b, σ, ⟨hrounds, hcovers⟩, htour, .refl s⟩
  | cons x docs ih =>
    rw [List.forM_eq_forM, List.forM_cons, Making.ends_bind]
    obtain ⟨hidle, hnodup'⟩ := List.nodup_cons.1 hnodup
    obtain ⟨hpos, hreads⟩ := hdocs x List.mem_cons_self
    obtain ⟨hlt, hempty⟩ := htour.funnels.waiting _ List.mem_cons_self
    have hopened : Opened brief tree (docs.map (·.1.registry)) s x.1 :=
      ⟨hpos, hlt, hidle, List.map_eq_nil_iff.1 hempty, hreads⟩
    have htour' := htour.wake (List.subset_cons_self _ _)
    have hb' : b.Below brief output u (docs.map (·.1.registry)) s :=
      ⟨hb.toOf, hb.le, fun hmem => hb.idle (List.mem_cons_of_mem _ hmem)⟩
    have halong : (σ.enter x.1.source).Along brief before x.1.source :=
      ⟨⟨_, hsplit⟩, List.mem_cons_self, hrounds.subset_finished⟩
    refine (tours_pass h htour' hb' (hinner _ _ _) halong .refl hopened hplan hpreview).mono ?_ ?_
    · rintro _ b₁ s₁ ⟨halike, σ₁, hcrawl, htour₁, hproceeds⟩
      have hrounds₁ : Rounds (brief.links tree) (before ++ [x.1.source]) σ₁ := .next hrounds hcrawl
      have hsplit₁ : brief.entries = (before ++ [x.1.source]) ++ docs.map (·.1.source) := by
        rw [hsplit, List.map_cons, List.append_assoc, List.singleton_append]
      have hsub : x.1.source :: before ⊆ before ++ [x.1.source] := fun d hd => by
        simpa [or_comm] using hd
      refine (ih hsplit₁ hnodup' (fun y hy => hdocs y (List.mem_cons_of_mem _ hy)) hrounds₁
        (hcovers.next hproceeds hrounds₁ htour₁) (htour₁.mono hsub)
        ((hb'.proceed hproceeds).alike halike)).mono ?_ fun _ h => h
      rintro _ b' s' ⟨halike', σ', hdone, htour₂, hproceeds'⟩
      exact ⟨halike.trans halike', σ', hdone, htour₂, hproceeds.trans hproceeds'⟩
    · rintro f (hf | ⟨p, σ', rfl, hcrawl⟩)
      · exact .inl hf
      · obtain ⟨rfl, hstops⟩ := hrounds.stopsAt hcrawl (docs.map (·.1.source))
        rw [List.map_cons] at hsplit
        exact .inr ⟨x.1.source, hsplit ▸ by simp, rfl, hsplit ▸ hstops⟩

/-- A run begins with no page written, and with all of its documents waiting. -/
theorem tour_of_made
    (hmade : Made brief output none { tree, session := .fresh } b s)
    (hmasters : ∀ r m, s.session.store.master? r = some m →
      Session.fresh.store.master? r = some m ∨ r = b.registry ∧ m = Session.fresh.root ∨
        m = b.registry) :
    Tour brief output tree b.registry (b.documents.map (·.registry)) [] s {} := by
  have hfresh : Marks (brief.named output tree) { tree, session := .fresh } {} :=
    ⟨Store.descends_newRoot, fun _ hslot => absurd hslot List.not_mem_nil,
      fun _ hd => absurd hd List.not_mem_nil, rfl, rfl⟩
  have hempty : ∀ r, s.session.store.tokens r = [] := fun r =>
    (congrArg (List.map Prod.fst) (hmade.widens.snapshot r)).trans <| by
      cases r with
      | zero => rfl
      | succ r => exact congrArg (List.map Prod.fst) (Store.snapshot_of_size_le (Nat.le_add_left 1 r))
  have hpages : s.session.pages = [] := hmade.same.pages
  have hplaces : s.places = ∅ := by
    unfold Bench.places
    rw [hpages]
    ext q
    simp
  obtain ⟨hown, -⟩ := List.nodup_cons.1 hmade.distinct
  have hlater : ∀ r ∈ b.documents.map (·.registry), 1 ≤ r ∧ r < s.session.store.registries.size := by
    intro r hr
    obtain ⟨doc, hdoc, rfl⟩ := List.mem_map.1 hr
    exact ⟨(hmade.documents doc hdoc).1, (hmade.documents doc hdoc).2.1⟩
  refine ⟨hfresh.widen hmade.widens hmade.same,
    ⟨hmade.registry_le, hmade.registry_lt, fun r m hm => ?_, ?_, fun r hr => ?_⟩, ?_, ?_, ?_, nofun⟩
  · rcases hmasters r m hm with hold | ⟨rfl, rfl⟩ | rfl
    · have hlt : r < 1 := Store.lt_of_master? hold
      obtain rfl : r = 0 := Nat.lt_one_iff.1 hlt
      cases hold
    · refine ⟨fun hne => absurd rfl hne, fun hmem => ?_⟩
      exact absurd (hlater _ hmem).1 (Nat.not_succ_le_zero 0)
    · exact ⟨fun _ => Nat.le_refl _, hown⟩
  · rw [hempty]
    exact List.nil_subset _
  · exact ⟨(hlater r hr).2, hempty r⟩
  · rw [hplaces, show s.tree = tree from hmade.same.tree]
    exact .refl tree
  · rw [hplaces]
    exact FileTree.fits_empty tree
  · rw [hpages]
    nofun

/-- A run that comes to its last page leaves what it should, when the page is written. -/
theorem arrives_of_written (h : brief.Orderly output tree) {gathered : List Path}
    (htour : Tour brief output tree u [] gathered s σ)
    (hrounds : Rounds (brief.links tree) brief.entries σ)
    (hcovers : Covers brief output tree brief.entries s)
    (hlayout : ∃ page, Layout.Found tree brief.root output.layout page ∧
      ∀ o ∈ page.origins brief.root, .ofOrigin o ∈ s.session.store.tokens 0)
    {file : Path} (hfile : output.fileFor brief.input brief.root = some file)
    (hplan : plan = { brief.plan output tree with outfile := plan.outfile }) {html : String}
    {after : FileTree} {made : List (Token × String)} {s₁ : Bench} {report : WriteReport} {c : Content}
    (hwrite : s.tree.write file c = .ok after)
    (hs₁ : ((s.withStore (plan.run html s.session.store u).store).withPage after ⟨file, made⟩).Same s₁)
    (hassets : report.assets = (copied s₁ 0).2)
    (hs' : Bench.Same { s₁ with tree := (copied s₁ 0).1 } s') :
    Arrives brief output tree report s' := by
  have hplaces : s.places = brief.pagePlaces output tree := by
    refine Set.Subset.antisymm htour.places_subset ?_
    rintro q ⟨l, hl, rfl⟩
    obtain ⟨page, hpage, hfile⟩ := hcovers l hl
    exact ⟨page, hpage, congrArg placeOf hfile.symm⟩
  have houtput : brief.outputPlaces output tree = insert (placeOf file) s.places := by
    unfold Brief.outputPlaces
    rw [hplaces, Set.union_comm, Set.insert_eq]
    congr 1
    ext q
    simp [hfile]
  have htree : s₁.tree = after := hs₁.tree
  have hstore : s₁.session.store = (plan.run html s.session.store u).store := hs₁.store
  have hpages : s'.session.pages = s.session.pages ++ [⟨file, made⟩] := hs'.pages.trans hs₁.pages
  refine ⟨⟨?renders, ?layout, ?room⟩, fun e => hrounds.not_stopsAt, fun file' => ?pages, ?copies⟩
  case renders =>
    rintro d ⟨e, he, hleads⟩
    exact (htour.finished d (hrounds.finished_of_leads (hrounds.subset_finished he) hleads)).renders
  case layout =>
    obtain ⟨page, hpage, -⟩ := hlayout
    exact ⟨page, hpage⟩
  case room =>
    rw [houtput]
    exact htour.spread.fits htour.fits (FileTree.write_ok.1 ⟨after, hwrite⟩)
  case pages =>
    unfold Bench.HasPage
    simp only [hpages, List.mem_append, List.mem_singleton]
    constructor
    · rintro ⟨page, hpage | rfl, rfl⟩
      · exact .inl (htour.pages page hpage)
      · exact .inr hfile
    · rintro (⟨l, hl, rfl⟩ | hfile')
      · obtain ⟨page, hpage, heq⟩ := hcovers l hl
        exact ⟨page, .inl hpage, heq⟩
      · exact ⟨_, .inr rfl, Option.some.inj (hfile.symm.trans hfile')⟩
  case copies =>
    refine ⟨s₁.tree, _, ?_, ?_, hs'.tree, hassets⟩
    · rw [houtput, htree]
      exact htour.spread.write hwrite
    · rw [hstore]
      exact htour.carries h.tokens hrounds (htour.registered hrounds hlayout) hplan

/-- A run over an orderly project arrives, or breaks off for one of its reasons. -/
theorem arrives_compile (h : brief.Orderly output tree) {file : Path}
    (hfile : output.fileFor brief.input brief.root = some file) :
    (compile brief output).Ends { tree, session := .fresh } (Arrives brief output tree)
      (Founders brief output tree) := by
  have hfaults : ∀ f, ¬ brief.Ready output tree → Founders brief output tree f :=
    fun f hready => .inl (.inr (.inr hready))
  unfold compile
  simp only [Work.ends_bind, Making.ends_within]
  refine ends_make_of_fault h.plugins Store.descends_newRoot Nat.one_pos ?_ fun b s hmade hmasters => ?_
  · intro d hd path f hpath hread
    exact hfaults _ fun hready => h.not_renders (.refl tree) (Set.empty_subset _)
      (Brief.reaches_of_mem hd) hpath hread (hready.renders d (Brief.reaches_of_mem hd))
  have hmade' : Made { brief with input := brief.input } { output with data := output.data } none
      { tree, session := .fresh } b s := hmade
  have htour := tour_of_made hmade hmasters
  have hbelow : b.Below brief output b.registry (b.documents.map (·.registry)) s :=
    ⟨⟨⟨_, hmade'.brief_eq⟩, ⟨_, hmade'.output_eq⟩, hmade.registry_lt⟩, Nat.le_refl _,
      (List.nodup_cons.1 hmade.distinct).1⟩
  have houtfile : b.outfile = some file := by
    unfold outfile
    rw [hmade.target_eq, hmade.brief_eq, hmade.output_eq]
    exact hfile
  have hdocs : ∀ x ∈ b.documents.zipIdx, 0 < x.1.registry ∧ Reads tree brief x.1 := by
    intro x hx
    obtain ⟨hle, -, hreads⟩ := hmade.documents x.1 (List.fst_mem_of_mem_zipIdx hx)
    exact ⟨hle, hreads⟩
  have hzip : ∀ {α : Type} (f : Document → α),
      b.documents.zipIdx.map (fun x => f x.1) = b.documents.map f := fun f =>
    List.map_map.symm.trans (congrArg (List.map f) (List.zipIdx_map_fst 0 b.documents))
  have hregistries := hzip (·.registry)
  unfold write generate
  simp only [Making.ends_bind, Making.ends_bundle, Making.ends_lift, Work.ends_get]
  obtain ⟨depth, hdepth⟩ : ∃ depth, s.depth b.brief.mapping = depth + 1 := ⟨_, rfl⟩
  rw [hdepth, generateWithin]
  have hidle : b.Below brief output b.registry [] s := ⟨hbelow.toOf, hbelow.le, List.not_mem_nil⟩
  have hpasses : ∀ s₁, s.Same s₁ → (b.documents.zipIdx.forM fun (d, i) =>
      pass (generateWithin depth) { brief.plan output tree with outfile := b.outfile } i d).Ends b s₁
        (fun _ b' s' => b.Alike b' ∧ ∃ σ',
          (Rounds (brief.links tree) brief.entries σ' ∧ Covers brief output tree brief.entries s') ∧
          Tour brief output tree b.registry [] brief.entries s' σ' ∧ s₁.Proceeds s')
        (Founders brief output tree) := by
    intro s₁ hs₁
    refine tours_passes h (fun _ _ _ => tours_generateWithin h depth) rfl ?_
      (hmade.sources.symm.trans (hzip (·.source)).symm) ?_ hdocs .start ?_ ?_ ?_
    · rw [Relocation.isPreview, houtfile]
      rfl
    · rw [hregistries]
      exact (List.nodup_cons.1 hmade.distinct).2
    · rintro l ⟨front, e, back, hsplit, -⟩
      simp at hsplit
    · rw [hregistries]
      exact htour.of_same hs₁
    · rw [hregistries]
      exact hbelow.proceed hs₁.proceeds
  refine (fillsIn_setPage h (htour.wake (List.nil_subset _)) hidle hfaults
    (fun t => .inl (.inr (.inl ⟨t, rfl⟩))) hpasses).mono ?_ fun _ h => h
  rintro g b' s₁ ⟨halike, hplan, hregistry, hlayout, σ', s₀, ⟨hrounds, hcovers⟩, -, hproceeds, htour'⟩
  have hcovers' : Covers brief output tree brief.entries s₁ := fun l hl =>
    hproceeds.hasPage (hcovers l hl)
  have hgoal : g.plan.outfile = some file := (congrArg (·.outfile) hplan).trans houtfile
  refine ends_emit_of_fault (fun file' f hfile' hwrite => hfaults _ fun hready => ?_)
    (fun hnone => ?_) fun file' after s₂ report s₃ hfile' hwrite hs₂ hfinishes => ?_
  · obtain rfl := Option.some.inj (hgoal.symm.trans hfile')
    obtain ⟨t', ht'⟩ := FileTree.write_ok.2
      (admits_of_ready hready htour' (.inr ⟨file, hfile, rfl⟩))
    cases hwrite.symm.trans ht'
  · cases hnone.symm.trans hgoal
  · obtain rfl := Option.some.inj (hgoal.symm.trans hfile')
    have hasked : b'.isNested = false := by
      unfold isNested
      rw [halike.target, hmade.target_eq]
      rfl
    obtain ⟨r, hr, hassets, hs₃⟩ := hfinishes.asked hasked
    have hplan' : g.plan = { brief.plan output tree with outfile := g.plan.outfile } := by
      rw [hplan]
    have hdone := htour'.relocate g.plan g.html g.registry
    have hroot : s₂.session.store.rootOf b'.registry = 0 := by
      rw [show s₂.session.store = _ from hs₂.store, halike.registry]
      exact hdone.marks.descends.rootOf_eq hdone.funnels.lt
    obtain rfl : r = 0 := hr.trans hroot
    exact arrives_of_written h htour' hrounds hcovers' hlayout hfile hplan' hwrite
      (hregistry ▸ hs₂) hassets hs₃

end Bundle
end Bindery
