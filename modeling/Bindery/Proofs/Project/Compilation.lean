import Bindery.Proofs.Project.Documents

/-! The documents of a project are compiled in the order of a crawl along their links. The bench and
the progress of the crawl agree before and after each step, and a step fails where the crawl stops. -/

namespace Bindery

variable {brief : Brief} {output : Output} {tree : FileTree} {entry d : Path} {b : Bundle}
  {s s' : Bench} {σ : Progress} {task : Task} {E : Failure → Prop}

namespace Bundle

/-- A bundle of the run that is to set the document `d` in a page with a file. -/
structure Sets (brief : Brief) (output : Output) (tree : FileTree) (s : Bench) (b : Bundle)
    (d : Path) : Prop extends b.Of brief output s where
  outfile : b.outfile.isSome = true
  documents : ∃ doc, b.documents = [doc] ∧ doc.source = d ∧
    doc.registry < s.session.store.registries.size ∧
    s.session.store.snapshot doc.registry = [] ∧ Reads tree brief doc

theorem sets_of_made (h : brief.Complete tree entry) (hd : Leads (brief.links tree) entry d)
    {input : Entry} {data : Json.Fields} {target : Option Path}
    (hmade : Made { brief with input } { output with data } target s b s')
    (hinput : input.files brief.mapping brief.root = [d]) (hkeeps : tree.KeepsDocuments s.tree)
    (houtfile : b.outfile.isSome = true) : b.Sets brief output tree s' d := by
  obtain ⟨doc, hdocuments, hsource⟩ := List.map_eq_singleton_iff.1 (hmade.sources.trans hinput)
  obtain ⟨hle, hlt, hreads⟩ := hmade.documents doc (hdocuments ▸ List.mem_singleton_self doc)
  refine ⟨⟨⟨input, hmade.brief_eq⟩, ⟨data, hmade.output_eq⟩, hmade.registry_lt⟩, houtfile, doc,
    hdocuments, hsource, hlt, ?_, h.reads (hsource ▸ hd) hkeeps hreads⟩
  rw [hmade.widens.snapshot]
  exact Store.snapshot_of_size_le hle

end Bundle

/-- A part of the run that came to an end in `s'` as a crawl over the task does. -/
def Passed (brief : Brief) (tree : FileTree) (entry : Path) (task : Task) (σ : Progress)
    (s s' : Bench) : Prop :=
  ∃ σ', Crawl (brief.links tree) task σ none σ' ∧ Agrees tree (brief.files tree entry) s' σ' ∧
    s.session.store.Extends s'.session.store

/-- A failure of the texts, or of the crawl over the task. -/
def Fails (brief : Brief) (tree : FileTree) (task : Task) (σ : Progress) (f : Failure) : Prop :=
  f.OfContent ∨ ∃ p σ', f = .cycle p ∧ Crawl (brief.links tree) task σ (some p) σ'

theorem Fails.lift {task' : Task} {σ' : Progress} {f : Failure} (h : Fails brief tree task σ f)
    (hlift : ∀ p σ₁, Crawl (brief.links tree) task σ (some p) σ₁ →
      Crawl (brief.links tree) task' σ' (some p) σ₁) : Fails brief tree task' σ' f := by
  rcases h with h | ⟨p, σ₁, rfl, hcrawl⟩
  · exact .inl h
  · exact .inr ⟨p, σ₁, rfl, hlift p σ₁ hcrawl⟩

/-- The documents on their way are documents of the run, each once. -/
structure Progress.OnWay (brief : Brief) (tree : FileTree) (entry : Path) (σ : Progress) : Prop where
  nodup : σ.inFlight.Nodup
  leads : ∀ d ∈ σ.inFlight, Leads (brief.links tree) entry d

theorem Progress.OnWay.of_inFlight {σ' : Progress} (h : σ.OnWay brief tree entry)
    (hσ : σ'.inFlight = σ.inFlight) : σ'.OnWay brief tree entry :=
  ⟨hσ ▸ h.nodup, hσ ▸ h.leads⟩

theorem Progress.OnWay.enter (h : σ.OnWay brief tree entry)
    (hd : Leads (brief.links tree) entry d) (hnew : d ∉ σ.inFlight) :
    (σ.enter d).OnWay brief tree entry := by
  refine ⟨List.nodup_cons.2 ⟨hnew, h.nodup⟩, fun x hx => ?_⟩
  rcases List.mem_cons.1 hx with rfl | hx
  · exact hd
  · exact h.leads x hx

/-- `inner` compiles the documents of the run while `count` of them are on their way. -/
def Compiles (brief : Brief) (output : Output) (tree : FileTree) (entry : Path)
    (inner : Making Generated) (count : Nat) : Prop :=
  ∀ ⦃d b s σ⦄, Leads (brief.links tree) entry d → b.Sets brief output tree s d →
    Agrees tree (brief.files tree entry) s σ → σ.OnWay brief tree entry →
    σ.inFlight.length = count →
    inner.Ends b s (fun g b' s' => b.Alike b' ∧
        g.plan = ⟨brief.root, output.distDir brief.root, none, b.outfile⟩ ∧
        Passed brief tree entry (.document d) σ s s')
      (Fails brief tree (.document d) σ)

namespace Bundle

section Follow

variable {inner : Making Generated} {l target : Path}

/-- A document that is not compiled yet is compiled to its page. -/
theorem ends_follow (h : brief.Complete tree entry)
    (hagrees : Agrees tree (brief.files tree entry) s σ) (hb : b.Of brief output s)
    (hinner : Compiles brief output tree entry inner σ.inFlight.length)
    (honway : σ.OnWay brief tree entry) (hl : Leads (brief.links tree) entry l)
    (htarget : target.IsPage) {Q : Unit → Bundle → Bench → Prop}
    (hdone : l ∈ σ.finished → Q () b s)
    (hpassed : l ∉ σ.finished → ∀ s', Passed brief tree entry (.document l) σ s s' → Q () b s')
    (hfails : l ∉ σ.finished → ∀ f, Fails brief tree (.document l) σ f → E f) :
    (follow inner ⟨l, target⟩).Ends b s Q E := by
  unfold follow
  simp only [Making.ends_bind, Making.ends_lift, Work.ends_session, List.contains_iff_mem]
  split
  · next hmem => exact hdone (hagrees.finished ▸ hmem)
  · next hmem =>
    have hnew : l ∉ σ.finished := hagrees.finished ▸ hmem
    have hcontent : ∀ f, f.OfContent → E f := fun f hf => hfails hnew f (.inl hf)
    simp only [Making.ends_bind, Making.ends_lift, Work.ends_log, Work.ends_noteLinked,
      Making.ends_bundle]
    obtain ⟨input, hbrief⟩ := hb.brief_eq
    obtain ⟨data, hdata⟩ := hb.output_eq
    unfold nested
    rw [hbrief, hdata]
    refine ends_make h.plugins hagrees.descends hb.registry_lt hcontent fun nb s₁ hmade => ?_
    have hsame : (s.withStore s₁.session.store).Same s₁ :=
      ⟨hmade.same.tree, rfl, hmade.same.inFlight, hmade.same.finished, hmade.same.pages⟩
    have hagrees₁ := hagrees.widen hmade.widens hsame
    have houtfile : nb.outfile = some target := by
      unfold outfile
      rw [hmade.target_eq, Option.some_or]
    have hfiles : (Entry.one l.text).files brief.mapping brief.root = [l] := by
      obtain ⟨hnormal, -⟩ := h.document hl
      unfold Entry.files
      simp [(h.documents l hl).2.2.1, Entry.paths, Path.resolve, Path.join, hnormal.absolute,
        hnormal.normalize_eq]
    have hsets := sets_of_made h hl hmade hfiles hagrees.documents (houtfile ▸ rfl)
    simp only [Making.ends_bind, Making.ends_pure, Making.ends_within]
    refine (hinner hl hsets hagrees₁ honway rfl).mono ?_ fun f hf => hfails hnew f hf
    rintro g nb' s₂ ⟨halike, hplan, σ', hcrawl, hagrees₂, hextends⟩
    have hnested : nb'.isNested = true := by
      unfold isNested
      rw [halike.target, hmade.target_eq]
      rfl
    have hfile : g.plan.outfile = some target := (congrArg (·.outfile) hplan).trans houtfile
    simp only [Making.ends_bundle, Making.ends_lift]
    refine ends_emit_nested hfile hnested (fun _ _ => hcontent _ trivial) fun _ after s₃ hwrite hs₃ => ?_
    refine hpassed hnew s₃ ⟨σ', hcrawl, ?_, ?_⟩
    · have hrelocated := hagrees₂.relocate (r := g.registry) g.plan g.html
      have hpage : (WrittenPage.mk target (g.plan.run g.html s₂.session.store g.registry).made).file.IsPage :=
        htarget
      exact (hrelocated.write hpage hwrite).of_same hs₃
    · have hstore : s₃.session.store = (g.plan.run g.html s₂.session.store g.registry).store :=
        hs₃.store
      rw [hstore]
      exact (hmade.widens.extends.trans hextends).trans Relocation.extends_run

variable {plan : Relocation} {r : RegistryId}

/-- What is done for a reference: nothing when it is known or no link to a document, a mark when it
is compiled already or leads to the document itself, and else the document is compiled. -/
theorem ends_followCell (h : brief.Complete tree entry)
    (hagrees : Agrees tree (brief.files tree entry) s σ) (hb : b.Of brief output s)
    (hinner : Compiles brief output tree entry inner σ.inFlight.length)
    (honway : σ.OnWay brief tree entry) (hd : Leads (brief.links tree) entry d)
    (hroot : plan.root = brief.root) (hdist : plan.dist.IsNormal) (hlayout : plan.layoutDir = none)
    (hpreview : plan.isPreview = false) {p : Path} (hp : p ∈ brief.references tree d) {c : CellId}
    (hslot : (.ofOrigin p.text, c) ∈ s.session.store.snapshot r) {Q : Unit → Bundle → Bench → Prop}
    (hknown : p.isMarkdown = false ∨ p ∈ σ.marked → Q () b s)
    (hskip : p.isMarkdown = true → p ∉ σ.marked → p = d ∨ p ∈ σ.finished → ∀ s',
      Agrees tree (brief.files tree entry) s' (σ.mark p) →
      s.session.store.Extends s'.session.store → Q () b s')
    (hfollow : p.isMarkdown = true → p ∉ σ.marked → p ≠ d → p ∉ σ.finished → ∀ s',
      Passed brief tree entry (.document p) (σ.mark p) s s' → Q () b s')
    (hstop : p.isMarkdown = true → p ∉ σ.marked → p ≠ d → p ∉ σ.finished → ∀ f,
      Fails brief tree (.document p) (σ.mark p) f → E f) :
    (followCell inner plan d c).Ends b s Q E := by
  have hfile : p ∈ brief.files tree entry := ⟨d, hd, hp⟩
  obtain ⟨hnormal, a, ha, hmarked, hunmarked⟩ := hagrees.asset_of_slot h.tokens hfile hslot
  unfold followCell
  simp only [Making.ends_bind, Making.ends_lift]
  by_cases hleft : p.isMarkdown = false ∨ p ∈ σ.marked
  · refine ends_markLink_of_known ha ?_ (hknown hleft)
    by_cases hmem : p ∈ σ.marked
    · exact .inl (hmarked hmem)
    · exact .inr ((hunmarked hmem).2 ▸ hleft.resolve_right hmem)
  · obtain ⟨hmarkdown, hnew⟩ := not_or.1 hleft
    rw [Bool.not_eq_false] at hmarkdown
    obtain ⟨hunmark, rfl⟩ := hunmarked hnew
    have hl : Leads (brief.links tree) entry a.source :=
      hd.tail (List.mem_filter.2 ⟨hp, hmarkdown⟩)
    refine ends_markLink_of_new ha hunmark hmarkdown hnormal hpreview fun placed hplaced => ?_
    have hmark : placed.isMarked = true := by
      rw [hplaced]
      exact Relocation.isMarked_place
    have hagrees' := hagrees.mark h.tokens hfile hslot hmark
    have hextends : s.session.store.Extends (s.session.store.modifyCell c fun _ => placed) :=
      ⟨Nat.le_refl _, fun _ _ h => h⟩
    by_cases hself : a.source = d
    · rw [if_pos hself]
      exact hskip hmarkdown hnew (.inl hself) _ hagrees' hextends
    · rw [if_neg hself]
      have hinside : plan.root.isWithin a.source = true := hroot ▸ (h.documents _ hl).1
      have hpage : (placed.target.getD (a.source.withExtension "html")).IsPage := by
        rw [hplaced]
        exact Relocation.isPage_target (hroot ▸ h.root) hdist hlayout hnormal hmarkdown hinside rfl
      have honway' : (σ.mark a.source).OnWay brief tree entry := honway.of_inFlight rfl
      refine ends_follow h hagrees' ⟨hb.brief_eq, hb.output_eq, hb.registry_lt⟩ hinner honway' hl
        hpage ?_ ?_ ?_
      · exact fun hfinished => hskip hmarkdown hnew (.inr hfinished) _ hagrees' hextends
      · rintro hunfinished s' ⟨σ', hcrawl, hagrees'', hextends'⟩
        exact hfollow hmarkdown hnew hself hunfinished s'
          ⟨σ', hcrawl, hagrees'', hextends.trans hextends'⟩
      · exact fun hunfinished f hf => hstop hmarkdown hnew hself hunfinished f hf

/-- The references of a document are gone along in their order. -/
theorem ends_followCells (h : brief.Complete tree entry)
    (hagrees : Agrees tree (brief.files tree entry) s σ) (hb : b.Of brief output s)
    (hinner : Compiles brief output tree entry inner σ.inFlight.length)
    (honway : σ.OnWay brief tree entry) (hd : Leads (brief.links tree) entry d)
    (hroot : plan.root = brief.root) (hdist : plan.dist.IsNormal) (hlayout : plan.layoutDir = none)
    (hpreview : plan.isPreview = false) {refs : List Path}
    (hrefs : ∀ p ∈ refs, p ∈ brief.references tree d) {slots : List (Token × CellId)}
    (htokens : slots.map Prod.fst = refs.map fun p => .ofOrigin p.text)
    (hslots : ∀ slot ∈ slots, slot ∈ s.session.store.snapshot r) :
    (slots.forM fun (_, cell) => followCell inner plan d cell).Ends b s
      (fun _ b' s' => b' = b ∧
        Passed brief tree entry (.links d (refs.filter (·.isMarkdown))) σ s s')
      (Fails brief tree (.links d (refs.filter (·.isMarkdown))) σ) := by
  induction refs generalizing slots s σ with
  | nil =>
    obtain rfl := List.map_eq_nil_iff.1 htokens
    exact ⟨rfl, σ, .done, hagrees, .refl _⟩
  | cons p refs ih =>
    obtain ⟨⟨t, c⟩, slots, rfl, ht, htokens'⟩ := List.map_eq_cons_iff.1 htokens
    obtain rfl : t = .ofOrigin p.text := ht
    rw [List.forM_eq_forM, List.forM_cons, Making.ends_bind]
    have hrefs' : ∀ q ∈ refs, q ∈ brief.references tree d := fun q hq =>
      hrefs q (List.mem_cons_of_mem _ hq)
    -- The rest of the references, from what the first of them leaves.
    have hrest : ∀ s₁ σ₁, Agrees tree (brief.files tree entry) s₁ σ₁ →
        σ₁.inFlight = σ.inFlight → s.session.store.Extends s₁.session.store →
        (slots.forM fun (_, cell) => followCell inner plan d cell).Ends b s₁
          (fun _ b' s' => b' = b ∧
            Passed brief tree entry (.links d (refs.filter (·.isMarkdown))) σ₁ s₁ s')
          (Fails brief tree (.links d (refs.filter (·.isMarkdown))) σ₁) := by
      intro s₁ σ₁ hagrees₁ hflight hextends
      refine ih hagrees₁ ⟨hb.brief_eq, hb.output_eq, ?_⟩ (hflight ▸ hinner)
        (honway.of_inFlight hflight) hrefs' htokens' fun slot hslot => ?_
      · exact Nat.lt_of_lt_of_le hb.registry_lt hextends.size
      · exact hextends.slots r _ (hslots slot (List.mem_cons_of_mem _ hslot))
    have hfirst := hrefs p List.mem_cons_self
    have hslot := hslots _ List.mem_cons_self
    refine ends_followCell h hagrees hb hinner honway hd hroot hdist hlayout hpreview hfirst hslot
      ?known ?skip ?follow ?stop
    case known =>
      intro hknown
      have hends := hrest s σ hagrees rfl (.refl _)
      cases hmarkdown : p.isMarkdown with
      | false =>
        rw [List.filter_cons_of_neg (by simp [hmarkdown])]
        exact hends
      | true =>
        rw [List.filter_cons_of_pos hmarkdown]
        have hmem : p ∈ σ.marked := hknown.resolve_left (by simp [hmarkdown])
        refine hends.mono ?_ fun f hf => hf.lift fun _ _ => .known hmem
        rintro _ b' s' ⟨rfl, σ', hcrawl, hrest⟩
        exact ⟨rfl, σ', .known hmem hcrawl, hrest⟩
    case skip =>
      intro hmarkdown hnew hleft s₁ hagrees₁ hextends
      rw [List.filter_cons_of_pos hmarkdown]
      refine (hrest s₁ _ hagrees₁ rfl hextends).mono ?_ fun f hf => hf.lift fun _ _ => .skip hnew hleft
      rintro _ b' s' ⟨rfl, σ', hcrawl, hagrees', hextends'⟩
      exact ⟨rfl, σ', .skip hnew hleft hcrawl, hagrees', hextends.trans hextends'⟩
    case follow =>
      rintro hmarkdown hnew hne hunfinished s₁ ⟨σ₁, hcrawl₁, hagrees₁, hextends⟩
      rw [List.filter_cons_of_pos hmarkdown]
      have hends := hrest s₁ σ₁ hagrees₁ (hcrawl₁.inFlight_eq rfl) hextends
      refine hends.mono ?_ fun f hf => hf.lift fun _ _ => .follow hnew hne hunfinished hcrawl₁
      rintro _ b' s' ⟨rfl, σ', hcrawl, hagrees', hextends'⟩
      exact ⟨rfl, σ', .follow hnew hne hunfinished hcrawl₁ hcrawl, hagrees', hextends.trans hextends'⟩
    case stop =>
      intro hmarkdown hnew hne hunfinished f hf
      rw [List.filter_cons_of_pos hmarkdown]
      exact hf.lift fun _ _ => .stop hnew hne hunfinished

/-- A document is taken up, rendered, and laid down when its links have been gone along. -/
theorem ends_pass (h : brief.Complete tree entry)
    (hagrees : Agrees tree (brief.files tree entry) s σ) (hb : b.Of brief output s)
    (hinner : Compiles brief output tree entry inner (σ.inFlight.length + 1))
    (honway : σ.OnWay brief tree entry) {doc : Document}
    (hd : Leads (brief.links tree) entry doc.source)
    (hlt : doc.registry < s.session.store.registries.size)
    (hempty : s.session.store.snapshot doc.registry = []) (hreads : Reads tree brief doc)
    (hroot : plan.root = brief.root) (hdist : plan.dist.IsNormal) (hlayout : plan.layoutDir = none)
    (hpreview : plan.isPreview = false) {i : Nat} :
    (pass inner plan i doc).Ends b s
      (fun _ b' s' => b.Alike b' ∧ Passed brief tree entry (.document doc.source) σ s s')
      (Fails brief tree (.document doc.source) σ) := by
  unfold pass
  simp only [Making.ends_bind, Making.ends_lift]
  refine Work.ends_enter (fun hmem => ?_) fun hnew => ?_
  · exact .inr ⟨_, σ, rfl, .halt (hagrees.inFlight ▸ hmem)⟩
  · have hnew' : doc.source ∉ σ.inFlight := hagrees.inFlight ▸ hnew
    obtain ⟨result, origins, outline, hrender, hreferences, hfiles⟩ := h.rendering hd hreads
    have hplugins : b.brief.plugins = [] := by
      obtain ⟨input, hbrief⟩ := hb.brief_eq
      rw [hbrief]
      exact h.plugins
    refine ends_transform hplugins (fun _ _ => .inl trivial) hrender fun b₁ s₁ _ halike₁ hs₁ => ?_
    refine ends_wrap fun b₂ halike₂ => ?_
    have halike := halike₁.trans halike₂
    have hstore : s₁.session.store = s.session.store.registerAll doc.registry origins := hs₁.store
    obtain ⟨-, hextends, -⟩ := hagrees.descends.registerAll hlt origins
    rw [← hstore] at hextends
    have hagrees₁ : Agrees tree (brief.files tree entry) s₁ (σ.enter doc.source) :=
      ((hagrees.enter doc.source).registerAll hlt hempty hfiles).of_same hs₁
    have htokens : (s₁.session.store.snapshot doc.registry).map Prod.fst =
        (brief.references tree doc.source).map fun p => .ofOrigin p.text := by
      have hnone : s.session.store.tokens doc.registry = ([] : List String).map Token.ofOrigin := by
        rw [Store.tokens, hempty]
        rfl
      rw [hstore, hreferences, List.map_map]
      exact Store.tokens_registerAll hagrees.descends hlt origins hnone
    unfold followAll
    simp only [Making.ends_bind, Making.ends_lift, Work.ends_session]
    refine (ends_followCells h hagrees₁ (hb.alike halike hextends.size) hinner
      (honway.enter hd hnew') hd hroot hdist hlayout hpreview (fun _ h => h) htokens
      fun _ h => h).mono ?_ fun f hf => hf.lift fun _ _ => .fail hnew'
    rintro _ b' s' ⟨rfl, σ', hcrawl, hagrees', hextends'⟩
    exact ⟨halike, σ'.leave doc.source, .take hnew' hcrawl, hagrees'.leave doc.source,
      hextends.trans hextends'⟩

theorem compiles_setPage (h : brief.Complete tree entry) (hlayout : output.layout = none)
    {count : Nat} (hinner : Compiles brief output tree entry inner (count + 1)) :
    Compiles brief output tree entry (setPage inner) count := by
  rintro d b s σ hd hsets hagrees honway rfl
  obtain ⟨hb, houtfile, doc, hdocuments, rfl, hlt, hempty, hreads⟩ := hsets
  obtain ⟨input, hbrief⟩ := hb.brief_eq
  obtain ⟨data, hdata⟩ := hb.output_eq
  obtain ⟨page, hdir, hload, horigins⟩ : ∃ page : Layout, page.dir = none ∧
      Layout.load b.output.layout b.brief.root = pure page ∧ page.origins b.brief.root = [] := by
    refine ⟨{}, rfl, ?_, Layout.origins_standard none _⟩
    rw [hdata]
    dsimp only
    rw [hlayout]
    rfl
  have hplan : (⟨b.brief.root, b.output.distDir b.brief.root, page.dir, b.outfile⟩ : Relocation) =
      ⟨brief.root, output.distDir brief.root, none, b.outfile⟩ := by
    rw [hdir, hbrief, hdata]
    rfl
  unfold setPage
  simp only [Making.ends_bind, Making.ends_bundle, hload, Making.ends_lift, Work.ends_pure, hplan,
    hdocuments, List.zipIdx_singleton]
  rw [List.forM_eq_forM, List.forM_cons, Making.ends_bind]
  refine (ends_pass h hagrees hb hinner honway hd hlt hempty hreads rfl
    (output.isNormal_distDir h.root) rfl ?_).mono ?_ fun _ h => h
  · rw [Relocation.isPreview, ← Option.not_isSome, houtfile]
    rfl
  · rintro _ b' s₁ ⟨halike, σ', hcrawl, hagrees₁, hextends⟩
    refine ends_layout (fun _ => .inl trivial) fun html s₂ hs₂ => ?_
    rw [horigins] at hs₂
    refine ⟨halike, rfl, σ', hcrawl, hagrees₁.of_same hs₂, ?_⟩
    rw [hs₂.store]
    exact hextends

/-- A depth is enough when it is more than the files that are not on their way. -/
theorem compiles_generateWithin (h : brief.Complete tree entry) (hlayout : output.layout = none)
    (depth : Nat) {count : Nat} (hcount : tree.files.length < depth + count) :
    Compiles brief output tree entry (generateWithin depth) count := by
  induction depth generalizing count with
  | zero =>
    rintro d b s σ - - - honway rfl
    have hle := h.length_le honway.nodup honway.leads
    omega
  | succ depth ih => exact compiles_setPage h hlayout (ih (by omega))

end Follow

end Bundle
end Bindery
