import Bindery.Proofs.Project.Effects

/-! How deep the pages of a run are nested. A document is taken up for a link once at most, and it is
a name of the mapping or was found in the tree, under one of its two normal names, when the run
began. So the depth that a run is given is never used up. -/

namespace Bindery

variable {brief : Brief} {output : Output} {tree : FileTree} {old : List Path} {s s' : Bench}
  {b b' : Bundle} {deep : Prop}

/-- The places at which a run that began with `tree` comes to read documents. A page may be put in
the place of the output root, whatever its name. -/
def Brief.places (brief : Brief) (output : Output) (tree : FileTree) : List Place :=
  FileTree.placeOf (output.distDir brief.root) :: tree.files.map Prod.fst

/-- A document that a link can lead to in a run that began with `tree`. -/
def Brief.Offers (brief : Brief) (output : Output) (tree : FileTree) (p : Path) : Prop :=
  p.text ∈ brief.mapping.map Prod.fst ∨
    p.IsNormal ∧ FileTree.placeOf p ∈ brief.places output tree

/-- A bench in the course of a run that began with `tree`, after `old` had been taken up. -/
structure Bench.Underway (brief : Brief) (output : Output) (tree : FileTree) (old : List Path)
    (s : Bench) : Prop where
  regular : s.Regular
  files : ∀ p : Path, p.IsNormal → p.isMarkdown = true →
    s.tree.hasFile (FileTree.placeOf p) = true → FileTree.placeOf p ∈ brief.places output tree
  opened : ∃ new, s.session.linked = old ++ new ∧ ∀ p ∈ new, brief.Offers output tree p

namespace Bench.Underway

theorem start (h : s.Regular) (brief : Brief) (output : Output) :
    s.Underway brief output s.tree s.session.linked := by
  refine ⟨h, fun p _ _ hp => ?_, [], (List.append_nil _).symm, nofun⟩
  obtain ⟨c, hc⟩ := Option.isSome_iff_exists.1 hp
  exact List.mem_cons_of_mem _ (FileTree.mem_of_lookup hc)

theorem of_regular (h : s.Underway brief output tree old) (hs : s'.Regular)
    (htree : s'.tree = s.tree) (hlinked : s'.session.linked = s.session.linked) :
    s'.Underway brief output tree old := by
  refine ⟨hs, ?_, ?_⟩
  · rw [htree]
    exact h.files
  · rw [hlinked]
    exact h.opened

theorem stocks (h : s.Underway brief output tree old) (hs : s.Stocks s') :
    s'.Underway brief output tree old :=
  h.of_regular hs.regular hs.tree hs.linked

/-- A document is taken up that the run can read. -/
theorem «open» (h : s.Underway brief output tree old) {p : Path} (hs : s'.Regular)
    (htree : s'.tree = s.tree) (hlinked : s'.session.linked = s.session.linked ++ [p])
    (hp : brief.Offers output tree p) : s'.Underway brief output tree old := by
  refine ⟨hs, ?_, ?_⟩
  · rw [htree]
    exact h.files
  · obtain ⟨new, hnew, hoffers⟩ := h.opened
    refine ⟨new ++ [p], by rw [hlinked, hnew, List.append_assoc], fun q hq => ?_⟩
    rcases List.mem_append.1 hq with hq | hq
    · exact hoffers q hq
    · exact List.mem_singleton.1 hq ▸ hp

/-- A page is written that is no document, or in the place of the output root. -/
theorem write (h : s.Underway brief output tree old) {target : Path} {c : Content}
    {after : FileTree} (hwrite : s.tree.write target c = .ok after)
    (htarget : target.IsPage ∨ target = output.distDir brief.root) :
    ({ s with tree := after } : Bench).Underway brief output tree old := by
  refine ⟨h.regular.withTree (FileTree.hasFile_nil_of_write hwrite h.regular.free),
    fun p hp hmarkdown hfile => ?_, h.opened⟩
  unfold FileTree.hasFile at hfile
  rw [(FileTree.write_spec hwrite).1] at hfile
  split at hfile
  · next hplace =>
    rcases htarget with htarget | rfl
    · exact absurd hplace.symm (htarget.placeOf_ne hmarkdown)
    · exact hplace ▸ List.mem_cons_self
  · exact h.files p hp hmarkdown hfile

/-- No more documents are taken up in a run than there are names in the mapping and names of the
places that documents are read at. -/
theorem length_le (h : s.Underway brief output tree old) : s.session.linked.length ≤
    old.length + (brief.mapping.length + 2 * (tree.files.length + 1)) := by
  obtain ⟨new, hlinked, hoffers⟩ := h.opened
  have hnodup : new.Nodup := by
    have hall := h.regular.nodup
    rw [hlinked] at hall
    exact hall.of_append_right
  let named (p : Path) : Bool := decide (p.text ∈ brief.mapping.map Prod.fst)
  have hnamed : (new.filter named).length ≤ brief.mapping.length := by
    have htexts : ((new.filter named).map (·.text)).Nodup :=
      (hnodup.filter _).map fun _ _ htext => congrArg Path.mk htext
    have hsubset : (new.filter named).map (·.text) ⊆ brief.mapping.map Prod.fst := by
      intro text htext
      obtain ⟨p, hp, rfl⟩ := List.mem_map.1 htext
      exact of_decide_eq_true (List.mem_filter.1 hp).2
    have hle := (List.Nodup.subperm htexts hsubset).length_le
    rwa [List.length_map, List.length_map] at hle
  have hplaced : (new.filter (!named ·)).length ≤ 2 * (brief.places output tree).length := by
    refine FileTree.length_le_of_placeOf_mem (hnodup.filter _) fun p hp => ?_
    obtain ⟨hmem, hnot⟩ := List.mem_filter.1 hp
    refine (hoffers p hmem).resolve_left fun hname => ?_
    simp [named, hname] at hnot
  have hsplit := new.length_eq_length_filter_add named
  have hplaces : (brief.places output tree).length = tree.files.length + 1 := by simp [Brief.places]
  rw [hlinked, List.length_append, hsplit]
  omega

end Bench.Underway

/-- All that a document refers to is in its registry, and no page can be made of it any more. -/
def Document.Followed (d : Document) (s : Store) : Prop :=
  ∀ o ∈ d.origins, .ofOrigin o ∈ s.tokens d.registry ∧ s.Resolves (.ofOrigin o)

theorem Document.Followed.later {d : Document} {s s' : Store} (h : d.Followed s)
    (hextends : s.Extends s') (hages : s.Ages s') : d.Followed s' := fun o ho =>
  ⟨hextends.tokens_subset d.registry (h o ho).1, (h o ho).2.later hextends hages⟩

namespace Bundle

/-- The tokens that are asked for when a page is made of a bundle: for what its documents refer to,
and for what its layout, loaded in `s`, refers to. -/
inductive Emits (b : Bundle) (s : Bench) : Token → Prop
  | document {d : Document} (hd : d ∈ b.documents) {o : String} (ho : o ∈ d.origins) :
    Emits b s (.ofOrigin o)
  | layout {page : Layout} {s₁ : Bench}
    (hload : (Layout.load b.output.layout b.brief.root).run.run s = (.ok page, s₁)) {o : String}
    (ho : o ∈ page.origins b.brief.root) : Emits b s (.ofOrigin o)

/-- The registry of a bundle holds in `s'` every token that was asked for since `s`. -/
def Covered (b : Bundle) (s s' : Bench) : Prop :=
  ∀ t, b.Emits s t → t ∈ s'.session.store.tokens b.registry

/-- A plan of the run. -/
structure Fits (brief : Brief) (output : Output) (plan : Relocation) : Prop where
  root : plan.root = brief.root
  dist : plan.dist = output.distDir brief.root
  layout : ∀ dir ∈ plan.layoutDir, dir.IsNormal

/-- What the first pass of a bundle, from `s` to `s'`, leaves for its page. -/
structure Yields (brief : Brief) (output : Output) (b : Bundle) (s : Bench) (g : Generated)
    (s' : Bench) : Prop where
  regular : s'.Regular
  onward : s.Onward s'
  fits : Fits brief output g.plan
  layoutDir : g.plan.layoutDir = output.layoutDir brief.root s.tree
  registry : g.registry = b.registry
  outfile : g.plan.outfile = b.outfile
  covered : b.Covered s s'
  followed : ∀ d ∈ b.documents, d.Followed s'.session.store

/-- A page is made of a bundle: its first pass goes from `s` to `s'`, where the tokens of the page
give way to paths. -/
structure Puts (b : Bundle) (s : Bench) (g : Generated) (s' : Bench) (page : WrittenPage) :
    Prop where
  generated : ∃ depth b', ((generateWithin depth).run.run b).run s = ((.ok g, b'), s')
  outfile : g.plan.outfile = some page.file
  links : page.links = (g.plan.run g.html s'.session.store g.registry).made

/-- A page that was made between `s` and `s'` of a bundle below the registry `r`. -/
def Came (brief : Brief) (output : Output) (r : RegistryId) (s : Bench) (page : WrittenPage)
    (s' : Bench) : Prop :=
  ∃ (b : Bundle) (s₀ : Bench) (g : Generated) (s₁ : Bench), s.Onward s₀ ∧ b.Puts s₀ g s₁ page ∧
    b.Yields brief output s₀ g s₁ ∧ s₁.Onward s' ∧ page.file.IsNormal ∧
    s₁.session.store.tokens g.registry ⊆ s₁.session.store.tokens r

end Bundle

/-- A part of a run, with the pages that are made in it below the registry `r`. -/
structure Bench.Advances (brief : Brief) (output : Output) (r : RegistryId) (s s' : Bench) : Prop
    extends s.Onward s' where
  pages : ∃ new, s'.session.pages = s.session.pages ++ new ∧
    ∀ page ∈ new, Bundle.Came brief output r s page s'

namespace Bench.Advances

variable {r m : RegistryId}

theorem of_pages (h : s.Onward s') (hpages : s'.session.pages = s.session.pages) :
    s.Advances brief output r s' :=
  ⟨h, [], hpages.trans (List.append_nil _).symm, nofun⟩

theorem stocks (h : s.Stocks s') : s.Advances brief output r s' := of_pages h.onward h.pages

theorem refl (s : Bench) : s.Advances brief output r s := of_pages (.refl s) rfl

theorem trans {s₁ s₂ s₃ : Bench} (h : s₁.Advances brief output r s₂)
    (h' : s₂.Advances brief output r s₃) : s₁.Advances brief output r s₃ := by
  obtain ⟨new, hnew, hcame⟩ := h.pages
  obtain ⟨new', hnew', hcame'⟩ := h'.pages
  refine ⟨h.toOnward.trans h'.toOnward, new ++ new', ?_, fun page hpage => ?_⟩
  · rw [hnew', hnew, List.append_assoc]
  · rcases List.mem_append.1 hpage with hpage | hpage
    · obtain ⟨b, s₀, g, s₄, hbefore, hputs, hyields, hafter, hrest⟩ := hcame page hpage
      exact ⟨b, s₀, g, s₄, hbefore, hputs, hyields, hafter.trans h'.toOnward, hrest⟩
    · obtain ⟨b, s₀, g, s₄, hbefore, hrest⟩ := hcame' page hpage
      exact ⟨b, s₀, g, s₄, h.toOnward.trans hbefore, hrest⟩

/-- What is made below a registry is made below its master. -/
theorem below (h : s.Advances brief output r s') (hr : r < s.session.store.registries.size)
    (hm : s.session.store.master? r = some m) : s.Advances brief output m s' := by
  obtain ⟨new, hnew, hcame⟩ := h.pages
  refine ⟨h.toOnward, new, hnew, fun page hpage => ?_⟩
  obtain ⟨b, s₀, g, s₁, hbefore, hputs, hyields, hafter, hfile, htokens⟩ := hcame page hpage
  have hmaster := ((hbefore.trans hyields.onward).master r hr).trans hm
  exact ⟨b, s₀, g, s₁, hbefore, hputs, hyields, hafter, hfile,
    List.Subset.trans htokens (hyields.regular.reachable.closed _ _ hmaster)⟩

/-- The page of a bundle is written. -/
theorem write {b : Bundle} {s₁ : Bench} {g : Generated} {page : WrittenPage}
    (h : s.Advances brief output b.registry s₁) (hputs : b.Puts s g s₁ page)
    (hyields : b.Yields brief output s g s₁) (hfile : page.file.IsNormal) (hs : s₁.Onward s')
    (hpages : s'.session.pages = s₁.session.pages ++ [page]) :
    s.Advances brief output b.registry s' := by
  obtain ⟨new, hnew, hcame⟩ := h.pages
  refine ⟨h.toOnward.trans hs, new ++ [page], ?_, fun page' hpage => ?_⟩
  · rw [hpages, hnew, List.append_assoc]
  · rcases List.mem_append.1 hpage with hpage | hpage
    · obtain ⟨b', s₀, g', s₂, hbefore, hputs', hyields', hafter, hrest⟩ := hcame page' hpage
      exact ⟨b', s₀, g', s₂, hbefore, hputs', hyields', hafter.trans hs, hrest⟩
    · obtain rfl := List.mem_singleton.1 hpage
      refine ⟨b, s, g, s₁, .refl s, hputs, hyields, hs, hfile, ?_⟩
      rw [hyields.registry]
      exact List.Subset.refl _

end Bench.Advances

namespace Bundle

/-- `inner` keeps a run in its course after `count` documents have been taken up, and fails for its
depth only if `deep`. -/
structure Goes (brief : Brief) (output : Output) (tree : FileTree) (old : List Path)
    (inner : Making Generated) (count : Nat) (deep : Prop) : Prop where
  within_depth : ∃ depth, inner = generateWithin depth
  exits : ∀ ⦃b s⦄, b.Housed brief output s → s.Underway brief output tree old →
    old.length + count ≤ s.session.linked.length →
    inner.Exits b s
      (fun g b' s' => b.Kept b' ∧ s'.Underway brief output tree old ∧
        s.Advances brief output b.registry s' ∧ b.Yields brief output s g s')
      fun e b' s' => b.Kept b' ∧ s.Falls deep e s'

variable {inner : Making Generated} {count : Nat} {plan : Relocation} {r : RegistryId}

/-- A document whose bundle was made is offered by the mapping or by a file. -/
theorem offers_of_begun {data : Json.Fields} {target : Option Path} {p : Path} {n s₁ : Bench}
    (h : s.Underway brief output tree old) (hp : p.IsNormal) (hmarkdown : p.isMarkdown = true)
    (hb : Begun { brief with input := .one p.text } { output with data } r target n b s₁)
    (htree : n.tree = s.tree) :
    brief.Offers output tree p := by
  have hsources := hb.sources
  unfold Entry.files at hsources
  dsimp only at hsources
  cases hlookup : brief.mapping.lookup p.text with
  | some e =>
    obtain ⟨before, after, hmapping, -⟩ := List.lookup_eq_some_iff.1 hlookup
    exact .inl (List.mem_map.2 ⟨_, hmapping ▸ List.mem_append_right _ List.mem_cons_self, rfl⟩)
  | none =>
    rw [hlookup] at hsources
    have hself : brief.root.resolve p = p := by
      unfold Path.resolve Path.join
      rw [if_pos hp.absolute, hp.normalize_eq]
    obtain ⟨d, hdocuments, hsource⟩ := List.map_eq_singleton_iff.1 hsources
    obtain ⟨-, -, text, hread⟩ := hb.documents d (hdocuments ▸ List.mem_cons_self)
    rw [hsource.trans hself, htree] at hread
    exact .inr ⟨hp, h.files p hp hmarkdown (FileTree.hasFile_of_read hp hread)⟩

/-- A document is taken up once, and its bundle is made. -/
theorem exits_nested (hroot : brief.root.IsNormal) (hb : b.Housed brief output s)
    (h : s.Underway brief output tree old) {p target : Path} {c : CellId} {a : Asset}
    (hslot : (.ofOrigin p.text, c) ∈ s.session.store.snapshot r)
    (ha : s.session.store.asset? c = some a) (hmarked : a.isMarked = true) (hp : p.IsNormal)
    (hmarkdown : p.isMarkdown = true) (hnew : p ∉ s.session.linked) (events : List Event) :
    (b.nested ⟨p, target⟩).Exits
      { s with session := { s.session with events, linked := s.session.linked ++ [p] } }
      (fun nb s' => nb.Housed brief output s' ∧ nb.target = some target ∧
        s'.Underway brief output tree old ∧ s.Advances brief output b.registry s' ∧
        s'.session.linked.length = s.session.linked.length + 1 ∧
        s'.session.store.master? nb.registry = some b.registry)
      (s.Falls deep) := by
  have hnoted := h.regular.noteLinked hslot ha hmarked hnew events
  have honward := Bench.Regular.onward_noteLinked s p events
  obtain ⟨input, hbrief⟩ := hb.brief_eq
  obtain ⟨data, hdata⟩ := hb.output_eq
  unfold nested
  rw [hbrief, hdata]
  refine exits_make hnoted hb.registry_lt (Bench.bears_falls honward) fun nb s₁ hbegun => ?_
  refine ⟨hbegun.housed _ _ hnoted hroot, hbegun.target_eq, ?_, ?_, ?_, hbegun.master_eq⟩
  · exact h.open hbegun.stocks.regular hbegun.stocks.tree hbegun.stocks.linked
      (offers_of_begun h hp hmarkdown hbegun rfl)
  · exact .of_pages (honward.trans hbegun.stocks.onward) hbegun.stocks.pages
  · rw [hbegun.stocks.linked, List.length_append, List.length_singleton]

/-- A document is taken up and compiled once. -/
theorem goes_follow (hroot : brief.root.IsNormal)
    (hinner : Goes brief output tree old inner (count + 1) deep) (hb : b.Housed brief output s)
    (h : s.Underway brief output tree old) (hcount : old.length + count ≤ s.session.linked.length)
    {p target : Path} {c : CellId} {a : Asset}
    (hslot : (.ofOrigin p.text, c) ∈ s.session.store.snapshot r)
    (ha : s.session.store.asset? c = some a) (hmarked : a.isMarked = true) (hp : p.IsNormal)
    (hmarkdown : p.isMarkdown = true) (hnew : p ∉ s.session.linked) (hnormal : target.IsNormal)
    (htarget : target.IsPage ∨ target = output.distDir brief.root) :
    (follow inner ⟨p, target⟩).Exits b s
      (fun _ b' s' => b' = b ∧ s'.Underway brief output tree old ∧
        s.Advances brief output b.registry s')
      fun e b' s' => b' = b ∧ s.Falls deep e s' := by
  obtain ⟨depth, hdepth⟩ := hinner.within_depth
  unfold follow
  simp only [Making.exits_bind, Making.exits_lift, Work.exits_session]
  split
  · exact ⟨rfl, h, .refl s⟩
  · simp only [Making.exits_bind, Making.exits_lift, Work.exits_log, Work.exits_noteLinked,
      Making.exits_bundle]
    refine (exits_nested hroot hb h hslot ha hmarked hp hmarkdown hnew _).mono ?_
      fun e s' hfalls => ⟨trivial, hfalls⟩
    rintro nb s₁ ⟨hhoused, htarget_eq, hunderway, hadvances, hlength, hmaster⟩
    have houtfile : nb.outfile = some target := by
      unfold outfile
      rw [htarget_eq, Option.some_or]
    simp only [Making.exits_bind, Making.exits_pure, Making.exits_within]
    refine (hinner.exits hhoused hunderway (by omega)).of_run.mono ?_ fun e b' s' hfalls =>
      ⟨trivial, hfalls.2.after hadvances.toOnward⟩
    rintro g nb' s₂ ⟨hrun, hkept, hunderway₂, hadvances₂, hyields⟩
    have hnested : nb'.isNested = true :=
      hkept.isNested_eq.trans (congrArg Option.isSome htarget_eq)
    have hfile : g.plan.outfile = some target := hyields.outfile.trans houtfile
    have honward := hadvances.toOnward.trans hadvances₂.toOnward
    simp only [Making.exits_bundle, Making.exits_lift]
    refine exits_emit hunderway₂.regular
      (fun e s' he hs => ⟨trivial, Bench.bears_falls honward e s' he hs⟩)
      (fun hnone => ?_) fun outfile after assets report s₃ houtfile' hwrite hassets hs₃ => ?_
    · rw [hfile] at hnone
      cases hnone
    · obtain rfl := Option.some.inj (hfile.symm.trans houtfile')
      obtain ⟨hregular, honward₃⟩ := regular_of_written hunderway₂.regular hwrite hs₃
      have hputs : nb.Puts s₁ g s₂
          ⟨target, (g.plan.run g.html s₂.session.store g.registry).made⟩ :=
        ⟨⟨depth, nb', hdepth ▸ hrun⟩, hfile, rfl⟩
      have hwritten := hadvances₂.write hputs hyields hnormal honward₃ hs₃.pages
      have htree : s₃.tree = after := by
        rw [hs₃.tree, hassets.nested hnested]
        rfl
      refine ⟨trivial, ?_, hadvances.trans (hwritten.below hhoused.registry_lt hmaster)⟩
      exact (hunderway₂.write hwrite htarget).of_regular hregular htree hs₃.linked

/-- A link that is found leads to a document which was not taken up yet, and whose asset has become
a page. Either way no page can be made of the asset any more. -/
theorem exits_markLink_underway (hroot : brief.root.IsNormal) (h : s.Underway brief output tree old)
    (hplan : Fits brief output plan) {d : Path} {t : Token} {c : CellId}
    (hslot : (t, c) ∈ s.session.store.snapshot r) {Q : Option Link → Bench → Prop}
    {E : Failure → Bench → Prop}
    (hnone : ∀ s', s'.Underway brief output tree old → s.Onward s' →
      s'.session.pages = s.session.pages → s'.session.store.Resolves t → Q none s')
    (hlink : ∀ p target a s', s'.Underway brief output tree old → s.Onward s' →
      s'.session.pages = s.session.pages → s'.session.store.Resolves t →
      s'.session.linked = s.session.linked →
      (.ofOrigin p.text, c) ∈ s'.session.store.snapshot r → s'.session.store.asset? c = some a →
      a.isMarked = true → p.IsNormal → p.isMarkdown = true → p ∉ s'.session.linked →
      target.IsNormal → (target.IsPage ∨ target = output.distDir brief.root) →
      Q (some ⟨p, target⟩) s') :
    (markLink? plan d c).Exits s Q E := by
  have hslot₀ := h.regular.descends.inRoot r _ hslot
  refine exits_markLink h.regular hslot (fun hfinal => ?_) ?_
  · obtain ⟨a, ha, hnormal, -⟩ := h.regular.exists_asset hslot
    exact hnone s h (.refl s) rfl ⟨c, a, hslot₀, ha, hnormal, hfinal a ha⟩
  · rintro a placed _ ha ⟨hnormal, hunlinked⟩ hunmarked hmarkdown hplaced rfl
    have hbecomes : a.Becomes placed := by
      rw [hplaced]
      exact .page_place plan hnormal hunmarked hmarkdown
    have hmarked : placed.isMarked = true := by
      rw [hplaced]
      exact Relocation.isMarked_place
    obtain ⟨hregular, honward⟩ := h.regular.mark hslot ha hbecomes hmarked
    have hunderway := h.of_regular hregular rfl rfl
    obtain ⟨rfl, hnew⟩ := hunlinked hunmarked
    obtain ⟨-, hsource⟩ := hbecomes.page hunmarked hmarked
    have htarget : (placed.target.getD (a.source.withExtension "html")).IsPage ∨
        placed.target.getD (a.source.withExtension "html") = output.distDir brief.root := by
      have hpage := Relocation.isPage_target_or (hplan.root ▸ hroot)
        (hplan.dist ▸ output.isNormal_distDir hroot) hplan.layout hnormal hmarkdown
        (a := { a with source := a.source.withExtension "html", isMarked := true }) rfl
      rw [← hplaced, hplan.dist] at hpage
      refine hpage.imp_right fun hdist => ?_
      rw [hdist.2, Option.getD_some]
    have hnormal' : (placed.target.getD (a.source.withExtension "html")).IsNormal := by
      rw [← hsource, hplaced]
      refine Relocation.isNormal_place (hplan.dist ▸ output.isNormal_distDir hroot)
        (hplan.root ▸ hroot) hplan.layout ?_
      have habsolute := hbecomes.normal.absolute
      rwa [hsource] at habsolute
    have hasset : (s.session.store.modifyCell c fun _ => placed).asset? c = some placed := by
      rw [Store.asset?_modifyCell, if_pos rfl, ha, Option.map_some]
    have hresolves : (s.session.store.modifyCell c fun _ => placed).Resolves
        (.ofOrigin a.source.text) :=
      ⟨c, placed, hslot₀, hasset, hbecomes.normal, .inl hmarked⟩
    exact ⟨hnone _ hunderway honward rfl hresolves, fun _ => hlink a.source _ placed _ hunderway
      honward rfl hresolves rfl hslot hasset hmarked hnormal hmarkdown hnew hnormal' htarget⟩

/-- What a reference of a document brings about. -/
theorem goes_followCell (hroot : brief.root.IsNormal)
    (hinner : Goes brief output tree old inner (count + 1) deep) (hb : b.Housed brief output s)
    (h : s.Underway brief output tree old) (hcount : old.length + count ≤ s.session.linked.length)
    (hplan : Fits brief output plan) {d : Path} {t : Token} {c : CellId}
    (hslot : (t, c) ∈ s.session.store.snapshot r) :
    (followCell inner plan d c).Exits b s
      (fun _ b' s' => b' = b ∧ s'.Underway brief output tree old ∧
        s.Advances brief output b.registry s' ∧ s'.session.store.Resolves t)
      fun e b' s' => b' = b ∧ s.Falls deep e s' := by
  unfold followCell
  simp only [Making.exits_bind, Making.exits_lift]
  refine exits_markLink_underway hroot h hplan hslot (fun s' hunderway honward hpages hresolves =>
    ⟨rfl, hunderway, .of_pages honward hpages, hresolves⟩) ?_
  intro p target a s₁ hunderway honward hpages hresolves hlinked hslot₁ ha hmarked hp hmarkdown hnew
    hnormal htarget
  refine (goes_follow hroot hinner (hb.onward honward) hunderway (hlinked.symm ▸ hcount) hslot₁ ha
    hmarked hp hmarkdown hnew hnormal htarget).mono ?_ ?_
  · rintro _ b' s' ⟨rfl, hunderway', hadvances⟩
    exact ⟨rfl, hunderway', (Bench.Advances.of_pages honward hpages).trans hadvances,
      hresolves.later hadvances.extends_store hadvances.ages⟩
  · rintro e b' s' ⟨rfl, hfalls⟩
    exact ⟨rfl, hfalls.after honward⟩

/-- The references of a document are gone along in their order. -/
theorem goes_followCells (hroot : brief.root.IsNormal)
    (hinner : Goes brief output tree old inner (count + 1) deep) (hb : b.Housed brief output s)
    (h : s.Underway brief output tree old) (hcount : old.length + count ≤ s.session.linked.length)
    (hplan : Fits brief output plan) {d : Path} {slots : List (Token × CellId)}
    (hslots : ∀ slot ∈ slots, slot ∈ s.session.store.snapshot r) :
    (slots.forM fun (_, cell) => followCell inner plan d cell).Exits b s
      (fun _ b' s' => b' = b ∧ s'.Underway brief output tree old ∧
        s.Advances brief output b.registry s' ∧
        ∀ slot ∈ slots, s'.session.store.Resolves slot.1)
      fun e b' s' => b' = b ∧ s.Falls deep e s' := by
  induction slots generalizing s with
  | nil => exact ⟨rfl, h, .refl s, nofun⟩
  | cons slot slots ih =>
    rw [List.forM_eq_forM, List.forM_cons, Making.exits_bind]
    refine (goes_followCell hroot hinner hb h hcount hplan (hslots slot List.mem_cons_self)).mono ?_
      fun _ _ _ h => h
    rintro _ b₁ s₁ ⟨rfl, hunderway, hadvances, hresolves⟩
    refine (ih (hb.onward hadvances.toOnward) hunderway
      (Nat.le_trans hcount hadvances.linked.length_le) fun slot' hslot' => ?_).mono ?_ ?_
    · exact hadvances.extends_store.slots r _ (hslots slot' (List.mem_cons_of_mem _ hslot'))
    · rintro _ b' s' ⟨rfl, hunderway', hadvances', hall⟩
      refine ⟨rfl, hunderway', hadvances.trans hadvances', fun slot' hslot' => ?_⟩
      rcases List.mem_cons.1 hslot' with rfl | hslot'
      · exact hresolves.later hadvances'.extends_store hadvances'.ages
      · exact hall slot' hslot'
    · rintro e b' s' ⟨rfl, hfalls⟩
      exact ⟨rfl, hfalls.after hadvances.toOnward⟩

variable {i : Nat} {d : Document}

/-- A document is taken up, rendered and wrapped. -/
theorem exits_takeUp {E : Failure → Bundle → Bench → Prop} {Q : Unit → Bundle → Bench → Prop}
    (h : s.Regular) (hlt : d.registry < s.session.store.registries.size)
    (hdir : ∃ dir, d.source.parent? = some dir ∧ dir.IsNormal)
    (hE : ∀ b', b.Kept b' → s.Bears fun e s' => E e b' s')
    (hQ : ∀ b' s', b.Kept b' → s.Stocks s' →
      (∀ o ∈ d.origins, .ofOrigin o ∈ s'.session.store.tokens d.registry) → Q () b' s') :
    (Work.enter d.source).Exits s
      (fun _ s' => (transform i d).Exits b s' (fun _ b' s' => (wrap i).Exits b' s' Q E) E)
      fun e s' => E e b s' := by
  refine Work.exits_enter h (hE b (.refl b)) fun s₁ hs₁ => ?_
  have hlt₁ := Nat.lt_of_lt_of_le hlt hs₁.onward.extends_store.size
  refine exits_transform hs₁.regular hlt₁ hdir (fun b' hkept => (hE b' hkept).after hs₁)
    fun b₁ s₂ hkept₁ hs₂ htokens => ?_
  exact exits_wrap fun b₂ hkept₂ => hQ b₂ s₂ (hkept₁.trans hkept₂) (hs₁.trans hs₂) htokens

/-- The links of a document are gone through, and it is laid down. -/
theorem goes_pass (hroot : brief.root.IsNormal)
    (hinner : Goes brief output tree old inner (count + 1) deep) (hb : b.Housed brief output s)
    (h : s.Underway brief output tree old) (hcount : old.length + count ≤ s.session.linked.length)
    (hplan : Fits brief output plan) (hlt : d.registry < s.session.store.registries.size)
    (hdir : ∃ dir, d.source.parent? = some dir ∧ dir.IsNormal) :
    (pass inner plan i d).Exits b s
      (fun _ b' s' => b.Kept b' ∧ s'.Underway brief output tree old ∧
        s.Advances brief output b.registry s' ∧ d.Followed s'.session.store)
      fun e b' s' => b.Kept b' ∧ s.Falls deep e s' := by
  unfold pass followAll
  simp only [Making.exits_bind, Making.exits_lift, Work.exits_session]
  refine exits_takeUp h.regular hlt hdir
    (fun b' hkept e s' he hs => ⟨hkept, Bench.bears_falls (.refl s) e s' he hs⟩)
    fun b₁ s₁ hkept hs htokens => ?_
  refine (goes_followCells hroot hinner ((hb.onward hs.onward).kept hkept) (h.stocks hs)
    (hs.linked.symm ▸ hcount) hplan fun _ h => h).mono ?_ ?_
  · rintro _ b' s₂ ⟨rfl, hunderway, hadvances, hresolves⟩
    rw [hkept.registry] at hadvances
    have hfollowed : d.Followed s₂.session.store := fun o ho => by
      obtain ⟨slot, hslot, htoken⟩ := List.mem_map.1 (htokens o ho)
      exact ⟨hadvances.extends_store.tokens_subset d.registry (htokens o ho),
        htoken ▸ hresolves slot hslot⟩
    refine Work.exits_leave hunderway.regular fun s₃ hs₃ => ?_
    exact ⟨hkept, hunderway.stocks hs₃, ((Bench.Advances.stocks hs).trans hadvances).trans (.stocks hs₃),
      hfollowed.later hs₃.onward.extends_store hs₃.onward.ages⟩
  · rintro e b' s₂ ⟨rfl, hfalls⟩
    exact ⟨hkept, hfalls.after hs.onward⟩

theorem goes_passes (hroot : brief.root.IsNormal)
    (hinner : Goes brief output tree old inner (count + 1) deep) {docs : List (Document × Nat)}
    (hb : b.Housed brief output s) (h : s.Underway brief output tree old)
    (hcount : old.length + count ≤ s.session.linked.length) (hplan : Fits brief output plan)
    (hdocs : ∀ x ∈ docs, x.1.registry < s.session.store.registries.size ∧
      ∃ dir, x.1.source.parent? = some dir ∧ dir.IsNormal) :
    (docs.forM fun (d, i) => pass inner plan i d).Exits b s
      (fun _ b' s' => b.Kept b' ∧ s'.Underway brief output tree old ∧
        s.Advances brief output b.registry s' ∧ ∀ x ∈ docs, x.1.Followed s'.session.store)
      fun e b' s' => b.Kept b' ∧ s.Falls deep e s' := by
  induction docs generalizing b s with
  | nil => exact ⟨.refl b, h, .refl s, nofun⟩
  | cons x docs ih =>
    rw [List.forM_eq_forM, List.forM_cons, Making.exits_bind]
    obtain ⟨hlt, hdir⟩ := hdocs x List.mem_cons_self
    refine (goes_pass hroot hinner hb h hcount hplan hlt hdir).mono ?_ fun _ _ _ h => h
    rintro _ b₁ s₁ ⟨hkept, hunderway, hadvances, hfollowed⟩
    refine (ih ((hb.onward hadvances.toOnward).kept hkept) hunderway
      (Nat.le_trans hcount hadvances.linked.length_le) fun y hy => ?_).mono ?_ ?_
    · obtain ⟨hlt', hdir'⟩ := hdocs y (List.mem_cons_of_mem _ hy)
      exact ⟨Nat.lt_of_lt_of_le hlt' hadvances.extends_store.size, hdir'⟩
    · rintro _ b₂ s₂ ⟨hkept', hunderway', hadvances', hall⟩
      rw [hkept.registry] at hadvances'
      refine ⟨hkept.trans hkept', hunderway', hadvances.trans hadvances', fun y hy => ?_⟩
      rcases List.mem_cons.1 hy with rfl | hy
      · exact hfollowed.later hadvances'.extends_store hadvances'.ages
      · exact hall y hy
    · rintro e b₂ s₂ ⟨hkept', hfalls⟩
      exact ⟨hkept.trans hkept', hfalls.after hadvances.toOnward⟩

/-- A registry that documents have below it holds what they hold. -/
theorem tokens_subset_of_housed (h : s.Regular) (hb : b.Housed brief output s)
    (hd : d ∈ b.documents) :
    s.session.store.tokens d.registry ⊆ s.session.store.tokens b.registry :=
  h.reachable.closed _ _ (hb.documents d hd).2.1

/-- The layout of a bundle is loaded, and its plan is one of the run. -/
theorem exits_loadLayout (hroot : brief.root.IsNormal) (hb : b.Housed brief output s) (h : s.Regular)
    {Q : Layout → Bench → Prop} {E : Failure → Bench → Prop} (hE : s.Bears E)
    (hQ : ∀ page s', (Layout.load b.output.layout b.brief.root).run.run s = (.ok page, s') →
      s.Stocks s' → b.brief.root.IsNormal → page.dir = output.layoutDir brief.root s.tree →
      Fits brief output ⟨b.brief.root, b.output.distDir b.brief.root, page.dir, b.outfile⟩ →
      Q page s') :
    (Layout.load b.output.layout b.brief.root).Exits s Q E := by
  obtain ⟨input, hbrief⟩ := hb.brief_eq
  obtain ⟨data, hdata⟩ := hb.output_eq
  have hroot_eq : b.brief.root = brief.root := by rw [hbrief]
  have hlayout_eq : b.output.layout = output.layout := by rw [hdata]
  have hload : (Layout.load b.output.layout b.brief.root).Exits s
      (fun page s' => s.Stocks s' ∧ (∀ dir ∈ page.dir, dir.IsNormal) ∧
        page.dir = b.output.layoutDir b.brief.root s.tree) E :=
    Layout.exits_load h hE (hroot_eq.symm ▸ hroot) fun page s' hs' hdir heq => ⟨hs', hdir, heq⟩
  refine hload.of_run.mono ?_ fun _ _ h => h
  rintro page s' ⟨hrun, hs', hdir, heq⟩
  refine hQ page s' hrun hs' (hroot_eq.symm ▸ hroot) ?_ ⟨hroot_eq, ?_, hdir⟩
  · rw [heq, Output.layoutDir, hlayout_eq, hroot_eq]
    rfl
  · rw [hroot_eq, hdata]
    rfl

theorem goes_setPage (hroot : brief.root.IsNormal)
    (hinner : Goes brief output tree old inner (count + 1) deep) :
    Goes brief output tree old (setPage inner) count deep := by
  obtain ⟨depth, rfl⟩ := hinner.within_depth
  refine ⟨⟨depth + 1, rfl⟩, fun b s hb h hcount => ?_⟩
  unfold setPage
  simp only [Making.exits_bind, Making.exits_bundle, Making.exits_lift]
  refine exits_loadLayout hroot hb h.regular
    (fun e s' he hs => ⟨.refl b, Bench.bears_falls (.refl s) e s' he hs⟩)
    fun page s₁ hrun hs₁ hroot' hdir hfits => ?_
  have hb₁ := hb.onward hs₁.onward
  refine (goes_passes hroot hinner hb₁ (h.stocks hs₁) (hs₁.linked.symm ▸ hcount) hfits
    fun x hx => ?_).mono ?_ ?_
  · obtain ⟨hlt, -, hparent⟩ := hb₁.documents x.1 (List.fst_mem_of_mem_zipIdx hx)
    exact ⟨hlt, hparent⟩
  · rintro _ b₂ s₂ ⟨hkept, hunderway, hadvances, hfollowed⟩
    have hb₂ := (hb₁.onward hadvances.toOnward).kept hkept
    have hmade := hs₁.onward.trans hadvances.toOnward
    refine Layout.exits_render hunderway.regular
      (fun e s' he hs => ⟨hkept, Bench.bears_falls hmade e s' he hs⟩) hroot' hfits.layout
      hb₂.registry_lt fun html s₃ hs₃ hlayout => ?_
    have hall : ∀ d ∈ b.documents, d.Followed s₃.session.store := fun d hd => by
      obtain ⟨j, hj⟩ := List.getElem?_of_mem hd
      have hmem : (d, j) ∈ b.documents.zipIdx := List.mem_zipIdx_iff_getElem?.2 hj
      exact (hfollowed _ hmem).later hs₃.onward.extends_store hs₃.onward.ages
    refine ⟨hkept, hunderway.stocks hs₃,
      ((Bench.Advances.stocks hs₁).trans hadvances).trans (.stocks hs₃), hs₃.regular,
      hmade.trans hs₃.onward, hfits, hdir, hkept.registry, rfl, fun t ht => ?_, hall⟩
    cases ht with
    | @document d hd o ho =>
      refine tokens_subset_of_housed hs₃.regular (hb₁.onward ?_) hd (hall d hd o ho).1
      exact hadvances.toOnward.trans hs₃.onward
    | @layout page' s' hload o ho =>
      obtain rfl : page = page' := by
        rw [hrun] at hload
        exact Except.ok.inj (congrArg Prod.fst hload)
      rw [← hkept.registry]
      exact hlayout o ho
  · rintro e b₂ s₂ ⟨hkept, hfalls⟩
    exact ⟨hkept, hfalls.after hs₁.onward⟩

/-- A depth is used up only if it is no more than the documents that can still be taken up. -/
theorem goes_generateWithin (hroot : brief.root.IsNormal) (depth : Nat) : ∀ count,
    Goes brief output tree old (generateWithin depth) count
      (depth + count ≤ brief.mapping.length + 2 * (tree.files.length + 1)) := by
  induction depth with
  | zero =>
    refine fun count => ⟨⟨0, rfl⟩, fun b s _ h hcount => ⟨.refl b, fun _ => ?_, h.regular, .refl s⟩⟩
    have hle := h.length_le
    omega
  | succ depth ih =>
    intro count
    have hinner := ih (count + 1)
    rw [← Nat.add_assoc, Nat.add_right_comm] at hinner
    exact goes_setPage hroot hinner

end Bundle
end Bindery
