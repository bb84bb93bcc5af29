import Bindery.Proofs.Project.Exits
import Bindery.Proofs.Project.Regular
import Bindery.Proofs.Rendering.Asked

/-! What the steps of a compilation do to a regular bench, with any plugins and whether they fail or
not. -/

namespace Bindery

variable {α : Type} {s s' : Bench} {E : Failure → Bench → Prop}

namespace Work

theorem exits_forM_log {level : Level} (line : α → String) (l : List α)
    {Q : Unit → Bench → Prop} (hQ : ∀ s', s.Quiet s' → Q () s') :
    (l.forM fun a => log level (line a)).Exits s Q E := by
  refine (exits_forM (I := s.Quiet) (fun _ _ _ hs => ?_) (.refl s)).mono (fun _ => hQ) fun _ _ h => h
  exact exits_log.2 (hs.trans ⟨rfl, rfl, rfl, rfl, rfl⟩)

theorem exits_register {f : Store → α × Store} {Q : α → Bench → Prop}
    (h : s.Stocks (s.withStore (f s.session.store).2))
    (hQ : ∀ s', s.Stocks s' → s'.session.store = (f s.session.store).2 →
      Q (f s.session.store).1 s') : (register f).Exits s Q E := by
  unfold register
  simp only [exits_bind, exits_session, exits_modifyStore, exits_pure]
  exact exits_forM_log _ _ fun s' hs' =>
    hQ s' (h.trans (h.regular.stocks_of_quiet hs')) hs'.store

theorem exits_read (h : s.Regular) (hE : s.Bears E) {path : Path} {Q : String → Bench → Prop}
    (hQ : ∀ text s', s.tree.read path = .ok text → s.Stocks s' → Q text s') :
    (read path).Exits s Q E := by
  unfold read
  simp only [exits_bind, exits_ask, exits_get, exits_ofExcept]
  cases hread : s.tree.read path with
  | error f => exact hE _ _ Failure.noConfusion (h.stocks_of_quiet ⟨rfl, rfl, rfl, rfl, rfl⟩)
  | ok text => exact hQ text _ hread (h.stocks_of_quiet ⟨rfl, rfl, rfl, rfl, rfl⟩)

theorem exits_write (h : s.Regular) (hE : s.Bears E) {path : Path} {text : String}
    {Q : Unit → Bench → Prop}
    (hQ : ∀ tree s', s.tree.write path (.text text) = .ok tree →
      Bench.Quiet { s with tree } s' → Q () s') :
    (write path text).Exits s Q E := by
  unfold write
  simp only [exits_bind, exits_ask, exits_get, exits_ofExcept]
  cases hwrite : s.tree.write path (.text text) with
  | error f => exact hE _ _ Failure.noConfusion (h.stocks_of_quiet ⟨rfl, rfl, rfl, rfl, rfl⟩)
  | ok tree => exact hQ tree _ hwrite ⟨rfl, rfl, rfl, rfl, rfl⟩

theorem exits_enter (h : s.Regular) (hE : s.Bears E) {d : Path} {Q : Unit → Bench → Prop}
    (hQ : ∀ s', s.Stocks s' → Q () s') : (enter d).Exits s Q E := by
  unfold enter
  simp only [exits_bind, exits_session]
  split
  · exact hE _ _ Failure.noConfusion h.stocks_refl
  · exact hQ _ (h.stocks_of_quiet ⟨rfl, rfl, rfl, rfl, rfl⟩)

theorem exits_leave (h : s.Regular) {d : Path} {Q : Unit → Bench → Prop}
    (hQ : ∀ s', s.Stocks s' → Q () s') : (leave d).Exits s Q E :=
  hQ _ (h.stocks_of_quiet ⟨rfl, rfl, rfl, rfl, rfl⟩)

/-- Plugins give a value, or a failure of their own. -/
theorem exits_runPlugins (h : s.Regular) {hook : Plugin.Hook α} {plugins : List Plugin} {value : α}
    {options : Markdown.Options} {Q : Except Failure α × Markdown.Options → Bench → Prop}
    (hQ : ∀ result options s', (∀ e, result = .error e → e ≠ .tooDeep) → s.Stocks s' →
      Q (result, options) s') : (runPlugins hook plugins value options).Exits s Q E := by
  unfold runPlugins
  simp only [exits_bind, exits_modifySession, exits_pure]
  refine hQ _ _ _ (fun e he => ?_) (h.stocks_of_quiet ⟨rfl, rfl, rfl, rfl, rfl⟩)
  cases hresult : (Plugin.runAll hook plugins value options).result with
  | ok a =>
    rw [hresult] at he
    cases he
  | error f =>
    rw [hresult] at he
    obtain rfl := Except.error.inj he
    exact Failure.noConfusion

end Work

namespace Document

theorem exits_split (h : s.Regular) (hE : s.Bears E) {body extra : String} {plugins : List Plugin}
    {options : Markdown.Options} {d : Document} {Q : Document → Bench → Prop}
    (hQ : ∀ d' s', d'.source = d.source → d'.registry = d.registry → s.Stocks s' → Q d' s') :
    (do
      let nodes := Markdown.tokenize (body ++ extra) options
      let (nodes, options) ← Work.runPlugins Plugin.tokenizeHook plugins nodes options
      let nodes ← Work.ofExcept id nodes
      Work.log .debug s!"tokenized {d.source.text} ({nodes.length} nodes)"
      return { d with nodes, options }).Exits s Q E := by
  rw [Work.exits_bind]
  refine Work.exits_runPlugins h fun result options s₁ hresult hs₁ => ?_
  simp only [Work.exits_bind, Work.exits_ofExcept, Work.exits_log, Work.exits_pure]
  cases result with
  | error e => exact hE _ _ (hresult e rfl) hs₁
  | ok nodes =>
    exact hQ _ _ rfl rfl (hs₁.trans (hs₁.regular.stocks_of_quiet ⟨rfl, rfl, rfl, rfl, rfl⟩))

/-- A document that is there is read, whatever plugins make of its text. -/
theorem exits_read (h : s.Regular) (hE : s.Bears E) {declaration : Option Path}
    {plugins : List Plugin} {options : Markdown.Options} {d : Document}
    {Q : Document → Bench → Prop}
    (hQ : ∀ text d' s', s.tree.read d.source = .ok text → d'.source = d.source →
      d'.registry = d.registry → s.Stocks s' → Q d' s') :
    (d.read declaration plugins options).Exits s Q E := by
  unfold read
  rw [Work.exits_bind]
  refine Work.exits_read h hE fun body s₁ hbody hs₁ => ?_
  cases declaration with
  | none =>
    exact exits_split hs₁.regular (hE.after hs₁) fun d' s₂ hsource hregistry hs₂ =>
      hQ body d' s₂ hbody hsource hregistry (hs₁.trans hs₂)
  | some path =>
    dsimp only
    rw [Work.exits_bind]
    refine Work.exits_read hs₁.regular (hE.after hs₁) fun extra s₂ _ hs₂ => ?_
    have hs := hs₁.trans hs₂
    exact exits_split hs.regular (hE.after hs) fun d' s₃ hsource hregistry hs₃ =>
      hQ body d' s₃ hbody hsource hregistry (hs.trans hs₃)

end Document

namespace Bundle

variable {b b' : Bundle}

/-- Two bundles that differ only in the data of their page, and in what was made of their
documents. -/
structure Kept (b b' : Bundle) : Prop extends b.Alike b' where
  documents : b'.documents.map (fun d => (d.source, d.registry)) =
    b.documents.map fun d => (d.source, d.registry)

theorem Kept.refl (b : Bundle) : b.Kept b := ⟨.refl b, rfl⟩

theorem Kept.trans {b₁ b₂ b₃ : Bundle} (h : b₁.Kept b₂) (h' : b₂.Kept b₃) : b₁.Kept b₃ :=
  ⟨h.toAlike.trans h'.toAlike, h'.documents.trans h.documents⟩

theorem Kept.modify (b : Bundle) (i : Nat) {f : Document → Document}
    (hf : ∀ d, (f d).source = d.source ∧ (f d).registry = d.registry) :
    b.Kept { b with documents := b.documents.modify i f } := by
  refine ⟨⟨rfl, rfl, rfl, rfl⟩, List.ext_getElem? fun j => ?_⟩
  rw [List.getElem?_map, List.getElem?_map, List.getElem?_modify]
  cases b.documents[j]? with
  | none => rfl
  | some d =>
    obtain ⟨hsource, hregistry⟩ := hf d
    split
    · exact congrArg some (Prod.ext hsource hregistry)
    · rfl

/-- A bundle of a run, each of whose documents has a registry below the bundle's and lies in a
directory. -/
structure Housed (brief : Brief) (output : Output) (s : Bench) (b : Bundle) : Prop
    extends b.Of brief output s where
  documents : ∀ d ∈ b.documents, d.registry < s.session.store.registries.size ∧
    s.session.store.master? d.registry = some b.registry ∧
    ∃ dir, d.source.parent? = some dir ∧ dir.IsNormal

variable {brief : Brief} {output : Output} {master : RegistryId}

theorem Housed.onward (h : b.Housed brief output s) (hs : s.Onward s') :
    b.Housed brief output s' where
  brief_eq := h.brief_eq
  output_eq := h.output_eq
  registry_lt := Nat.lt_of_lt_of_le h.registry_lt hs.extends_store.size
  documents d hd := by
    obtain ⟨hlt, hmaster, hdir⟩ := h.documents d hd
    exact ⟨Nat.lt_of_lt_of_le hlt hs.extends_store.size, (hs.master _ hlt).trans hmaster, hdir⟩

theorem Housed.kept (h : b.Housed brief output s) (hb : b.Kept b') :
    b'.Housed brief output s := by
  refine ⟨h.toOf.alike hb.toAlike (Nat.le_refl _), fun d hd => ?_⟩
  obtain ⟨d₀, hd₀, heq⟩ := List.mem_map.1 (hb.documents ▸ List.mem_map_of_mem hd)
  obtain ⟨hsource, hregistry⟩ := Prod.mk.inj heq
  rw [← hsource, ← hregistry, hb.registry]
  exact h.documents d₀ hd₀

/-- A bundle as it is made below the registry `master`. -/
structure Begun (brief : Brief) (output : Output) (master : RegistryId) (target : Option Path)
    (s : Bench) (b : Bundle) (s' : Bench) : Prop where
  stocks : s.Stocks s'
  brief_eq : b.brief = brief
  output_eq : b.output = output
  target_eq : b.target = target
  registry_lt : b.registry < s'.session.store.registries.size
  master_eq : s'.session.store.master? b.registry = some master
  sources : b.documents.map (·.source) = brief.input.files brief.mapping brief.root
  documents : ∀ d ∈ b.documents, d.registry < s'.session.store.registries.size ∧
    s'.session.store.master? d.registry = some b.registry ∧ ∃ text, s.tree.read d.source = .ok text

theorem Begun.housed (input : Entry) (data : Json.Fields) {target : Option Path} (h : s.Regular)
    (hroot : brief.root.IsNormal)
    (hb : Begun { brief with input } { output with data } master target s b s') :
    b.Housed brief output s' := by
  refine ⟨⟨⟨input, hb.brief_eq⟩, ⟨data, hb.output_eq⟩, hb.registry_lt⟩, fun d hd => ?_⟩
  obtain ⟨hlt, hmaster, text, hread⟩ := hb.documents d hd
  have hmem : d.source ∈ input.files brief.mapping brief.root :=
    hb.sources ▸ List.mem_map_of_mem hd
  obtain ⟨path, -, hpath⟩ := List.mem_map.1 hmem
  have hnormal : d.source.IsNormal :=
    hpath ▸ Path.isNormal_resolve_of_absolute hroot.absolute ⟨path⟩
  exact ⟨hlt, hmaster, FileTree.exists_parent_of_read h.free hnormal hread⟩

section Make

theorem exits_newChildren {sources : List Path} {Q : List Document → Bench → Prop} (h : s.Regular)
    (hm : master < s.session.store.registries.size)
    (hQ : ∀ ds s', s.Stocks s' → ds.map (·.source) = sources →
      (∀ d ∈ ds, d.registry < s'.session.store.registries.size ∧
        s'.session.store.master? d.registry = some master) → Q ds s') :
    (sources.mapM fun source => do
      let (store, child) := (← Work.session).store.newChild master
      Work.modifyStore fun _ => store
      return ({ source, registry := child } : Document)).Exits s Q E := by
  induction sources generalizing s Q with
  | nil => exact hQ [] s h.stocks_refl rfl nofun
  | cons source sources ih =>
    rw [List.mapM_cons]
    simp only [Work.exits_bind, Work.exits_session, Work.exits_modifyStore, Work.exits_pure]
    have hchild := h.newChild hm
    obtain ⟨-, hextends, hsize⟩ := h.descends.newChild hm
    have hmaster : (s.session.store.newChild master).1.master? s.session.store.registries.size =
        some master := (Store.master?_newChild _ _ _).trans (if_pos rfl)
    have hlt : s.session.store.registries.size <
        (s.session.store.newChild master).1.registries.size := hsize ▸ Nat.lt_succ_self _
    refine ih hchild.regular (Nat.lt_of_lt_of_le hm hextends.size) fun ds s' hs hsources hall => ?_
    refine hQ (⟨source, s.session.store.registries.size, {}, [], [], ""⟩ :: ds) s' (hchild.trans hs)
      (congrArg (source :: ·) hsources) fun d hd => ?_
    rcases List.mem_cons.1 hd with rfl | hd
    · exact ⟨Nat.lt_of_lt_of_le hlt hs.onward.extends_store.size,
        (hs.onward.master _ hlt).trans hmaster⟩
    · exact hall d hd

theorem exits_reads {ds : List Document} {declaration : Option Path} {plugins : List Plugin}
    {options : Markdown.Options} {Q : List Document → Bench → Prop} (h : s.Regular) (hE : s.Bears E)
    (hQ : ∀ ds' s', s.Stocks s' →
      ds'.map (fun d => (d.source, d.registry)) = ds.map (fun d => (d.source, d.registry)) →
      (∀ d ∈ ds', ∃ text, s.tree.read d.source = .ok text) → Q ds' s') :
    (ds.mapM fun d : Document => d.read declaration plugins options).Exits s Q E := by
  induction ds generalizing s Q with
  | nil => exact hQ [] s h.stocks_refl rfl nofun
  | cons d ds ih =>
    rw [List.mapM_cons]
    simp only [Work.exits_bind, Work.exits_pure]
    refine Document.exits_read h hE fun text d' s₁ hread hsource hregistry hs₁ => ?_
    refine ih hs₁.regular (hE.after hs₁) fun ds' s' hs' hsame hall => ?_
    refine hQ (d' :: ds') s' (hs₁.trans hs') ?_ fun x hx => ?_
    · rw [List.map_cons, List.map_cons, hsame, hsource, hregistry]
    · rcases List.mem_cons.1 hx with rfl | hx
      · exact ⟨text, hsource ▸ hread⟩
      · exact hs₁.tree ▸ hall x hx

/-- Making a bundle reads its documents, and gives it and each of them a registry. -/
theorem exits_make {target : Option Path} {Q : Bundle → Bench → Prop} (h : s.Regular)
    (hm : master < s.session.store.registries.size) (hE : s.Bears E)
    (hQ : ∀ b s', Begun brief output master target s b s' → Q b s') :
    (make brief output master target).Exits s Q E := by
  unfold make
  simp only [Work.exits_bind, Work.exits_session, Work.exits_modifyStore, Work.exits_pure]
  have hchild := h.newChild hm
  obtain ⟨-, -, hsize⟩ := h.descends.newChild hm
  have hlt : s.session.store.registries.size < (s.session.store.newChild master).1.registries.size :=
    hsize ▸ Nat.lt_succ_self _
  refine exits_newChildren hchild.regular hlt fun ds s₁ hs₁ hsources hall => ?_
  have hmade := hchild.trans hs₁
  refine exits_reads hmade.regular (hE.after hmade) fun ds' s' hs' hsame hreads => ?_
  have hstocks := hmade.trans hs'
  refine hQ _ s' ⟨hstocks, rfl, rfl, rfl, ?_, ?_, ?_, fun d hd => ?_⟩
  · exact Nat.lt_of_lt_of_le hlt (hs₁.trans hs').onward.extends_store.size
  · refine ((hs₁.trans hs').onward.master _ hlt).trans ?_
    exact (Store.master?_newChild _ _ _).trans (if_pos rfl)
  · have hfst := congrArg (List.map Prod.fst) hsame
    rw [List.map_map, List.map_map] at hfst
    exact hfst.trans hsources
  · obtain ⟨d₀, hd₀, heq⟩ := List.mem_map.1 (hsame ▸ List.mem_map_of_mem hd)
    obtain ⟨-, hregistry⟩ := Prod.mk.inj heq
    obtain ⟨hd_lt, hmaster⟩ := hall d₀ hd₀
    rw [← hregistry]
    refine ⟨Nat.lt_of_lt_of_le hd_lt hs'.onward.extends_store.size,
      (hs'.onward.master _ hd_lt).trans hmaster, ?_⟩
    have htree : s₁.tree = s.tree := hmade.tree
    exact htree ▸ hreads d hd

end Make

section Page

variable {plan : Relocation} {i : Nat} {d : Document}

/-- Rendering a document registers what it asks tokens for. -/
theorem exits_transform {E : Failure → Bundle → Bench → Prop} {Q : Unit → Bundle → Bench → Prop}
    (h : s.Regular) (hlt : d.registry < s.session.store.registries.size)
    (hdir : ∃ dir, d.source.parent? = some dir ∧ dir.IsNormal)
    (hE : ∀ b', b.Kept b' → s.Bears fun e s' => E e b' s')
    (hQ : ∀ b' s', b.Kept b' → s.Stocks s' →
      (∀ o ∈ d.origins, .ofOrigin o ∈ s'.session.store.tokens d.registry) → Q () b' s') :
    (transform i d).Exits b s Q E := by
  obtain ⟨dir, hparent, hnormal⟩ := hdir
  obtain ⟨result, origins, outline, hrender, hasked, horigins⟩ := d.linkedDocument_origins
  have horigins' : ∀ o ∈ origins, (⟨o⟩ : Path).IsNormal := by
    intro o ho
    obtain ⟨target, rfl⟩ := horigins o ho
    rw [hparent]
    exact Path.isNormal_resolve_of_absolute hnormal.absolute target
  have hregistered := h.registerAll hlt horigins'
  unfold transform Making.modifyDocument Document.render
  simp only [Making.exits_bind, Making.exits_lift, Work.exits_bind]
  refine Work.exits_register (by rw [hrender]; exact hregistered) fun s₁ hs₁ hstore => ?_
  rw [hrender] at hstore ⊢
  simp only [Work.exits_ofExcept, Work.exits_pure, Making.exits_modifyBundle, Making.exits_bundle]
  cases result with
  | error e => exact hE b (.refl b) _ _ Failure.noConfusion hs₁
  | ok html =>
    have houtline := Kept.modify b i (f := ({ · with outline })) fun _ => ⟨rfl, rfl⟩
    refine Work.exits_runPlugins hs₁.regular fun result options s₂ hresult hs₂ => ?_
    have hoptions := houtline.trans (Kept.modify _ i (f := ({ · with options })) fun _ => ⟨rfl, rfl⟩)
    have hs := hs₁.trans hs₂
    cases result with
    | error e => exact hE _ hoptions _ _ (hresult e rfl) hs
    | ok result =>
      have hdone := hoptions.trans (Kept.modify _ i (f := ({ · with result })) fun _ => ⟨rfl, rfl⟩)
      simp only [Work.exits_session, Work.exits_log]
      refine hQ _ _ hdone (hs.trans (hs.regular.stocks_of_quiet ⟨rfl, rfl, rfl, rfl, rfl⟩)) fun o ho => ?_
      refine hs₂.onward.extends_store.tokens_subset d.registry ?_
      rw [hstore]
      exact Store.mem_tokens_registerAll h.descends hlt ((hasked o).1 ho)

theorem exits_wrap {E : Failure → Bundle → Bench → Prop} {Q : Unit → Bundle → Bench → Prop}
    (hQ : ∀ b', b.Kept b' → Q () b' s) : (wrap i).Exits b s Q E := by
  unfold wrap Making.modifyDocument
  simp only [Making.exits_bind, Making.exits_bundle]
  split
  · exact hQ b (.refl b)
  · simp only [Making.exits_bind, Making.exits_modifyBundle]
    refine hQ _ ((Kept.modify b i ?_).trans ⟨⟨rfl, rfl, rfl, rfl⟩, rfl⟩)
    exact fun _ => ⟨rfl, rfl⟩

/-- A page is made of an asset whose document no link has led to, or nothing is done. -/
theorem exits_markLink {current : Path} {r : RegistryId} {t : Token} {c : CellId}
    {Q : Option Link → Bench → Prop} (h : s.Regular) (hslot : (t, c) ∈ s.session.store.snapshot r)
    (hnone : (∀ a, s.session.store.asset? c = some a → a.IsFinal) → Q none s)
    (hmark : ∀ a placed s', s.session.store.asset? c = some a → Unlinked s.session.linked t a →
      a.isMarked = false → a.source.isMarkdown = true →
      placed = plan.place { a with source := a.source.withExtension "html", isMarked := true } →
      s' = s.withStore (s.session.store.modifyCell c fun _ => placed) → Q none s' ∧
        (plan.isPreview = false →
          Q (some ⟨a.source, placed.target.getD (a.source.withExtension "html")⟩) s')) :
    (markLink? plan current c).Exits s Q E := by
  obtain ⟨a, ha, hunlinked⟩ := h.exists_asset hslot
  unfold markLink?
  simp only [Work.exits_bind, Work.exits_session, ha]
  split
  · next hleft =>
    refine hnone fun a' ha' => ?_
    obtain rfl : a = a' := Option.some.inj (ha.symm.trans ha')
    simpa [Asset.IsFinal] using hleft
  · next hleft =>
    simp only [Bool.or_eq_true, Bool.not_eq_true', not_or, Bool.not_eq_true,
      Bool.not_eq_false] at hleft
    obtain ⟨hunmarked, hmarkdown⟩ := hleft
    simp only [Work.exits_bind, Work.exits_modifyStore, hunlinked.1.normalize_eq]
    obtain ⟨hself, hlink⟩ := hmark a _ _ ha hunlinked hunmarked hmarkdown rfl rfl
    split
    · exact hself
    · next hpreview =>
      simp only [Bool.or_eq_true, decide_eq_true_eq, not_or, Bool.not_eq_true] at hpreview
      exact hlink hpreview.1

theorem exits_advise {root : Path} {r : AssetReport} {Q : Option String → Bench → Prop}
    (hQ : ∀ line s', s.Quiet s' → Q line s') : (advise root r).Exits s Q E := by
  unfold advise
  simp only [Work.exits_bind, Work.exits_session]
  split
  · exact hQ _ _ (.refl s)
  · simp only [Work.exits_bind, Work.exits_log, Work.exits_pure]
    exact hQ _ _ ⟨rfl, rfl, rfl, rfl, rfl⟩

theorem exits_advises {root : Path} (reports : List AssetReport) :
    (reports.filterMapM (advise root)).Exits s (fun _ s' => s.Quiet s') E :=
  Work.exits_filterMapM (I := s.Quiet)
    (fun _ _ hs => exits_advise fun _ _ hs' => hs.trans hs') (.refl s)

theorem hasFile_nil_copyAsset {before tree : FileTree} (h : tree.hasFile [] = false) (a : Asset) :
    (copyAsset before tree a).1.hasFile [] = false := by
  unfold copyAsset
  split
  · exact h
  · split
    · exact h
    · split
      · exact h
      · split
        · next hcopy =>
          obtain ⟨c, hwrite⟩ := FileTree.exists_write_of_copy hcopy
          exact FileTree.hasFile_nil_of_write hwrite h
        · exact h

/-- Copies put no file in the place of the root. -/
theorem hasFile_nil_copyAssets (before : FileTree) {tree : FileTree} (h : tree.hasFile [] = false)
    (assets : List Asset) : (copyAssets before tree assets).1.hasFile [] = false := by
  induction assets generalizing tree with
  | nil => exact h
  | cons a assets ih => exact ih (hasFile_nil_copyAsset h a)

theorem exits_materialize {r : RegistryId} {Q : List AssetReport → Bench → Prop}
    (hQ : ∀ s', Bench.Quiet { s with tree := (copied s r).1 } s' → Q (copied s r).2 s') :
    (materialize r).Exits s Q E := by
  unfold materialize
  simp only [Work.exits_bind, Work.exits_get, Work.exits_ask, Work.exits_modify, Work.exits_pure]
  exact hQ _ ⟨rfl, rfl, rfl, rfl, rfl⟩

theorem exits_settle {g : Generated} {Q : Relocation.Pass → Bench → Prop}
    (hQ : ∀ s', (s.withStore (g.plan.run g.html s.session.store g.registry).store).Quiet s' →
      Q (g.plan.run g.html s.session.store g.registry) s') :
    (settle g).Exits s Q E := by
  unfold settle
  simp only [Work.exits_bind, Work.exits_session, Work.exits_modifyStore, Work.exits_pure]
  exact Work.exits_forM_log _ _ hQ

/-- The assets that are copied after the page of a bundle, and what is reported of them. -/
structure Copying (b : Bundle) (store : Store) (tree : FileTree) (assets : List Asset)
    (report : WriteReport) : Prop where
  nested : b.isNested = true → assets = []
  entry : b.isNested = false →
    assets = (store.assetsOf (store.rootOf b.registry)).filter (!·.isMarked)
  reports : report.assets = (copyAssets tree tree assets).2

/-- A page is printed, or written and followed by the copies of the assets. -/
theorem exits_emit (h : s.Regular) (hE : s.Bears E) {g : Generated}
    {Q : WriteReport → Bench → Prop}
    (hprinted : g.plan.outfile = none → ∀ s', let done := g.plan.run g.html s.session.store g.registry
      (s.withStore done.store).Quiet s' →
      s'.session.events.getLast? = some (.printed (String.ofList (Listing.render Listing.printWidth
        done.html.toList))) → Q {} s')
    (hwritten : ∀ outfile tree assets report s', let done := g.plan.run g.html s.session.store g.registry
      g.plan.outfile = some outfile → s.tree.write outfile (.text done.html) = .ok tree →
      b.Copying done.store tree assets report →
      ((s.withStore done.store).withPage (copyAssets tree tree assets).1 ⟨outfile, done.made⟩).Quiet s' →
      Q report s') :
    (emit b g).Exits s Q E := by
  have hrelocated := h.relocate g.plan g.html g.registry
  unfold emit
  rw [Work.exits_bind]
  refine exits_settle fun s₁ hs₁ => ?_
  have hstocks := hrelocated.trans (hrelocated.regular.stocks_of_quiet hs₁)
  split
  · next hnone =>
    simp only [Work.exits_bind, Work.exits_put, Work.exits_pure]
    exact hprinted hnone _ (hs₁.trans ⟨rfl, rfl, rfl, rfl, rfl⟩) List.getLast?_concat
  · next outfile houtfile =>
    rw [Work.exits_bind]
    refine Work.exits_write hstocks.regular (hE.after hstocks) fun tree s₂ hwrite hs₂ => ?_
    rw [hstocks.tree] at hwrite
    simp only [Work.exits_bind, Work.exits_record]
    refine (exits_advises _).mono (fun lines s₃ hs₃ => ?_) fun _ _ h => h
    have hpage : ((s.withStore (g.plan.run g.html s.session.store g.registry).store).withPage tree
        ⟨outfile, (g.plan.run g.html s.session.store g.registry).made⟩).Quiet s₃ := by
      refine ⟨hs₃.tree.trans hs₂.tree, ?_, ?_, ?_, ?_⟩
      · exact hs₃.store.trans (hs₂.store.trans hs₁.store)
      · exact hs₃.root.trans (hs₂.root.trans hs₁.root)
      · exact hs₃.linked.trans (hs₂.linked.trans hs₁.linked)
      · exact hs₃.pages.trans (congrArg (· ++ [_]) (hs₂.pages.trans hs₁.pages))
    cases hnested : b.isNested with
    | true =>
      simp only [if_true, Work.exits_bind, Work.exits_pure]
      refine (exits_advises _).mono (fun more s₄ hs₄ => ?_) fun _ _ h => h
      refine hwritten outfile tree [] _ s₄ houtfile hwrite ⟨fun _ => rfl, fun hfalse => ?_, rfl⟩
        (hpage.trans hs₄)
      exact absurd (hnested.symm.trans hfalse) (Ne.symm Bool.false_ne_true)
    | false =>
      simp only [Bool.false_eq_true, if_false, Work.exits_bind, Work.exits_session]
      refine exits_materialize fun s₄ hs₄ => ?_
      refine (exits_advises _).mono (fun more s₅ hs₅ => ?_) fun _ _ h => h
      have htree : s₃.tree = tree := hpage.tree
      have hstore : s₃.session.store = (g.plan.run g.html s.session.store g.registry).store :=
        hpage.store
      unfold copied at hs₄ ⊢
      rw [htree, hstore] at hs₄ ⊢
      refine hwritten outfile tree _ _ s₅ houtfile hwrite ⟨fun htrue => ?_, fun _ => rfl, rfl⟩
        (.trans ?_ hs₅)
      · exact absurd (hnested.symm.trans htrue) Bool.false_ne_true
      · exact ⟨hs₄.tree, hs₄.store.trans hpage.store, hs₄.root.trans hpage.root,
          hs₄.linked.trans hpage.linked, hs₄.pages.trans hpage.pages⟩

/-- A page that was written, and the copies of its assets, leave the session regular. -/
theorem regular_of_written (h : s.Regular) {g : Generated} {outfile : Path} {tree : FileTree}
    {assets : List Asset} (hwrite : s.tree.write outfile
      (.text (g.plan.run g.html s.session.store g.registry).html) = .ok tree)
    (hs : ((s.withStore (g.plan.run g.html s.session.store g.registry).store).withPage
      (copyAssets tree tree assets).1
      ⟨outfile, (g.plan.run g.html s.session.store g.registry).made⟩).Quiet s') :
    s'.Regular ∧ s.Onward s' := by
  have hrelocated := h.relocate g.plan g.html g.registry
  have hfree := hasFile_nil_copyAssets tree (FileTree.hasFile_nil_of_write hwrite h.free) assets
  have hregular := hrelocated.regular
  refine ⟨(Bench.Regular.of_quiet ?_ hs), hrelocated.onward.trans (.trans ?_ hs.onward)⟩
  · exact ⟨hregular.reachable, hregular.descends, hregular.root, hfree, hregular.each,
      hregular.known, hregular.nodup⟩
  · exact Bench.onward_of_store rfl (List.prefix_refl _)

end Page

end Bundle

namespace Layout

theorem exits_load (h : s.Regular) (hE : s.Bears E) {root : Path} (hroot : root.IsNormal)
    {layout : Option Path} {Q : Layout → Bench → Prop}
    (hQ : ∀ page s', s.Stocks s' → (∀ dir ∈ page.dir, dir.IsNormal) →
      page.dir = layout.map (fun path => (placeOf s.tree (root.resolve path)).1) → Q page s') :
    (load layout root).Exits s Q E := by
  unfold load
  cases layout with
  | none => exact hQ _ s h.stocks_refl nofun rfl
  | some path =>
    have hnormal := isNormal_placeOf (t := s.tree)
      (Path.isNormal_resolve_of_absolute hroot.absolute path)
    rw [Option.map_some] at hQ
    simp only [Work.exits_bind, Work.exits_get, Work.exits_ask]
    generalize placeOf s.tree (root.resolve path) = place at hQ hnormal ⊢
    obtain ⟨dir, file⟩ := place
    have hdir : ∀ dir' ∈ some dir, dir'.IsNormal := fun _ hdir' => Option.some.inj hdir' ▸ hnormal
    have hasked : s.Stocks { s with asked := s.asked ++ [root.resolve path, file] } :=
      h.stocks_of_quiet ⟨rfl, rfl, rfl, rfl, rfl⟩
    split
    · rw [Work.exits_bind]
      refine Work.exits_read hasked.regular (hE.after hasked) fun text s₁ _ hs₁ => ?_
      exact hQ { dir := some dir, template := text } s₁ (hasked.trans hs₁) hdir rfl
    · rw [Work.exits_bind, Work.exits_log]
      exact hQ { dir := some dir } _
        (hasked.trans (hasked.regular.stocks_of_quiet ⟨rfl, rfl, rfl, rfl, rfl⟩)) hdir rfl

/-- Filling in a page registers what its template names. -/
theorem exits_render (h : s.Regular) (hE : s.Bears E) {root : Path} (hroot : root.IsNormal)
    {l : Layout} (hdir : ∀ dir ∈ l.dir, dir.IsNormal) {content : String} {headings : List Heading}
    {data : Json.Fields} {r : RegistryId} (hr : r < s.session.store.registries.size)
    {Q : String → Bench → Prop}
    (hQ : ∀ html s', s.Stocks s' →
      (∀ o ∈ l.origins root, .ofOrigin o ∈ s'.session.store.tokens r) → Q html s') :
    (l.render content headings data r root).Exits s Q E := by
  have hbase : (l.dir.getD root).IsNormal := by
    cases hl : l.dir with
    | none => exact hroot
    | some dir => exact hdir dir hl
  have horigins : ∀ o ∈ l.origins root, (⟨o⟩ : Path).IsNormal := by
    intro o ho
    obtain ⟨target, -, rfl⟩ := List.mem_map.1 ho
    exact Path.isNormal_resolve_of_absolute hbase.absolute _
  obtain ⟨template, hrun⟩ := l.run_withTokens root
  unfold render
  rw [Work.exits_bind]
  refine Work.exits_register (by rw [hrun]; exact h.registerAll hr horigins) fun s₁ hs₁ hstore => ?_
  rw [hrun] at hstore ⊢
  simp only [Work.exits_bind, Work.exits_ofExcept, Work.exits_pure]
  split
  · refine hQ _ s₁ hs₁ fun o ho => ?_
    rw [hstore]
    exact Store.mem_tokens_registerAll h.descends hr ho
  · exact hE _ _ Failure.noConfusion hs₁

end Layout
end Bindery
