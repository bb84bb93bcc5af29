import Bindery.Proofs.Asset.Settling
import Bindery.Proofs.Project.Run
import Bindery.Proofs.Rendering.Layout

/-! What the steps of a compilation do to the bench and to the bundle, without plugins. Each of them
ends in a failure of the files or of the text it is given, or as it says here. -/

namespace Bindery

/-- What the files of a project and the text in them can lead to. -/
def Failure.OfContent : Failure → Prop
  | .markup _ | .template _ | .file .. => True
  | .config _ | .plugin _ | .cycle _ | .tooDeep => False

/-- Two benches that differ in what was looked up, logged, printed and recorded only. -/
structure Bench.Same (s s' : Bench) : Prop where
  tree : s'.tree = s.tree
  store : s'.session.store = s.session.store
  inFlight : s'.session.inFlight = s.session.inFlight
  finished : s'.session.finished = s.session.finished
  pages : s'.session.pages = s.session.pages

theorem Bench.Same.refl (s : Bench) : s.Same s := ⟨rfl, rfl, rfl, rfl, rfl⟩

theorem Bench.Same.trans {s₁ s₂ s₃ : Bench} (h : s₁.Same s₂) (h' : s₂.Same s₃) : s₁.Same s₃ :=
  ⟨h'.tree.trans h.tree, h'.store.trans h.store, h'.inFlight.trans h.inFlight,
    h'.finished.trans h.finished, h'.pages.trans h.pages⟩

/-- A bench with another store. -/
def Bench.withStore (s : Bench) (store : Store) : Bench :=
  { s with session := { s.session with store } }

/-- A bench on which a page was written. -/
def Bench.withPage (s : Bench) (tree : FileTree) (page : WrittenPage) : Bench :=
  { s with tree, session := { s.session with pages := s.session.pages ++ [page] } }

/-- Two bundles that differ in their documents and the data of their page only. -/
structure Bundle.Alike (b b' : Bundle) : Prop where
  brief : b'.brief = b.brief
  output : b'.output = { b.output with data := b'.output.data }
  registry : b'.registry = b.registry
  target : b'.target = b.target

theorem Bundle.Alike.refl (b : Bundle) : b.Alike b := ⟨rfl, rfl, rfl, rfl⟩

theorem Bundle.Alike.trans {b₁ b₂ b₃ : Bundle} (h : b₁.Alike b₂) (h' : b₂.Alike b₃) :
    b₁.Alike b₃ where
  brief := h'.brief.trans h.brief
  output := by
    rw [h'.output, h.output]
  registry := h'.registry.trans h.registry
  target := h'.target.trans h.target

theorem Bundle.Alike.isNested_eq {b b' : Bundle} (h : b.Alike b') : b'.isNested = b.isNested :=
  congrArg Option.isSome h.target

theorem Output.isNormal_distDir (o : Output) {root : Path} (h : root.IsNormal) :
    (o.distDir root).IsNormal := by
  unfold distDir
  split
  · next dist _ => exact Path.isNormal_resolve_of_absolute h.absolute dist
  · exact h

/-- The directory of the layout in a file tree. -/
def Output.layoutDir (output : Output) (root : Path) (tree : FileTree) : Option Path :=
  output.layout.map fun layout => (Layout.placeOf tree (root.resolve layout)).1

variable {α : Type} {s : Bench} {E : Failure → Prop}

namespace Work

theorem ends_enter {d : Path} {Q : Unit → Bench → Prop} (hE : d ∈ s.session.inFlight → E (.cycle d))
    (h : d ∉ s.session.inFlight →
      Q () { s with session := { s.session with inFlight := d :: s.session.inFlight } }) :
    (enter d).Ends s Q E := by
  unfold enter
  simp only [ends_bind, ends_session, List.contains_iff_mem]
  split
  · next hmem => exact hE hmem
  · next hmem => exact h hmem

theorem ends_leave {d : Path} {Q : Unit → Bench → Prop} : (leave d).Ends s Q E ↔
    Q () { s with session := { s.session with
      inFlight := s.session.inFlight.erase d
      finished := d :: s.session.finished } } := Iff.rfl

theorem ends_forM_log {level : Level} (line : α → String) (l : List α) {Q : Unit → Bench → Prop}
    (h : ∀ s', s.Same s' → Q () s') : (l.forM fun a => log level (line a)).Ends s Q E := by
  induction l generalizing s with
  | nil => exact h s (.refl s)
  | cons a l ih =>
    rw [List.forM_eq_forM, List.forM_cons, ends_bind, ends_log]
    exact ih fun s' hs' => h s' ⟨hs'.tree, hs'.store, hs'.inFlight, hs'.finished, hs'.pages⟩

theorem ends_filterMapM {β : Type} {f : α → Work (Option β)} {l : List α} {I : Bench → Prop}
    (hf : ∀ a s, I s → (f a).Ends s (fun _ s' => I s') E) (hs : I s) :
    (l.filterMapM f).Ends s (fun _ s' => I s') E := by
  induction l generalizing s with
  | nil => exact hs
  | cons a l ih =>
    rw [List.filterMapM_cons, ends_bind]
    refine (hf a s hs).mono (fun r s' hs' => ?_) fun _ h => h
    cases r with
    | none => exact ih hs'
    | some b =>
      rw [ends_bind]
      exact (ih hs').mono (fun _ _ h => h) fun _ h => h

theorem ends_register {f : Store → α × Store} {Q : α → Bench → Prop}
    (h : ∀ s', (s.withStore (f s.session.store).2).Same s' → Q (f s.session.store).1 s') :
    (register f).Ends s Q E := by
  unfold register
  simp only [ends_bind, ends_session, ends_modifyStore, ends_pure]
  exact ends_forM_log _ _ fun s' hs' => h s' hs'

theorem ends_read {path : Path} {Q : String → Bench → Prop}
    (hE : ∀ f, s.tree.read path = .error f → E (.file path f))
    (h : ∀ text s', s.tree.read path = .ok text → s.Same s' → Q text s') :
    (read path).Ends s Q E := by
  unfold read
  simp only [ends_bind, ends_ask, ends_get, ends_ofExcept]
  cases hread : s.tree.read path with
  | error f => exact hE f hread
  | ok text => exact h text _ hread ⟨rfl, rfl, rfl, rfl, rfl⟩

theorem ends_write {path : Path} {text : String} {Q : Unit → Bench → Prop}
    (hE : ∀ f, s.tree.write path (.text text) = .error f → E (.file path f))
    (h : ∀ tree s', s.tree.write path (.text text) = .ok tree → Bench.Same { s with tree } s' →
      Q () s') : (write path text).Ends s Q E := by
  unfold write
  simp only [ends_bind, ends_ask, ends_get, ends_ofExcept]
  cases hwrite : s.tree.write path (.text text) with
  | error f => exact hE f hwrite
  | ok tree => exact h tree _ hwrite ⟨rfl, rfl, rfl, rfl, rfl⟩

/-- No plugin changes a value or the options. -/
theorem ends_runPlugins_nil {hook : Plugin.Hook α} {value : α} {options : Markdown.Options}
    {Q : Except Failure α × Markdown.Options → Bench → Prop}
    (h : ∀ s', s.Same s' → Q (.ok value, options) s') :
    (runPlugins hook [] value options).Ends s Q E := by
  unfold runPlugins
  simp only [ends_bind, ends_modifySession, ends_pure]
  exact h _ ⟨rfl, rfl, rfl, rfl, rfl⟩

end Work

/-- The text of the declaration, when there is one. -/
def FileTree.Declares (tree : FileTree) (declaration : Option Path) (extra : String) : Prop :=
  match declaration with
  | some path => tree.read path = .ok extra
  | none => extra = ""

namespace Document

theorem ends_split {body extra : String} {options : Markdown.Options} {d : Document}
    {Q : Document → Bench → Prop}
    (h : ∀ s', s.Same s' →
      Q { d with nodes := Markdown.tokenize (body ++ extra) options, options } s') :
    (do
      let nodes := Markdown.tokenize (body ++ extra) options
      let (nodes, options) ← Work.runPlugins Plugin.tokenizeHook [] nodes options
      let nodes ← Work.ofExcept id nodes
      Work.log .debug s!"tokenized {d.source.text} ({nodes.length} nodes)"
      return { d with nodes, options }).Ends s Q E := by
  rw [Work.ends_bind]
  refine Work.ends_runPlugins_nil fun s₁ hs₁ => ?_
  simp only [Work.ends_bind, Work.ends_ofExcept, Work.ends_log, Work.ends_pure]
  exact h _ (hs₁.trans ⟨rfl, rfl, rfl, rfl, rfl⟩)

/-- A document is read as its text and the declaration after it. -/
theorem ends_read {declaration : Option Path} {options : Markdown.Options} {d : Document}
    {Q : Document → Bench → Prop}
    (hE : ∀ path f, path = d.source ∨ path ∈ declaration → s.tree.read path = .error f →
      E (.file path f))
    (h : ∀ body extra s', s.tree.read d.source = .ok body →
      s.tree.Declares declaration extra → s.Same s' →
      Q { d with nodes := Markdown.tokenize (body ++ extra) options, options } s') :
    (d.read declaration [] options).Ends s Q E := by
  unfold read
  rw [Work.ends_bind]
  refine Work.ends_read (fun f => hE _ f (.inl rfl)) fun body s₁ hbody hs₁ => ?_
  cases declaration with
  | none => exact ends_split fun s₂ hs₂ => h body "" s₂ hbody rfl (hs₁.trans hs₂)
  | some path =>
    dsimp only
    rw [Work.ends_bind]
    refine Work.ends_read (fun f hf => hE path f (.inr rfl) (hs₁.tree ▸ hf))
      fun extra s₂ hextra hs₂ => ?_
    rw [hs₁.tree] at hextra
    exact ends_split fun s₃ hs₃ => h body extra s₃ hbody hextra (hs₁.trans (hs₂.trans hs₃))

end Document

/-! Bundles. -/

/-- Registries are added, and nothing else is done to the store. -/
structure Store.Widens (s s' : Store) : Prop where
  descends : s'.Descends
  snapshot : ∀ r, s'.snapshot r = s.snapshot r
  cells : s'.cells = s.cells
  size : s.registries.size ≤ s'.registries.size

theorem Store.Widens.refl {s : Store} (h : s.Descends) : s.Widens s :=
  ⟨h, fun _ => rfl, rfl, Nat.le_refl _⟩

theorem Store.Widens.trans {s₁ s₂ s₃ : Store} (h : s₁.Widens s₂) (h' : s₂.Widens s₃) :
    s₁.Widens s₃ :=
  ⟨h'.descends, fun r => (h'.snapshot r).trans (h.snapshot r), h'.cells.trans h.cells,
    Nat.le_trans h.size h'.size⟩

theorem Store.Widens.extends {s s' : Store} (h : s.Widens s') : s.Extends s' :=
  ⟨h.size, fun r _ hslot => (h.snapshot r).symm ▸ hslot⟩

theorem Store.Widens.each {s s' : Store} (h : s.Widens s') {K : Token → Asset → Prop}
    (heach : s.Each K) : s'.Each K := by
  intro slot hslot
  rw [h.snapshot] at hslot
  unfold asset?
  rw [h.cells]
  exact heach slot hslot

theorem Store.widens_newChild {s : Store} (h : s.Descends) {m : RegistryId}
    (hm : m < s.registries.size) : s.Widens (s.newChild m).1 := by
  obtain ⟨hdescends, -, hsize⟩ := h.newChild hm
  exact ⟨hdescends, snapshot_newChild s m, rfl, by omega⟩

theorem Store.master_of_newChild {s : Store} {m r x : RegistryId}
    (h : (s.newChild m).1.master? r = some x) :
    s.master? r = some x ∨ r = s.registries.size ∧ x = m := by
  rw [master?_newChild] at h
  split at h
  · next hr => exact .inr ⟨hr, (Option.some.inj h).symm⟩
  · exact .inl h

/-- A registry that is not there holds nothing. -/
theorem Store.snapshot_of_size_le {s : Store} {r : RegistryId} (h : s.registries.size ≤ r) :
    s.snapshot r = [] := by
  simp [snapshot, registry?, h]

namespace Bundle

/-- What a document is before it is rendered: its text as it was read, in nodes. -/
def Reads (tree : FileTree) (brief : Brief) (d : Document) : Prop :=
  d.options = brief.marked ∧ ∃ body extra, tree.read d.source = .ok body ∧
    tree.Declares (brief.declare.map (brief.root.resolve ·)) extra ∧
    d.nodes = Markdown.tokenize (body ++ extra) brief.marked

/-- A bundle as it is made, with registries of its own that are empty. -/
structure Made (brief : Brief) (output : Output) (target : Option Path) (s : Bench) (b : Bundle)
    (s' : Bench) : Prop where
  brief_eq : b.brief = brief
  output_eq : b.output = output
  target_eq : b.target = target
  registry_le : s.session.store.registries.size ≤ b.registry
  registry_lt : b.registry < s'.session.store.registries.size
  widens : s.session.store.Widens s'.session.store
  same : (s.withStore s'.session.store).Same s'
  sources : b.documents.map (·.source) = brief.input.files brief.mapping brief.root
  documents : ∀ d ∈ b.documents, s.session.store.registries.size ≤ d.registry ∧
    d.registry < s'.session.store.registries.size ∧ Reads s.tree brief d
  distinct : (b.registry :: b.documents.map (·.registry)).Nodup

/-- A bundle of the run, which differs from the first one in what it compiles and in its data. -/
structure Of (brief : Brief) (output : Output) (s : Bench) (b : Bundle) : Prop where
  brief_eq : ∃ input, b.brief = { brief with input }
  output_eq : ∃ data, b.output = { output with data }
  registry_lt : b.registry < s.session.store.registries.size

theorem Of.alike {brief : Brief} {output : Output} {b b' : Bundle} {s' : Bench} (h : b.Of brief output s) (hb : b.Alike b')
    (hs : s.session.store.registries.size ≤ s'.session.store.registries.size) :
    b'.Of brief output s' where
  brief_eq := hb.brief.symm ▸ h.brief_eq
  output_eq := by
    obtain ⟨data, hdata⟩ := h.output_eq
    exact ⟨b'.output.data, by rw [hb.output, hdata]⟩
  registry_lt := hb.registry.symm ▸ Nat.lt_of_lt_of_le h.registry_lt hs

section Make

variable {brief : Brief} {master : RegistryId}

theorem ends_newChildren {sources : List Path} {Q : List Document → Bench → Prop}
    (hs : s.session.store.Descends) (hm : master < s.session.store.registries.size)
    (h : ∀ ds s', s.session.store.Widens s'.session.store →
      (s.withStore s'.session.store).Same s' → ds.map (·.source) = sources →
      (∀ d ∈ ds, s.session.store.registries.size ≤ d.registry ∧
        d.registry < s'.session.store.registries.size) →
      (ds.map (·.registry)).Nodup →
      (∀ r m, s'.session.store.master? r = some m →
        s.session.store.master? r = some m ∨ m = master) → Q ds s') :
    (sources.mapM fun source => do
      let (store, child) := (← Work.session).store.newChild master
      Work.modifyStore fun _ => store
      return ({ source, registry := child } : Document)).Ends s Q E := by
  induction sources generalizing s Q with
  | nil => exact h [] s (.refl hs) ⟨rfl, rfl, rfl, rfl, rfl⟩ rfl nofun List.nodup_nil fun _ _ => .inl
  | cons source sources ih =>
    rw [List.mapM_cons]
    simp only [Work.ends_bind, Work.ends_session, Work.ends_modifyStore, Work.ends_pure]
    have hwidens := Store.widens_newChild hs hm
    obtain ⟨hdescends, -, hsize⟩ := hs.newChild hm
    refine ih hdescends (Nat.lt_of_lt_of_le hm hwidens.size)
      fun ds s' hw hsame hsources hlt hnodup hmasters => ?_
    refine h (⟨source, s.session.store.registries.size, {}, [], [], ""⟩ :: ds) s' (hwidens.trans hw)
      ⟨hsame.tree, rfl, hsame.inFlight, hsame.finished, hsame.pages⟩ (congrArg (source :: ·) hsources)
      ?_ ?_ fun r m hrm => ?_
    · intro d hd
      rcases List.mem_cons.1 hd with rfl | hd
      · exact ⟨Nat.le_refl _, Nat.lt_of_lt_of_le (hsize ▸ Nat.lt_succ_self _) hw.size⟩
      · exact ⟨Nat.le_trans hwidens.size (hlt d hd).1, (hlt d hd).2⟩
    · refine List.nodup_cons.2 ⟨fun hmem => ?_, hnodup⟩
      obtain ⟨d, hd, hregistry⟩ := List.mem_map.1 hmem
      have hle := (hlt d hd).1
      rw [hregistry] at hle
      exact absurd (hsize ▸ hle) (Nat.not_succ_le_self _)
    · exact (hmasters r m hrm).elim
        (fun hold => (Store.master_of_newChild hold).imp_right And.right) .inr

theorem ends_reads {ds : List Document} {declaration : Option Path} {Q : List Document → Bench → Prop}
    {options : Markdown.Options} {N : Document → Prop}
    (hE : ∀ d ∈ ds, ∀ path f, path = d.source ∨ path ∈ declaration → s.tree.read path = .error f →
      E (.file path f))
    (hN : ∀ d ∈ ds, ∀ body extra, s.tree.read d.source = .ok body →
      s.tree.Declares declaration extra →
      N { d with nodes := Markdown.tokenize (body ++ extra) options, options })
    (h : ∀ ds' s', s.Same s' → ds'.map (·.source) = ds.map (·.source) →
      ds'.map (·.registry) = ds.map (·.registry) → (∀ d ∈ ds', N d) → Q ds' s') :
    (ds.mapM fun d : Document => d.read declaration [] options).Ends s Q E := by
  induction ds generalizing s Q with
  | nil => exact h [] s (.refl s) rfl rfl nofun
  | cons d ds ih =>
    rw [List.mapM_cons]
    simp only [Work.ends_bind, Work.ends_pure]
    refine Document.ends_read (hE d List.mem_cons_self) fun body extra s₁ hbody hextra hs₁ => ?_
    have hd := hN d List.mem_cons_self body extra hbody hextra
    refine ih (fun d' hd' => ?_) (fun d' hd' => ?_) fun ds' s' hs' hsources hregistries hall => ?_
    · rw [hs₁.tree]
      exact hE d' (List.mem_cons_of_mem _ hd')
    · rw [hs₁.tree]
      exact hN d' (List.mem_cons_of_mem _ hd')
    · refine h _ s' (hs₁.trans hs') (congrArg (d.source :: ·) hsources)
        (congrArg (d.registry :: ·) hregistries) fun d' hd' => ?_
      rcases List.mem_cons.1 hd' with rfl | hd'
      · exact hd
      · exact hall d' hd'

/-- Making a bundle reads its documents, and gives it and each of them a registry. -/
theorem ends_make_of_fault {output : Output} {target : Option Path} {Q : Bundle → Bench → Prop}
    (hplugins : brief.plugins = []) (hs : s.session.store.Descends)
    (hm : master < s.session.store.registries.size)
    (hE : ∀ d ∈ brief.input.files brief.mapping brief.root, ∀ path f,
      path = d ∨ path ∈ brief.declare.map (brief.root.resolve ·) → s.tree.read path = .error f →
      E (.file path f))
    (h : ∀ b s', Made brief output target s b s' →
      (∀ r m, s'.session.store.master? r = some m →
        s.session.store.master? r = some m ∨ r = b.registry ∧ m = master ∨ m = b.registry) →
      Q b s') :
    (make brief output master target).Ends s Q E := by
  unfold make
  rw [hplugins]
  simp only [Work.ends_bind, Work.ends_session, Work.ends_modifyStore, Work.ends_pure]
  have hwidens := Store.widens_newChild hs hm
  obtain ⟨hdescends, -, hsize⟩ := hs.newChild hm
  have hlt : s.session.store.registries.size < (s.session.store.newChild master).1.registries.size :=
    hsize ▸ Nat.lt_succ_self _
  refine ends_newChildren hdescends hlt
    fun ds s₁ hw hsame hsources hregistries hnodup hmasters => ?_
  have htree : s₁.tree = s.tree := hsame.tree
  refine ends_reads (N := fun d => Reads s.tree brief d) ?_ ?_ ?_
  · intro d hd
    rw [htree]
    exact hE d.source (hsources ▸ List.mem_map_of_mem hd)
  · intro d hd body extra hbody hextra
    rw [htree] at hbody hextra
    exact ⟨rfl, body, extra, hbody, hextra, rfl⟩
  · intro ds' s' hs' hsources' hregistries' hall
    have hstore := hs'.store
    refine h _ s' ⟨rfl, rfl, rfl, Nat.le_refl _, ?_, ?_, ?_, ?_, ?_, ?_⟩ fun r m hrm => ?_
    · rw [hstore]
      exact Nat.lt_of_lt_of_le hlt hw.size
    · rw [hstore]
      exact hwidens.trans hw
    · refine ⟨hs'.tree.trans htree, rfl, hs'.inFlight.trans hsame.inFlight,
        hs'.finished.trans hsame.finished, hs'.pages.trans hsame.pages⟩
    · exact hsources'.trans hsources
    · intro d hd
      have hmem : d.registry ∈ ds.map (·.registry) := hregistries' ▸ List.mem_map_of_mem hd
      obtain ⟨d₀, hd₀, hregistry⟩ := List.mem_map.1 hmem
      obtain ⟨hle, hlt'⟩ := hregistries d₀ hd₀
      rw [← hregistry, hstore]
      exact ⟨Nat.le_trans hwidens.size hle, hlt', hall d hd⟩
    · refine List.nodup_cons.2 ⟨fun hmem => ?_, (congrArg List.Nodup hregistries').mpr hnodup⟩
      obtain ⟨d₀, hd₀, hregistry⟩ := List.mem_map.1 (hregistries' ▸ hmem)
      have hle := (hregistries d₀ hd₀).1
      rw [hregistry] at hle
      exact absurd (hsize ▸ hle) (Nat.not_succ_le_self _)
    · rw [hstore] at hrm
      rcases hmasters r m hrm with hrm | hm'
      · exact (Store.master_of_newChild hrm).imp_right .inl
      · exact .inr (.inr hm')

theorem ends_make {output : Output} {target : Option Path} {Q : Bundle → Bench → Prop}
    (hplugins : brief.plugins = []) (hs : s.session.store.Descends)
    (hm : master < s.session.store.registries.size) (hE : ∀ e, e.OfContent → E e)
    (h : ∀ b s', Made brief output target s b s' → Q b s') :
    (make brief output master target).Ends s Q E :=
  ends_make_of_fault hplugins hs hm (fun _ _ _ _ _ _ => hE _ trivial) fun b s' hmade _ =>
    h b s' hmade

end Make

section Page

variable {b : Bundle}

/-- Rendering a document registers its references. -/
theorem ends_transform {i : Nat} {d : Document} {result : Except MarkupError (List Char)}
    {origins : List String} {outline : List Heading} {Q : Unit → Bundle → Bench → Prop}
    (hplugins : b.brief.plugins = []) (hE : ∀ e, result = .error e → E (.markup e))
    (hrender : ∀ r store, Rendering.linkedDocument d.options r (d.source.parent?.getD ⟨"."⟩) store
      d.nodes = (result, ⟨store.registerAll r origins, outline⟩))
    (h : ∀ b' s', (∃ html, result = .ok html) → b.Alike b' →
      (s.withStore (s.session.store.registerAll d.registry origins)).Same s' → Q () b' s') :
    (transform i d).Ends b s Q E := by
  unfold transform Making.modifyDocument Document.render
  simp only [Making.ends_bind, Making.ends_lift, Work.ends_bind]
  refine Work.ends_register fun s₁ hs₁ => ?_
  rw [hrender] at hs₁ ⊢
  simp only [Work.ends_ofExcept, Work.ends_pure, Making.ends_modifyBundle, Making.ends_bundle]
  cases result with
  | error e => exact hE e rfl
  | ok html =>
    dsimp only
    rw [hplugins]
    refine Work.ends_runPlugins_nil fun s₂ hs₂ => ?_
    simp only [Work.ends_session, Work.ends_log]
    exact h _ _ ⟨html, rfl⟩ ⟨rfl, rfl, rfl, rfl⟩ (hs₁.trans (hs₂.trans ⟨rfl, rfl, rfl, rfl, rfl⟩))

theorem ends_wrap {i : Nat} {Q : Unit → Bundle → Bench → Prop}
    (h : ∀ b', b.Alike b' → Q () b' s) : (wrap i).Ends b s Q E := by
  unfold wrap Making.modifyDocument
  simp only [Making.ends_bind, Making.ends_bundle]
  split
  · exact h b (.refl b)
  · simp only [Making.ends_bind, Making.ends_modifyBundle]
    exact h _ ⟨rfl, rfl, rfl, rfl⟩

/-- A link is left alone when it leads to no document, or to one whose page was asked for. -/
theorem ends_markLink_of_known {plan : Relocation} {d : Path} {c : CellId} {a : Asset}
    {Q : Option Link → Bench → Prop} (ha : s.session.store.asset? c = some a)
    (hknown : a.isMarked = true ∨ a.source.isMarkdown = false) (h : Q none s) :
    (markLink? plan d c).Ends s Q E := by
  unfold markLink?
  simp only [Work.ends_bind, Work.ends_session, ha]
  rw [if_pos (by simpa using hknown)]
  exact h

/-- Otherwise its document gets a page, and is compiled unless it is the document itself. -/
theorem ends_markLink_of_new {plan : Relocation} {d : Path} {c : CellId} {a : Asset}
    {Q : Option Link → Bench → Prop} (ha : s.session.store.asset? c = some a)
    (hmarked : a.isMarked = false) (hmarkdown : a.source.isMarkdown = true)
    (hnormal : a.source.IsNormal) (hpreview : plan.isPreview = false)
    (h : ∀ placed, placed = plan.place { a with
        source := a.source.withExtension "html", isMarked := true } →
      Q (if a.source = d then none
        else some ⟨a.source, placed.target.getD (a.source.withExtension "html")⟩)
        (s.withStore (s.session.store.modifyCell c fun _ => placed))) :
    (markLink? plan d c).Ends s Q E := by
  unfold markLink?
  simp only [Work.ends_bind, Work.ends_session, ha]
  rw [if_neg (by simp [hmarked, hmarkdown])]
  simp only [Work.ends_bind, Work.ends_modifyStore, hnormal.normalize_eq, hpreview, Bool.false_or,
    decide_eq_true_eq]
  have hplaced := h _ rfl
  split at hplaced
  · next heq =>
    rw [if_pos heq]
    exact hplaced
  · next hne =>
    rw [if_neg hne]
    exact hplaced

/-- Relocation changes the assets of its registry alone. -/
theorem ends_settle {g : Generated} {Q : Relocation.Pass → Bench → Prop}
    (h : ∀ s', (s.withStore (g.plan.run g.html s.session.store g.registry).store).Same s' →
      Q (g.plan.run g.html s.session.store g.registry) s') : (settle g).Ends s Q E := by
  unfold settle
  simp only [Work.ends_bind, Work.ends_session, Work.ends_modifyStore, Work.ends_pure]
  exact Work.ends_forM_log _ _ fun s' hs' => h s' hs'

theorem ends_advise {root : Path} {r : AssetReport} {Q : Option String → Bench → Prop}
    (h : ∀ line s', s.Same s' → Q line s') : (advise root r).Ends s Q E := by
  unfold advise
  simp only [Work.ends_bind, Work.ends_session]
  split
  · exact h _ _ (.refl s)
  · simp only [Work.ends_bind, Work.ends_log, Work.ends_pure]
    exact h _ _ ⟨rfl, rfl, rfl, rfl, rfl⟩

theorem ends_advises {root : Path} (reports : List AssetReport) :
    (reports.filterMapM (advise root)).Ends s (fun _ s' => s.Same s') E :=
  Work.ends_filterMapM (I := s.Same)
    (fun _ _ hs => ends_advise fun _ _ hs' => hs.trans hs') (.refl s)

/-- What copying the assets of a registry leaves. -/
def copied (s : Bench) (r : RegistryId) : FileTree × List AssetReport :=
  copyAssets s.tree s.tree ((s.session.store.assetsOf r).filter (!·.isMarked))

theorem ends_materialize {r : RegistryId} {Q : List AssetReport → Bench → Prop}
    (h : ∀ s', Bench.Same { s with tree := (copied s r).1 } s' → Q (copied s r).2 s') :
    (materialize r).Ends s Q E := by
  unfold materialize
  simp only [Work.ends_bind, Work.ends_get, Work.ends_ask, Work.ends_modify, Work.ends_pure]
  exact h _ ⟨rfl, rfl, rfl, rfl, rfl⟩

/-- What comes after a page is written: the bundle that was asked for copies the assets. -/
structure Finishes (b : Bundle) (s : Bench) (report : WriteReport) (s' : Bench) : Prop where
  nested : b.isNested = true → s.Same s'
  asked : b.isNested = false → ∃ r, r = s.session.store.rootOf b.registry ∧
    report.assets = (copied s r).2 ∧ Bench.Same { s with tree := (copied s r).1 } s'

/-- A page is relocated, and written when it has a file. -/
theorem ends_emit_of_fault {g : Generated} {Q : WriteReport → Bench → Prop}
    (hE : ∀ outfile f, g.plan.outfile = some outfile →
      s.tree.write outfile (.text (g.plan.run g.html s.session.store g.registry).html) = .error f →
      E (.file outfile f))
    (hprinted : g.plan.outfile = none → ∀ s', Q {} s')
    (h : ∀ outfile tree s₁ report s', let done := g.plan.run g.html s.session.store g.registry
      g.plan.outfile = some outfile → s.tree.write outfile (.text done.html) = .ok tree →
      ((s.withStore done.store).withPage tree ⟨outfile, done.made⟩).Same s₁ →
      b.Finishes s₁ report s' → Q report s') : (emit b g).Ends s Q E := by
  unfold emit
  rw [Work.ends_bind]
  refine ends_settle fun s₁ hs₁ => ?_
  split
  · next hnone => exact hprinted hnone _
  · next outfile houtfile =>
    rw [Work.ends_bind]
    refine Work.ends_write (fun f hf => hE outfile f houtfile (hs₁.tree ▸ hf))
      fun tree s₂ htree hs₂ => ?_
    simp only [Work.ends_bind, Work.ends_record]
    rw [hs₁.tree] at htree
    refine (ends_advises _).mono (fun lines s₃ hs₃ => ?_) fun _ h => h
    have hwritten : ((s.withStore (g.plan.run g.html s.session.store g.registry).store).withPage tree
        ⟨outfile, (g.plan.run g.html s.session.store g.registry).made⟩).Same s₃ := by
      refine ⟨hs₃.tree.trans hs₂.tree, ?_, ?_, ?_, ?_⟩
      · exact hs₃.store.trans (hs₂.store.trans hs₁.store)
      · exact hs₃.inFlight.trans (hs₂.inFlight.trans hs₁.inFlight)
      · exact hs₃.finished.trans (hs₂.finished.trans hs₁.finished)
      · exact hs₃.pages.trans (congrArg (· ++ [_]) (hs₂.pages.trans hs₁.pages))
    cases hnested : b.isNested with
    | true =>
      simp only [if_true, Work.ends_bind, Work.ends_pure]
      refine (ends_advises _).mono (fun more s₄ hs₄ => ?_) fun _ h => h
      refine h outfile tree s₃ _ s₄ houtfile htree hwritten ⟨fun _ => hs₄, fun hasked => ?_⟩
      exact absurd (hasked.symm.trans hnested) Bool.false_ne_true
    | false =>
      simp only [Bool.false_eq_true, if_false, Work.ends_bind, Work.ends_session]
      refine ends_materialize fun s₄ hs₄ => (ends_advises _).mono (fun more s₅ hs₅ => ?_) fun _ h => h
      refine h outfile tree s₃ _ s₅ houtfile htree hwritten
        ⟨fun hnot => ?_, fun _ => ⟨_, rfl, rfl, hs₄.trans hs₅⟩⟩
      exact absurd (hnested.symm.trans hnot) Bool.false_ne_true

theorem ends_emit {g : Generated} {Q : WriteReport → Bench → Prop} (hE : ∀ e, e.OfContent → E e)
    (hprinted : g.plan.outfile = none → ∀ s', Q {} s')
    (h : ∀ outfile tree s₁ report s', let done := g.plan.run g.html s.session.store g.registry
      g.plan.outfile = some outfile → s.tree.write outfile (.text done.html) = .ok tree →
      ((s.withStore done.store).withPage tree ⟨outfile, done.made⟩).Same s₁ →
      b.Finishes s₁ report s' → Q report s') : (emit b g).Ends s Q E :=
  ends_emit_of_fault (fun _ _ _ _ => hE _ trivial) hprinted h

/-- Of a linked document there is the page, and nothing else. -/
theorem ends_emit_nested {g : Generated} {outfile : Path} {Q : WriteReport → Bench → Prop}
    (houtfile : g.plan.outfile = some outfile) (hnested : b.isNested = true)
    (hE : ∀ f, s.tree.write outfile
      (.text (g.plan.run g.html s.session.store g.registry).html) = .error f → E (.file outfile f))
    (h : ∀ report tree s', let done := g.plan.run g.html s.session.store g.registry
      s.tree.write outfile (.text done.html) = .ok tree →
      ((s.withStore done.store).withPage tree ⟨outfile, done.made⟩).Same s' → Q report s') :
    (emit b g).Ends s Q E := by
  refine ends_emit_of_fault (fun file f hfile hf => ?_) (fun hnone => ?_)
    fun file tree s₁ report s' hfile hwrite hs₁ hfinishes => ?_
  · obtain rfl := Option.some.inj (houtfile.symm.trans hfile)
    exact hE f hf
  · rw [houtfile] at hnone
    cases hnone
  · obtain rfl := Option.some.inj (houtfile.symm.trans hfile)
    exact h report tree s' hwrite (hs₁.trans (hfinishes.nested hnested))

/-- A layout is found, or its file holds no text. -/
theorem ends_load {layout : Option Path} {root : Path} {Q : Layout → Bench → Prop}
    (hE : (∀ l, ¬ Layout.Found s.tree root layout l) → ∀ path f, E (.file path f))
    (h : ∀ l s', Layout.Found s.tree root layout l → s.Same s' → Q l s') :
    (Layout.load layout root).Ends s Q E := by
  unfold Layout.load
  cases layout with
  | none => exact h _ s rfl (.refl s)
  | some path =>
    rcases hplace : Layout.placeOf s.tree (root.resolve path) with ⟨dir, file⟩
    have hfound : ∀ template, Layout.Found s.tree root (some path) ⟨some dir, template⟩ ↔
        if s.tree.isFile file = true then s.tree.read file = .ok template
        else template = standardPage := by
      intro template
      unfold Layout.Found
      simp only [hplace, true_and]
    simp only [Work.ends_bind, Work.ends_get, Work.ends_ask, hplace]
    cases hfile : s.tree.isFile file with
    | true =>
      simp only [hfile, if_true] at hfound
      simp only [if_true, Work.ends_bind]
      refine Work.ends_read (fun f hread => hE (fun l hl => ?_) _ f) fun text s₁ hread hs₁ => ?_
      · have hdir := hl.dir_eq
        rw [Option.map_some, hplace] at hdir
        obtain ⟨dir', template⟩ := l
        obtain rfl : dir' = some dir := hdir
        cases hread.symm.trans ((hfound template).1 hl)
      · exact h _ s₁ ((hfound text).2 hread)
          ⟨hs₁.tree, hs₁.store, hs₁.inFlight, hs₁.finished, hs₁.pages⟩
    | false =>
      simp only [hfile, Bool.false_eq_true, if_false] at hfound
      simp only [Bool.false_eq_true, if_false, Work.ends_bind, Work.ends_log]
      exact h _ _ ((hfound _).2 rfl) ⟨rfl, rfl, rfl, rfl, rfl⟩

/-- Filling in a page registers what its template names. -/
theorem ends_layout {l : Layout} {content : String} {headings : List Heading} {data : Json.Fields}
    {r : RegistryId} {root : Path} {Q : String → Bench → Prop} (hE : ∀ t, E (.template t))
    (h : ∀ html s', (s.withStore (s.session.store.registerAll r (l.origins root))).Same s' →
      Q html s') : (l.render content headings data r root).Ends s Q E := by
  obtain ⟨template, hrun⟩ := l.run_withTokens root
  unfold Layout.render
  rw [Work.ends_bind]
  refine Work.ends_register fun s₁ hs₁ => ?_
  rw [hrun] at hs₁ ⊢
  simp only [Work.ends_bind, Work.ends_ofExcept, Work.ends_pure]
  split
  · exact h _ s₁ hs₁
  · exact hE _

end Page

/-- Makes a bundle in a fresh session and writes its page. -/
def compile (brief : Brief) (output : Output) : Work WriteReport := do
  let b ← make brief output Session.fresh.root
  Making.within b write

end Bundle
end Bindery
