import Bindery.Proofs.Asset.Aging
import Bindery.Proofs.Asset.Chains
import Bindery.Proofs.Project.Operations

/-! What holds of a session whatever was done in it, by plugins too and whether it failed or not. An
asset that is no page yet has the source its token was made from, and that source was never taken up
for a link. -/

namespace Bindery

namespace Store

variable {s : Store} {r : RegistryId}

theorem Reachable.newChild (h : s.Reachable) (hr : r < s.registries.size) :
    (s.newChild r).1.Reachable :=
  .act (.newChild r) h (if_pos hr)

theorem Reachable.modifyCell (h : s.Reachable) (c : CellId) (f : Asset → Asset) :
    (s.modifyCell c f).Reachable :=
  .act (.update c f) h rfl

end Store

/-- Two benches that differ only in what was looked up, logged, printed and called, and in the
documents on their way and done. -/
structure Bench.Quiet (s s' : Bench) : Prop where
  tree : s'.tree = s.tree
  store : s'.session.store = s.session.store
  root : s'.session.root = s.session.root
  linked : s'.session.linked = s.session.linked
  pages : s'.session.pages = s.session.pages

theorem Bench.Quiet.refl (s : Bench) : s.Quiet s := ⟨rfl, rfl, rfl, rfl, rfl⟩

theorem Bench.Quiet.trans {s₁ s₂ s₃ : Bench} (h : s₁.Quiet s₂) (h' : s₂.Quiet s₃) :
    s₁.Quiet s₃ :=
  ⟨h'.tree.trans h.tree, h'.store.trans h.store, h'.root.trans h.root, h'.linked.trans h.linked,
    h'.pages.trans h.pages⟩

/-- What is known of the asset of a token: as long as it is no page, its source is the one its token
was made from, and was not taken up for a link. -/
def Unlinked (linked : List Path) (t : Token) (a : Asset) : Prop :=
  a.source.IsNormal ∧ (a.isMarked = false → t = .ofOrigin a.source.text ∧ a.source ∉ linked)

/-- What holds in a session whatever was done in it. -/
structure Bench.Regular (s : Bench) : Prop where
  reachable : s.session.store.Reachable
  descends : s.session.store.Descends
  root : s.session.root = 0
  free : s.tree.hasFile [] = false
  each : s.session.store.Each (Unlinked s.session.linked)
  known : ∀ p ∈ s.session.linked, .ofOrigin p.text ∈ s.session.store.tokens 0
  nodup : s.session.linked.Nodup

/-- What a part of a session keeps: the registries with their masters and what they hold, the assets
but for the pages that are made of them, and the documents that were taken up for a link. -/
structure Bench.Onward (s s' : Bench) : Prop where
  extends_store : s.session.store.Extends s'.session.store
  master : ∀ r, r < s.session.store.registries.size →
    s'.session.store.master? r = s.session.store.master? r
  linked : s.session.linked <+: s'.session.linked
  ages : s.session.store.Ages s'.session.store

theorem Bench.onward_of_store {s s' : Bench} (hstore : s'.session.store = s.session.store)
    (hlinked : s.session.linked <+: s'.session.linked) : s.Onward s' where
  extends_store := hstore.symm ▸ .refl _
  master r _ := congrArg (·.master? r) hstore
  linked := hlinked
  ages := .of_cells (congrArg Store.cells hstore)

theorem Bench.Onward.refl (s : Bench) : s.Onward s := onward_of_store rfl (List.prefix_refl _)

theorem Bench.Onward.trans {s₁ s₂ s₃ : Bench} (h : s₁.Onward s₂) (h' : s₂.Onward s₃) :
    s₁.Onward s₃ where
  extends_store := h.extends_store.trans h'.extends_store
  master r hr := (h'.master r (Nat.lt_of_lt_of_le hr h.extends_store.size)).trans (h.master r hr)
  linked := h.linked.trans h'.linked
  ages := h.ages.trans h'.ages

theorem Bench.Quiet.onward {s s' : Bench} (h : s.Quiet s') : s.Onward s' :=
  onward_of_store h.store (h.linked.symm ▸ List.prefix_refl _)

/-- A part of a session that failed; for its depth only under the condition `deep`. -/
structure Bench.Falls (deep : Prop) (s : Bench) (e : Failure) (s' : Bench) : Prop where
  depth : e = .tooDeep → deep
  regular : s'.Regular
  onward : s.Onward s'

theorem Bench.Falls.after {deep : Prop} {s s₁ s' : Bench} {e : Failure} (hs : s.Onward s₁)
    (h : s₁.Falls deep e s') : s.Falls deep e s' :=
  ⟨h.depth, h.regular, hs.trans h.onward⟩

theorem Bench.Falls.mono {deep deep' : Prop} {s s' : Bench} {e : Failure} (h : s.Falls deep e s')
    (hdeep : deep → deep') : s.Falls deep' e s' :=
  ⟨fun he => hdeep (h.depth he), h.regular, h.onward⟩

/-- A part of a session that only adds to the registries. -/
structure Bench.Stocks (s s' : Bench) : Prop where
  regular : s'.Regular
  onward : s.Onward s'
  tree : s'.tree = s.tree
  linked : s'.session.linked = s.session.linked
  pages : s'.session.pages = s.session.pages

theorem Bench.Stocks.trans {s₁ s₂ s₃ : Bench} (h : s₁.Stocks s₂) (h' : s₂.Stocks s₃) :
    s₁.Stocks s₃ :=
  ⟨h'.regular, h.onward.trans h'.onward, h'.tree.trans h.tree, h'.linked.trans h.linked,
    h'.pages.trans h.pages⟩

/-- `E` holds of a failure, for its depth apart, that comes after a part which only adds to the
registries of `s`. -/
def Bench.Bears (s : Bench) (E : Failure → Bench → Prop) : Prop :=
  ∀ e s', e ≠ .tooDeep → s.Stocks s' → E e s'

theorem Bench.Bears.after {s s' : Bench} {E : Failure → Bench → Prop} (h : s.Bears E)
    (hs : s.Stocks s') : s'.Bears E :=
  fun e s₁ he hs₁ => h e s₁ he (hs.trans hs₁)

theorem Bench.bears_falls {deep : Prop} {s s' : Bench} (hs : s.Onward s') :
    s'.Bears (s.Falls deep) :=
  fun _ _ he hs₁ => ⟨fun heq => absurd heq he, hs₁.regular, hs.trans hs₁.onward⟩

namespace Bench.Regular

variable {s s' : Bench} {store : Store} {r : RegistryId} {t : Token} {c : CellId} {a : Asset}

theorem of_quiet (h : s.Regular) (hs : s.Quiet s') : s'.Regular := by
  obtain ⟨htree, hstore, hroot, hlinked, -⟩ := hs
  refine ⟨hstore ▸ h.reachable, hstore ▸ h.descends, hroot.trans h.root, htree ▸ h.free, ?_, ?_, ?_⟩
  · rw [hstore, hlinked]
    exact h.each
  · rw [hstore, hlinked]
    exact h.known
  · rw [hlinked]
    exact h.nodup

theorem stocks_of_quiet (h : s.Regular) (hs : s.Quiet s') : s.Stocks s' :=
  ⟨h.of_quiet hs, hs.onward, hs.tree, hs.linked, hs.pages⟩

theorem stocks_refl (h : s.Regular) : s.Stocks s := h.stocks_of_quiet (.refl s)

theorem withTree (h : s.Regular) {tree : FileTree} (hfree : tree.hasFile [] = false) :
    ({ s with tree } : Bench).Regular :=
  ⟨h.reachable, h.descends, h.root, hfree, h.each, h.known, h.nodup⟩

theorem withStore (h : s.Regular) (hreachable : store.Reachable) (hdescends : store.Descends)
    (heach : store.Each (Unlinked s.session.linked)) (hextends : s.session.store.Extends store) :
    (s.withStore store).Regular :=
  ⟨hreachable, hdescends, h.root, h.free, heach,
    fun p hp => hextends.tokens_subset 0 (h.known p hp), h.nodup⟩

theorem newChild (h : s.Regular) (hr : r < s.session.store.registries.size) :
    s.Stocks (s.withStore (s.session.store.newChild r).1) := by
  obtain ⟨hdescends, hextends, -⟩ := h.descends.newChild hr
  refine ⟨h.withStore (h.reachable.newChild hr) hdescends h.each.newChild hextends,
    ⟨hextends, fun x hx => ?_, List.prefix_refl _, .of_cells rfl⟩, rfl, rfl, rfl⟩
  exact (Store.master?_newChild _ r x).trans (if_neg (Nat.ne_of_lt hx))

/-- New references come from normal paths. -/
theorem registerAll (h : s.Regular) (hr : r < s.session.store.registries.size)
    {origins : List String} (horigins : ∀ o ∈ origins, (⟨o⟩ : Path).IsNormal) :
    s.Stocks (s.withStore (s.session.store.registerAll r origins)) := by
  obtain ⟨hdescends, hextends, -⟩ := h.descends.registerAll hr origins
  refine ⟨h.withStore (h.reachable.registerAll hr origins) hdescends ?_ hextends,
    ⟨hextends, fun x _ => Store.master?_registerAll _ r origins x, List.prefix_refl _,
      .registerAll _ r origins⟩, rfl, rfl, rfl⟩
  refine h.each.registerAll_of_mem h.descends hr (fun _ _ _ h => h) origins fun o ho hnew => ?_
  exact ⟨horigins o ho, fun _ => ⟨rfl, fun hmem => hnew (h.known ⟨o⟩ hmem)⟩⟩

theorem exists_asset (h : s.Regular) (hslot : (t, c) ∈ s.session.store.snapshot r) :
    ∃ a, s.session.store.asset? c = some a ∧ Unlinked s.session.linked t a :=
  h.each _ (h.descends.inRoot r _ hslot)

/-- A page may be made of an asset. -/
theorem mark (h : s.Regular) (hslot : (t, c) ∈ s.session.store.snapshot r)
    (ha : s.session.store.asset? c = some a) {page : Asset} (hpage : a.Becomes page)
    (hmarked : page.isMarked = true) :
    (s.withStore (s.session.store.modifyCell c fun _ => page)).Regular ∧
      s.Onward (s.withStore (s.session.store.modifyCell c fun _ => page)) := by
  have hextends : s.session.store.Extends (s.session.store.modifyCell c fun _ => page) :=
    ⟨Nat.le_refl _, fun _ _ h => h⟩
  refine ⟨h.withStore (h.reachable.modifyCell c _) (h.descends.modifyCell c _) ?_ hextends,
    hextends, fun _ _ => rfl, List.prefix_refl _, .modifyCell _ c fun b hb _ => ?_⟩
  · refine h.each.modifyCell h.descends hslot (fun _ _ _ => ⟨hpage.normal, fun hnot => ?_⟩)
      fun _ _ _ hother => hother
    rw [hmarked] at hnot
    cases hnot
  · obtain rfl : a = b := Option.some.inj (ha.symm.trans hb)
    exact hpage

/-- A document whose asset is a page is taken up for a link, for the first time. -/
theorem noteLinked (h : s.Regular) {p : Path}
    (hslot : (.ofOrigin p.text, c) ∈ s.session.store.snapshot r)
    (ha : s.session.store.asset? c = some a) (hmarked : a.isMarked = true)
    (hnew : p ∉ s.session.linked) (events : List Event) :
    ({ s with session := { s.session with events, linked := s.session.linked ++ [p] } } :
      Bench).Regular := by
  have hroot := h.descends.inRoot r _ hslot
  refine ⟨h.reachable, h.descends, h.root, h.free, ?_, fun q hq => ?_, ?_⟩
  · rintro ⟨u, d⟩ hd
    obtain ⟨b, hb, hunlinked⟩ := h.each _ hd
    refine ⟨b, hb, hunlinked.1, fun hnot => ?_⟩
    obtain ⟨rfl, hmem⟩ := hunlinked.2 hnot
    refine ⟨rfl, fun hmem' => ?_⟩
    rcases List.mem_append.1 hmem' with hmem' | hmem'
    · exact hmem hmem'
    · -- the asset of the document is a page already
      rw [List.mem_singleton.1 hmem'] at hd
      obtain rfl := h.descends.cell_eq hslot hd
      obtain rfl : a = b := Option.some.inj (ha.symm.trans hb)
      rw [hmarked] at hnot
      cases hnot
  · rcases List.mem_append.1 hq with hq | hq
    · exact h.known q hq
    · rw [List.mem_singleton.1 hq]
      exact List.mem_map_of_mem hroot
  · exact List.nodup_append.2 ⟨h.nodup, List.pairwise_singleton _ p, fun q hq q' hq' heq =>
      hnew (List.mem_singleton.1 hq' ▸ heq ▸ hq)⟩

theorem onward_noteLinked (s : Bench) (p : Path) (events : List Event) :
    s.Onward { s with session := { s.session with events, linked := s.session.linked ++ [p] } } :=
  onward_of_store rfl (List.prefix_append _ _)

/-- Relocation moves no asset that is no page. -/
theorem relocate (h : s.Regular) (plan : Relocation) (html : String) (r : RegistryId) :
    s.Stocks (s.withStore (plan.run html s.session.store r).store) := by
  refine ⟨h.withStore ?_ (Relocation.descends_run h.descends) ?_ Relocation.extends_run,
    ⟨Relocation.extends_run, fun x _ => Store.master?_of_registries Relocation.registries_run x,
      List.prefix_refl _, .relocate _ plan html r⟩, rfl, rfl, rfl⟩
  · exact Relocation.run_induction (P := Store.Reachable) h.reachable fun _ c hs =>
      hs.modifyCell c plan.place
  · refine Relocation.each_run h.each fun t a ha => ?_
    obtain ⟨hnormal, hunmarked⟩ := ha
    unfold Unlinked
    rw [Relocation.isMarked_place, Relocation.source_place, hnormal.normalize_eq]
    exact ⟨hnormal, hunmarked⟩

end Bench.Regular

theorem Bench.Onward.withTree {s s' : Bench} (h : s.Onward s') (tree : FileTree) :
    Bench.Onward { s with tree } { s' with tree } :=
  ⟨h.extends_store, h.master, h.linked, h.ages⟩

theorem Bench.Stocks.withTree {s s' : Bench} (h : s.Stocks s') {tree : FileTree}
    (hfree : tree.hasFile [] = false) : Bench.Stocks { s with tree } { s' with tree } :=
  ⟨h.regular.withTree hfree, h.onward.withTree tree, rfl, h.linked, h.pages⟩

end Bindery
