import Bindery.Proofs.Asset.Funnel
import Bindery.Proofs.Project.Orderly

/-! What holds in the middle of a run over an orderly project. The pages lie spread over the tree of
the start, and every document that was laid down could be rendered and has its page, but for those
that are set in the page of the whole run. -/

namespace Bindery

open FileTree (placeOf)

/-- A page was written in a file. -/
def Bench.HasPage (s : Bench) (file : Path) : Prop := ∃ page ∈ s.session.pages, page.file = file

/-- The places of the pages that were written. -/
def Bench.places (s : Bench) : Set Place := {q | ∃ page ∈ s.session.pages, q = placeOf page.file}

/-- What a run keeps from one bench to a later one. -/
structure Bench.Proceeds (s s' : Bench) : Prop where
  extends_store : s.session.store.Extends s'.session.store
  pages : s.session.pages ⊆ s'.session.pages

theorem Bench.Proceeds.refl (s : Bench) : s.Proceeds s := ⟨.refl _, List.Subset.refl _⟩

theorem Bench.Proceeds.trans {s₁ s₂ s₃ : Bench} (h : s₁.Proceeds s₂) (h' : s₂.Proceeds s₃) :
    s₁.Proceeds s₃ :=
  ⟨h.extends_store.trans h'.extends_store, List.Subset.trans h.pages h'.pages⟩

theorem Bench.Same.proceeds {s s' : Bench} (h : s.Same s') : s.Proceeds s' :=
  ⟨h.store.symm ▸ .refl _, h.pages.symm ▸ List.Subset.refl _⟩

theorem Bench.Proceeds.hasPage {s s' : Bench} (h : s.Proceeds s') {file : Path}
    (hpage : s.HasPage file) : s'.HasPage file := by
  obtain ⟨page, hmem, hfile⟩ := hpage
  exact ⟨page, h.pages hmem, hfile⟩

/-- What is known of a document that was laid down: it could be rendered, its references are
registered, and it has its page unless it is one of `gathered`. -/
structure LaidDown (brief : Brief) (output : Output) (tree : FileTree) (gathered : List Path)
    (s : Bench) (d : Path) : Prop where
  renders : brief.Renders tree d
  registered : ∀ p ∈ brief.references tree d, .ofOrigin p.text ∈ s.session.store.tokens 0
  page : d ∈ gathered ∨ s.HasPage (brief.pageFile output tree d)

/-- The bench of a run below the registry `u`, with some documents yet to come. -/
structure Tour (brief : Brief) (output : Output) (tree : FileTree) (u : RegistryId)
    (waiting : List RegistryId) (gathered : List Path) (s : Bench) (σ : Progress) : Prop where
  marks : Marks (brief.named output tree) s σ
  funnels : s.session.store.Funnels u waiting
  spread : tree.Spread s.places s.tree
  fits : tree.Fits s.places
  pages : ∀ page ∈ s.session.pages, ∃ l, Paged (brief.links tree) brief.entries l ∧
    page.file = brief.pageFile output tree l
  finished : ∀ d ∈ σ.finished, LaidDown brief output tree gathered s d

variable {brief : Brief} {output : Output} {tree after : FileTree} {u : RegistryId}
  {waiting waiting' : List RegistryId} {gathered gathered' : List Path} {s s' : Bench} {σ σ' : Progress} {d : Path}

theorem LaidDown.later (h : LaidDown brief output tree gathered s d) (hs : s.Proceeds s')
    (hsub : gathered ⊆ gathered') : LaidDown brief output tree gathered' s' d where
  renders := h.renders
  registered p hp := hs.extends_store.tokens_subset 0 (h.registered p hp)
  page := h.page.imp (fun hd => hsub hd) hs.hasPage

namespace Tour

theorem places_subset (h : Tour brief output tree u waiting gathered s σ) :
    s.places ⊆ brief.pagePlaces output tree := by
  rintro q ⟨page, hpage, rfl⟩
  obtain ⟨l, hl, hfile⟩ := h.pages page hpage
  exact ⟨l, hl, congrArg placeOf hfile⟩

theorem sound (h : Tour brief output tree u waiting gathered s σ) (hsound : tree.Sound) : s.tree.Sound :=
  h.spread.sound hsound h.fits

theorem mono (h : Tour brief output tree u waiting gathered s σ) (hsub : gathered ⊆ gathered') :
    Tour brief output tree u waiting gathered' s σ :=
  ⟨h.marks, h.funnels, h.spread, h.fits, h.pages, fun d hd => (h.finished d hd).later (.refl s) hsub⟩

/-- Some of the documents that wait are taken up. -/
theorem wake (h : Tour brief output tree u waiting gathered s σ) (hsub : waiting' ⊆ waiting) :
    Tour brief output tree u waiting' gathered s σ :=
  ⟨h.marks, h.funnels.mono hsub, h.spread, h.fits, h.pages, h.finished⟩

theorem of_same (h : Tour brief output tree u waiting gathered s σ) (hs : s.Same s') :
    Tour brief output tree u waiting gathered s' σ := by
  have hmarks := h.marks.of_same hs
  have hproceeds := hs.proceeds
  obtain ⟨tree', ⟨store', root', silent', inFlight', finished', events', calls', pages'⟩, asked'⟩ := s'
  obtain ⟨rfl, rfl, rfl, rfl, rfl⟩ := hs
  exact ⟨hmarks, h.funnels, h.spread, h.fits, h.pages, fun d hd =>
    (h.finished d hd).later hproceeds (List.Subset.refl _)⟩

/-- The registries change, and nothing is taken up or laid down. -/
theorem withStore (h : Tour brief output tree u waiting gathered s σ) {store : Store}
    (hmarks : Marks (brief.named output tree) (s.withStore store) σ')
    (hfinished : σ'.finished = σ.finished) (hfunnels : store.Funnels u waiting)
    (hextends : s.session.store.Extends store) :
    Tour brief output tree u waiting gathered (s.withStore store) σ' := by
  have hproceeds : s.Proceeds (s.withStore store) := ⟨hextends, List.Subset.refl _⟩
  refine ⟨hmarks, hfunnels, h.spread, h.fits, h.pages, fun d hd => ?_⟩
  exact (h.finished d (hfinished ▸ hd)).later hproceeds (List.Subset.refl _)

theorem widen (h : Tour brief output tree u waiting gathered s σ)
    (hw : s.session.store.Widens s'.session.store) (hs : (s.withStore s'.session.store).Same s')
    (hmaster : ∀ r m, s'.session.store.master? r = some m →
      s.session.store.master? r = some m ∨ u ≤ m ∧ m ∉ waiting) : Tour brief output tree u waiting gathered s' σ := by
  have hmarks : Marks (brief.named output tree) (s.withStore s'.session.store) σ :=
    h.marks.widen hw ⟨rfl, rfl, rfl, rfl, rfl⟩
  exact (h.withStore hmarks rfl (h.funnels.widen hw.size hw.snapshot hmaster) hw.extends).of_same hs

theorem registerAll (h : Tour brief output tree u waiting gathered s σ) {r : RegistryId} (hpos : 0 < r)
    (hr : r < s.session.store.registries.size) (hidle : r ∉ waiting) {origins : List String}
    (hempty : s.session.store.snapshot r = [])
    (hnamed : ∀ o ∈ Store.firstOrigins [] origins,
      (⟨o⟩ : Path) ∈ brief.named output tree ∧ (⟨o⟩ : Path).IsNormal) :
    Tour brief output tree u waiting gathered (s.withStore (s.session.store.registerAll r origins)) σ :=
  h.withStore (h.marks.registerAll hr hempty hnamed) rfl
    (h.funnels.registerAll h.marks.descends hpos hr hidle origins)
    (h.marks.descends.registerAll hr origins).2.1

theorem registerAll_of_mem (h : Tour brief output tree u waiting gathered s σ) {r : RegistryId}
    (hpos : 0 < r) (hr : r < s.session.store.registries.size) (hidle : r ∉ waiting)
    {origins : List String}
    (hnamed : ∀ o ∈ origins, (⟨o⟩ : Path) ∈ brief.named output tree ∧ (⟨o⟩ : Path).IsNormal) :
    Tour brief output tree u waiting gathered (s.withStore (s.session.store.registerAll r origins)) σ :=
  h.withStore (h.marks.registerAll_of_mem hr hnamed) rfl
    (h.funnels.registerAll h.marks.descends hpos hr hidle origins)
    (h.marks.descends.registerAll hr origins).2.1

theorem mark (h : Tour brief output tree u waiting gathered s σ)
    (hnamed : Set.InjOn (fun p : Path => Token.ofOrigin p.text) (brief.named output tree)) {p : Path}
    (hp : p ∈ brief.named output tree) {r : RegistryId} {c : CellId}
    (hslot : (.ofOrigin p.text, c) ∈ s.session.store.snapshot r) {a : Asset}
    (ha : a.isMarked = true) :
    Tour brief output tree u waiting gathered (s.withStore (s.session.store.modifyCell c fun _ => a))
      (σ.mark p) :=
  h.withStore (h.marks.mark hnamed hp hslot ha) rfl (h.funnels.of_registries rfl)
    ⟨Nat.le_refl _, fun _ _ hslot => hslot⟩

theorem relocate (h : Tour brief output tree u waiting gathered s σ) (plan : Relocation) (html : String)
    (r : RegistryId) :
    Tour brief output tree u waiting gathered (s.withStore (plan.run html s.session.store r).store) σ :=
  h.withStore (h.marks.relocate plan html) rfl
    (h.funnels.of_registries Relocation.registries_run) Relocation.extends_run

/-- The page of a document that was laid down is written. -/
theorem write (h : Tour brief output tree u waiting (d :: gathered) s σ)
    (hd : Paged (brief.links tree) brief.entries d) {page : WrittenPage} {c : Content}
    (hfile : page.file = brief.pageFile output tree d)
    (hwrite : s.tree.write page.file c = .ok after) :
    Tour brief output tree u waiting gathered (s.withPage after page) σ := by
  have hplaces : (s.withPage after page).places = insert (placeOf page.file) s.places := by
    ext q
    simp only [Bench.places, Bench.withPage, List.mem_append, List.mem_singleton, Set.mem_ofPred_eq,
      Set.mem_insert_iff]
    constructor
    · rintro ⟨page', hpage' | rfl, rfl⟩
      · exact .inr ⟨page', hpage', rfl⟩
      · exact .inl rfl
    · rintro (rfl | ⟨page', hpage', rfl⟩)
      · exact ⟨page, .inr rfl, rfl⟩
      · exact ⟨page', .inl hpage', rfl⟩
  have hproceeds : s.Proceeds (s.withPage after page) := ⟨.refl _, List.subset_append_left _ _⟩
  refine ⟨h.marks.write after page, h.funnels, ?_, ?_, fun page' hpage' => ?_, fun x hx => ?_⟩
  · rw [hplaces]
    exact h.spread.write hwrite
  · rw [hplaces]
    exact h.spread.fits h.fits (FileTree.write_ok.1 ⟨after, hwrite⟩)
  · rcases List.mem_append.1 hpage' with hpage' | hpage'
    · exact h.pages page' hpage'
    · exact ⟨d, hd, List.mem_singleton.1 hpage' ▸ hfile⟩
  · have hold := (h.finished x hx).later hproceeds (List.Subset.refl _)
    refine ⟨hold.renders, hold.registered, ?_⟩
    rcases hold.page with hmem | hpage
    · rcases List.mem_cons.1 hmem with rfl | hmem
      · exact .inr ⟨page, List.mem_append_right _ List.mem_cons_self, hfile⟩
      · exact .inl hmem
    · exact .inr hpage

theorem enter (h : Tour brief output tree u waiting gathered s σ) (d : Path) :
    Tour brief output tree u waiting gathered
      { s with session := { s.session with inFlight := d :: s.session.inFlight } } (σ.enter d) :=
  ⟨h.marks.enter d, h.funnels, h.spread, h.fits, h.pages, fun x hx =>
    ⟨(h.finished x hx).renders, (h.finished x hx).registered, (h.finished x hx).page⟩⟩

theorem leave (h : Tour brief output tree u waiting gathered s σ) (hrenders : brief.Renders tree d)
    (hregistered : ∀ p ∈ brief.references tree d, .ofOrigin p.text ∈ s.session.store.tokens 0) :
    Tour brief output tree u waiting (d :: gathered)
      { s with session := { s.session with
        inFlight := s.session.inFlight.erase d
        finished := d :: s.session.finished } } (σ.leave d) := by
  refine ⟨h.marks.leave d, h.funnels, h.spread, h.fits, h.pages, fun x hx => ?_⟩
  rcases List.mem_cons.1 hx with rfl | hx
  · exact ⟨hrenders, hregistered, .inl List.mem_cons_self⟩
  · obtain ⟨hrenders', hregistered', hpage⟩ := h.finished x hx
    exact ⟨hrenders', hregistered', hpage.imp_left (List.mem_cons_of_mem _)⟩

end Tour
end Bindery
