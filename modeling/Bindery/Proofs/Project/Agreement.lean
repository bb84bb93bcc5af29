import Bindery.Proofs.Project.Crawl
import Bindery.Proofs.Project.References
import Mathlib.Data.Set.Function

/-! A bench in the middle of a run, seen as the progress of a crawl. The marks of a progress are
those on the assets of the documents, and what could be read at the start can be read still. -/

namespace Bindery

/-- What is known of the asset of a token: the file it comes from, and its mark. -/
def Known (files : Set Path) (marked : List Path) (t : Token) (a : Asset) : Prop :=
  ∃ p ∈ files, t = .ofOrigin p.text ∧ p.IsNormal ∧ (p ∈ marked → a.isMarked = true) ∧
    (p ∉ marked → a.isMarked = false ∧ a.source = p)

/-- A bench with the marks of a progress, in which the assets come from `files`. -/
structure Marks (files : Set Path) (s : Bench) (σ : Progress) : Prop where
  descends : s.session.store.Descends
  known : s.session.store.Each (Known files σ.marked)
  marked : ∀ p ∈ σ.marked, .ofOrigin p.text ∈ s.session.store.tokens 0
  inFlight : s.session.inFlight = σ.inFlight
  finished : s.session.finished = σ.finished

variable {tree : FileTree} {files : Set Path} {s s' : Bench} {σ : Progress} {r : RegistryId}
  {t : Token} {c : CellId}

theorem Known.new {p : Path} {marked : List Path} (hp : p ∈ files) (hnormal : p.IsNormal)
    (hnew : p ∉ marked) :
    Known files marked (.ofOrigin p.text) { source := p, token := .ofOrigin p.text } :=
  ⟨p, hp, rfl, hnormal, fun hmem => absurd hmem hnew, fun _ => ⟨rfl, rfl⟩⟩

namespace Marks

theorem of_same (h : Marks files s σ) (hs : s.Same s') : Marks files s' σ := by
  refine ⟨?_, ?_, ?_, hs.inFlight.trans h.inFlight, hs.finished.trans h.finished⟩
  · exact hs.store ▸ h.descends
  · exact hs.store ▸ h.known
  · exact hs.store ▸ h.marked

/-- The asset of a token of a file. -/
theorem asset_of_slot (h : Marks files s σ)
    (hfiles : Set.InjOn (fun p : Path => Token.ofOrigin p.text) files) {p : Path} (hp : p ∈ files)
    (hslot : (.ofOrigin p.text, c) ∈ s.session.store.snapshot r) :
    p.IsNormal ∧ ∃ a, s.session.store.asset? c = some a ∧ (p ∈ σ.marked → a.isMarked = true) ∧
      (p ∉ σ.marked → a.isMarked = false ∧ a.source = p) := by
  obtain ⟨a, ha, q, hq, htoken, hnormal, hmarked, hunmarked⟩ :=
    h.known _ (h.descends.inRoot r _ hslot)
  obtain rfl : p = q := hfiles hp hq htoken
  exact ⟨hnormal, a, ha, hmarked, hunmarked⟩

/-- Registering files of the run adds assets without a mark. -/
theorem registerAll (h : Marks files s σ) (hr : r < s.session.store.registries.size)
    {origins : List String} (hempty : s.session.store.snapshot r = [])
    (hfiles : ∀ o ∈ Store.firstOrigins [] origins, (⟨o⟩ : Path) ∈ files ∧ (⟨o⟩ : Path).IsNormal) :
    Marks files (s.withStore (s.session.store.registerAll r origins)) σ := by
  obtain ⟨hdescends, hextends, -⟩ := h.descends.registerAll hr origins
  have htokens : s.session.store.tokens r = ([] : List String).map Token.ofOrigin := by
    rw [Store.tokens, hempty]
    rfl
  refine ⟨hdescends, ?_, fun p hp => hextends.tokens_subset 0 (h.marked p hp), h.inFlight, h.finished⟩
  refine h.known.registerAll h.descends hr (fun _ _ _ h => h) origins htokens fun o ho hnew => ?_
  obtain ⟨hmem, hnormal⟩ := hfiles o ho
  exact .new hmem hnormal fun hmarked => hnew (h.marked _ hmarked)

theorem registerAll_of_mem (h : Marks files s σ) (hr : r < s.session.store.registries.size)
    {origins : List String} (hfiles : ∀ o ∈ origins, (⟨o⟩ : Path) ∈ files ∧ (⟨o⟩ : Path).IsNormal) :
    Marks files (s.withStore (s.session.store.registerAll r origins)) σ := by
  obtain ⟨hdescends, hextends, -⟩ := h.descends.registerAll hr origins
  refine ⟨hdescends, ?_, fun p hp => hextends.tokens_subset 0 (h.marked p hp), h.inFlight, h.finished⟩
  refine h.known.registerAll_of_mem h.descends hr (fun _ _ _ h => h) origins fun o ho hnew => ?_
  obtain ⟨hmem, hnormal⟩ := hfiles o ho
  exact .new hmem hnormal fun hmarked => hnew (h.marked _ hmarked)

/-- Marking a document marks its asset. -/
theorem mark (h : Marks files s σ)
    (hfiles : Set.InjOn (fun p : Path => Token.ofOrigin p.text) files) {p : Path} (hp : p ∈ files)
    (hslot : (.ofOrigin p.text, c) ∈ s.session.store.snapshot r) {a : Asset}
    (ha : a.isMarked = true) :
    Marks files (s.withStore (s.session.store.modifyCell c fun _ => a)) (σ.mark p) := by
  obtain ⟨hnormal, -⟩ := h.asset_of_slot hfiles hp hslot
  refine ⟨h.descends.modifyCell c _, ?_, ?_, h.inFlight, h.finished⟩
  · refine h.known.modifyCell h.descends hslot ?_ ?_
    · intro a' _ _
      exact ⟨p, hp, rfl, hnormal, fun _ => ha, fun hnot => absurd List.mem_cons_self hnot⟩
    · rintro u a' hu ⟨q, hq, rfl, hq_normal, hmarked, hunmarked⟩
      have hne : q ≠ p := fun heq => hu (heq ▸ rfl)
      refine ⟨q, hq, rfl, hq_normal, fun hmem => hmarked ?_, fun hnot => hunmarked ?_⟩
      · exact (List.mem_cons.1 hmem).resolve_left hne
      · exact fun hmem => hnot (List.mem_cons_of_mem _ hmem)
  · intro q hq
    rcases List.mem_cons.1 hq with rfl | hq
    · exact List.mem_map_of_mem (h.descends.inRoot r _ hslot)
    · exact h.marked q hq

theorem widen (h : Marks files s σ) (hw : s.session.store.Widens s'.session.store)
    (hs : (s.withStore s'.session.store).Same s') : Marks files s' σ := by
  refine ⟨hw.descends, hw.each h.known, fun p hp => ?_, hs.inFlight.trans h.inFlight,
    hs.finished.trans h.finished⟩
  rw [Store.tokens, hw.snapshot]
  exact h.marked p hp

/-- Relocation gives the assets places, and leaves the files they come from. -/
theorem relocate (h : Marks files s σ) (plan : Relocation) (html : String) :
    Marks files (s.withStore (plan.run html s.session.store r).store) σ := by
  have hregistries : (plan.run html s.session.store r).store.registries =
      s.session.store.registries := Relocation.registries_run
  refine ⟨Relocation.descends_run h.descends, Relocation.each_run h.known ?_, fun p hp => ?_,
    h.inFlight, h.finished⟩
  · rintro t a ⟨p, hp, htoken, hnormal, hmarked, hunmarked⟩
    have hmark : (plan.place a).isMarked = a.isMarked := Relocation.isMarked_place
    refine ⟨p, hp, htoken, hnormal, fun hmem => hmark.trans (hmarked hmem), fun hnot => ?_⟩
    obtain ⟨hunmark, hsource⟩ := hunmarked hnot
    exact ⟨hmark.trans hunmark, by rw [Relocation.source_place, hsource, hnormal.normalize_eq]⟩
  · have hsnapshot := Store.snapshot_of_registries hregistries 0
    exact (congrArg (Token.ofOrigin p.text ∈ List.map Prod.fst ·) hsnapshot).mpr (h.marked p hp)

theorem write (h : Marks files s σ) (after : FileTree) (page : WrittenPage) :
    Marks files (s.withPage after page) σ :=
  ⟨h.descends, h.known, h.marked, h.inFlight, h.finished⟩

theorem enter (h : Marks files s σ) (d : Path) : Marks files
    { s with session := { s.session with inFlight := d :: s.session.inFlight } } (σ.enter d) :=
  ⟨h.descends, h.known, h.marked, congrArg (d :: ·) h.inFlight, h.finished⟩

theorem leave (h : Marks files s σ) (d : Path) : Marks files
    { s with session := { s.session with
      inFlight := s.session.inFlight.erase d
      finished := d :: s.session.finished } } (σ.leave d) :=
  ⟨h.descends, h.known, h.marked, congrArg (List.erase · d) h.inFlight,
    congrArg (d :: ·) h.finished⟩

end Marks

/-- Markdown documents are read as they are at the start. -/
def FileTree.KeepsDocuments (tree t : FileTree) : Prop :=
  ∀ d text, d.isMarkdown = true → d.IsPlain → tree.read d = .ok text → t.read d = .ok text

/-- The bench of a run that began with `tree`, in which the assets come from `files`. -/
structure Agrees (tree : FileTree) (files : Set Path) (s : Bench) (σ : Progress) : Prop where
  descends : s.session.store.Descends
  known : s.session.store.Each (Known files σ.marked)
  marked : ∀ p ∈ σ.marked, .ofOrigin p.text ∈ s.session.store.tokens 0
  inFlight : s.session.inFlight = σ.inFlight
  finished : s.session.finished = σ.finished
  documents : tree.KeepsDocuments s.tree

namespace Agrees

theorem marks (h : Agrees tree files s σ) : Marks files s σ :=
  ⟨h.descends, h.known, h.marked, h.inFlight, h.finished⟩

theorem of_marks (h : Marks files s σ) (hkeeps : tree.KeepsDocuments s.tree) :
    Agrees tree files s σ :=
  ⟨h.descends, h.known, h.marked, h.inFlight, h.finished, hkeeps⟩

theorem of_same (h : Agrees tree files s σ) (hs : s.Same s') : Agrees tree files s' σ :=
  of_marks (h.marks.of_same hs) (hs.tree ▸ h.documents)

theorem asset_of_slot (h : Agrees tree files s σ)
    (hfiles : Set.InjOn (fun p : Path => Token.ofOrigin p.text) files) {p : Path} (hp : p ∈ files)
    (hslot : (.ofOrigin p.text, c) ∈ s.session.store.snapshot r) :
    p.IsNormal ∧ ∃ a, s.session.store.asset? c = some a ∧ (p ∈ σ.marked → a.isMarked = true) ∧
      (p ∉ σ.marked → a.isMarked = false ∧ a.source = p) :=
  h.marks.asset_of_slot hfiles hp hslot

theorem registerAll (h : Agrees tree files s σ) (hr : r < s.session.store.registries.size)
    {origins : List String} (hempty : s.session.store.snapshot r = [])
    (hfiles : ∀ o ∈ Store.firstOrigins [] origins, (⟨o⟩ : Path) ∈ files ∧ (⟨o⟩ : Path).IsNormal) :
    Agrees tree files (s.withStore (s.session.store.registerAll r origins)) σ :=
  of_marks (h.marks.registerAll hr hempty hfiles) h.documents

theorem mark (h : Agrees tree files s σ)
    (hfiles : Set.InjOn (fun p : Path => Token.ofOrigin p.text) files) {p : Path} (hp : p ∈ files)
    (hslot : (.ofOrigin p.text, c) ∈ s.session.store.snapshot r) {a : Asset}
    (ha : a.isMarked = true) :
    Agrees tree files (s.withStore (s.session.store.modifyCell c fun _ => a)) (σ.mark p) :=
  of_marks (h.marks.mark hfiles hp hslot ha) h.documents

theorem widen (h : Agrees tree files s σ) (hw : s.session.store.Widens s'.session.store)
    (hs : (s.withStore s'.session.store).Same s') : Agrees tree files s' σ := by
  have htree : s'.tree = s.tree := hs.tree
  exact of_marks (h.marks.widen hw hs) (htree ▸ h.documents)

theorem relocate (h : Agrees tree files s σ) (plan : Relocation) (html : String) :
    Agrees tree files (s.withStore (plan.run html s.session.store r).store) σ :=
  of_marks (h.marks.relocate plan html) h.documents

/-- A page is no Markdown document. -/
theorem write (h : Agrees tree files s σ) {page : WrittenPage} {text : Content} {after : FileTree}
    (hpage : page.file.IsPage) (hwrite : s.tree.write page.file text = .ok after) :
    Agrees tree files (s.withPage after page) σ := by
  refine of_marks (h.marks.write after page) fun d text hd hplain hread => ?_
  exact FileTree.read_of_write hplain (h.documents d text hd hplain hread) hwrite
    (hpage.placeOf_ne hd)

theorem enter (h : Agrees tree files s σ) (d : Path) : Agrees tree files
    { s with session := { s.session with inFlight := d :: s.session.inFlight } } (σ.enter d) :=
  of_marks (h.marks.enter d) h.documents

theorem leave (h : Agrees tree files s σ) (d : Path) : Agrees tree files
    { s with session := { s.session with
      inFlight := s.session.inFlight.erase d
      finished := d :: s.session.finished } } (σ.leave d) :=
  of_marks (h.marks.leave d) h.documents

end Agrees
end Bindery
