import Bindery.Proofs.Asset.Settling
import Bindery.Proofs.Path.Canonical

/-! Relocation has no memory. A place is told from the source alone, and placing an asset leaves nothing
of its source that another placing would read differently, so whatever was relocated before, with other
plans or in other registries, the next plan comes to the page and the places that it comes to at first. -/

namespace Bindery

/-- A store is its registries, its tables of origins and its assets. -/
theorem Store.eq_of_assets {s t : Store} (hregistries : t.registries = s.registries)
    (hmemos : t.memos = s.memos) (hassets : ∀ c, t.asset? c = s.asset? c) : t = s := by
  obtain ⟨registries, cells, memos⟩ := s
  obtain ⟨registries', cells', memos'⟩ := t
  obtain rfl : cells' = cells := Array.ext_getElem? fun c => hassets c
  obtain rfl : registries' = registries := hregistries
  obtain rfl : memos' = memos := hmemos
  rfl

namespace Relocation

variable {plan : Relocation} {s t : Store} {r : RegistryId} {c : CellId}

/-- An asset that was placed before is placed as if it had not been. -/
theorem place_place_eq (plan before : Relocation) (a : Asset) :
    plan.place (before.place a) = plan.place a := by
  have hplaced : ∀ via target source, source.normalize = a.source.normalize →
      plan.place { a with source, via, target } = plan.place a := by
    intro via target source hsource
    unfold place
    rw [hsource]
  have hsame := Path.normalize_normalize a.source
  rw [place.eq_def before]
  dsimp only
  split
  · exact hplaced _ _ _ hsame
  · exact hplaced _ _ _ hsame

theorem asset?_foldl_step (slots : List (Token × CellId)) (pass : Pass) (c : CellId) :
    (slots.foldl plan.step pass).store.asset? c =
      if c ∈ slots.map Prod.snd then (pass.store.asset? c).map plan.place
      else pass.store.asset? c := by
  induction slots generalizing pass with
  | nil => rfl
  | cons slot slots ih =>
    rw [List.foldl_cons, ih, store_step, Store.asset?_modifyCell, List.map_cons]
    by_cases hc : slot.2 = c
    · -- A cell that comes up again is placed where it is.
      have hagain : plan.place ∘ plan.place = plan.place := funext (place_place_eq plan plan)
      simp [hc, Option.map_map, hagain]
    · have hc' : c ≠ slot.2 := Ne.symm hc
      simp only [hc, hc', if_false, List.mem_cons, false_or]

/-- Relocation places the assets of the registry, each from its own source, and no others. -/
theorem asset?_run_eq (plan : Relocation) (html : String) (s : Store) (r : RegistryId) (c : CellId) :
    (plan.run html s r).store.asset? c =
      if c ∈ (s.snapshot r).map Prod.snd then (s.asset? c).map plan.place else s.asset? c :=
  asset?_foldl_step (s.snapshot r) { html, store := s } c

/-- The plan has the same places for the assets of both stores. -/
def Levels (plan : Relocation) (s t : Store) : Prop :=
  ∀ c, (t.asset? c).map plan.place = (s.asset? c).map plan.place

theorem Levels.modifyCell (h : plan.Levels s t) (c : CellId) :
    plan.Levels (s.modifyCell c plan.place) (t.modifyCell c plan.place) := by
  intro d
  rw [Store.asset?_modifyCell, Store.asset?_modifyCell]
  split
  · rw [h d]
  · exact h d

/-- What was relocated before does not show in the places. -/
theorem levels_run (plan before : Relocation) (html : String) (s : Store) (r : RegistryId) :
    plan.Levels s (before.run html s r).store := by
  have hbefore : plan.place ∘ before.place = plan.place := funext (place_place_eq plan before)
  intro c
  rw [asset?_run_eq]
  split
  · rw [Option.map_map, hbefore]
  · rfl

/-- The plan has made the same of the page so far, and has the same places for all that is left. -/
structure Abreast (plan : Relocation) (pass pass' : Pass) : Prop where
  html : pass'.html = pass.html
  made : pass'.made = pass.made
  store : plan.Levels pass.store pass'.store

theorem Abreast.step {pass pass' : Pass} (h : plan.Abreast pass pass') (slot : Token × CellId) :
    plan.Abreast (plan.step pass slot) (plan.step pass' slot) := by
  -- The stores may hold different assets here, but once placed they are the same.
  have hplaced : (pass'.store.modifyCell slot.2 plan.place).asset? slot.2 =
      (pass.store.modifyCell slot.2 plan.place).asset? slot.2 := by
    rw [Store.asset?_modifyCell, Store.asset?_modifyCell, if_pos rfl, if_pos rfl, h.store slot.2]
  have hstore := h.store.modifyCell slot.2
  unfold Relocation.step
  dsimp only
  rw [hplaced, h.html, h.made]
  split
  · exact ⟨rfl, rfl, hstore⟩
  · split <;> exact ⟨rfl, rfl, hstore⟩

theorem Abreast.foldl_step {pass pass' : Pass} (h : plan.Abreast pass pass')
    (slots : List (Token × CellId)) :
    plan.Abreast (slots.foldl plan.step pass) (slots.foldl plan.step pass') := by
  induction slots generalizing pass pass' with
  | nil => exact h
  | cons slot slots ih => exact ih (h.step slot)

theorem Abreast.eq_of_store {pass pass' : Pass} (h : plan.Abreast pass pass')
    (hstore : pass'.store = pass.store) : pass' = pass := by
  obtain ⟨html, store, made⟩ := pass
  obtain ⟨html', store', made'⟩ := pass'
  obtain rfl : html' = html := h.html
  obtain rfl : store' = store := hstore
  obtain rfl : made' = made := h.made
  rfl

/-- A relocation: by which plan, of which page and in which registry. -/
structure Turn where
  plan : Relocation
  html : String
  registry : RegistryId

/-- The store when some relocations were made in it, one after another. -/
def storeAfter (s : Store) (turns : List Turn) : Store :=
  turns.foldl (fun s turn => (turn.plan.run turn.html s turn.registry).store) s

theorem registries_storeAfter (s : Store) (turns : List Turn) :
    (storeAfter s turns).registries = s.registries := by
  induction turns generalizing s with
  | nil => rfl
  | cons turn turns ih => exact (ih _).trans registries_run

theorem memos_run {html : String} : (plan.run html s r).store.memos = s.memos :=
  run_induction (P := fun t => t.memos = s.memos) rfl fun _ _ h => h

theorem memos_storeAfter (s : Store) (turns : List Turn) :
    (storeAfter s turns).memos = s.memos := by
  induction turns generalizing s with
  | nil => rfl
  | cons turn turns ih => exact (ih _).trans memos_run

theorem levels_storeAfter (plan : Relocation) (s : Store) (turns : List Turn) :
    plan.Levels s (storeAfter s turns) := by
  induction turns generalizing s with
  | nil => exact fun _ => rfl
  | cons turn turns ih =>
    exact fun c => (ih _ c).trans (levels_run plan turn.plan turn.html s turn.registry c)

/-- An asset that no registry of the relocations holds is left alone. -/
theorem asset?_storeAfter_of_notMem {turns : List Turn}
    (h : ∀ turn ∈ turns, c ∉ (s.snapshot turn.registry).map Prod.snd) :
    (storeAfter s turns).asset? c = s.asset? c := by
  induction turns generalizing s with
  | nil => rfl
  | cons turn turns ih =>
    have hrest : ∀ turn' ∈ turns, c ∉ ((turn.plan.run turn.html s turn.registry).store.snapshot
        turn'.registry).map Prod.snd := by
      intro turn' hturn
      rw [Store.snapshot_of_registries registries_run]
      exact h turn' (List.mem_cons_of_mem _ hturn)
    refine (ih hrest).trans ?_
    rw [asset?_run_eq, if_neg (h turn List.mem_cons_self)]

/-- The entries of a registry are placed each from its own source. -/
theorem entries_run (plan : Relocation) (html : String) (s : Store) (r : RegistryId) :
    (plan.run html s r).store.entries r =
      (s.entries r).map fun entry => (entry.1, plan.place entry.2) := by
  unfold Store.entries Store.withAssets
  rw [Store.snapshot_of_registries registries_run, List.map_filterMap]
  refine List.filterMap_congr fun slot hslot => ?_
  rw [asset?_run_eq, if_pos (List.mem_map_of_mem hslot), Option.map_map, Option.map_map]
  rfl

/-- Whatever was relocated before, and in whichever registries, relocation comes to the page and to the
places that it comes to at first. If it was this registry each time, all of the store is the same. -/
theorem run_storeAfter (plan : Relocation) (html : String) (s : Store) (r : RegistryId)
    (turns : List Turn) :
    let first := plan.run html s r
    let again := plan.run html (storeAfter s turns) r
    again.html = first.html ∧ again.made = first.made ∧
      again.store.entries r = first.store.entries r ∧
      first.store.entries r = (s.entries r).map (fun entry => (entry.1, plan.place entry.2)) ∧
      ((∀ turn ∈ turns, turn.registry = r) → again = first) := by
  intro first again
  have hregistries := registries_storeAfter s turns
  have hsnapshot : (storeAfter s turns).snapshot r = s.snapshot r :=
    Store.snapshot_of_registries hregistries r
  have hlevels := levels_storeAfter plan s turns
  have habreast : plan.Abreast first again := by
    have hstart : plan.Abreast { html, store := s } { html, store := storeAfter s turns } :=
      ⟨rfl, rfl, hlevels⟩
    have hagain : again = (s.snapshot r).foldl plan.step { html, store := storeAfter s turns } := by
      rw [← hsnapshot]
      rfl
    rw [hagain]
    exact hstart.foldl_step (s.snapshot r)
  have hplaced : ∀ c ∈ (s.snapshot r).map Prod.snd,
      again.store.asset? c = first.store.asset? c := by
    intro c hc
    rw [asset?_run_eq, asset?_run_eq, hsnapshot, if_pos hc, if_pos hc]
    exact hlevels c
  have hslots : again.store.snapshot r = first.store.snapshot r := by
    rw [Store.snapshot_of_registries registries_run, Store.snapshot_of_registries registries_run,
      hsnapshot]
  have hslots' : first.store.snapshot r = s.snapshot r :=
    Store.snapshot_of_registries registries_run r
  refine ⟨habreast.html, habreast.made, ?_, entries_run plan html s r, fun hsame => ?_⟩
  · unfold Store.entries
    rw [hslots]
    refine Store.withAssets_congr fun slot hslot => hplaced slot.2 ?_
    rw [hslots'] at hslot
    exact List.mem_map_of_mem hslot
  · have hassets : ∀ c, again.store.asset? c = first.store.asset? c := by
      intro c
      by_cases hc : c ∈ (s.snapshot r).map Prod.snd
      · exact hplaced c hc
      · -- No relocation has touched what the registry does not hold.
        have hleft : (storeAfter s turns).asset? c = s.asset? c :=
          asset?_storeAfter_of_notMem fun turn hturn => by rwa [hsame turn hturn]
        rw [asset?_run_eq, asset?_run_eq, hsnapshot, if_neg hc, if_neg hc, hleft]
    have hstore : again.store = first.store :=
      Store.eq_of_assets (registries_run.trans (hregistries.trans registries_run.symm))
        (memos_run.trans ((memos_storeAfter s turns).trans memos_run.symm)) hassets
    exact habreast.eq_of_store hstore

/-- A page of pictures after a preview and after a page below another root, in which one of the pictures
belongs to the layout and the other one lies outside. -/
theorem run_storeAfter_gallery :
    let plan : Relocation := ⟨⟨"/site"⟩, ⟨"/site/out"⟩, none, some ⟨"/site/out/docs/x.html"⟩⟩
    let preview : Relocation := ⟨⟨"/site"⟩, ⟨"/site"⟩, some ⟨"/site/img"⟩, none⟩
    let inner : Relocation :=
      ⟨⟨"/site/img"⟩, ⟨"/build"⟩, none, some ⟨"/build/index.html"⟩⟩
    let html := "<img src=\"sitcom-asset-d0a0884655347e5a\">"
    let turns : List Turn := [⟨preview, html, 0⟩, ⟨inner, "", 0⟩]
    (storeAfter pictures turns).entries 0 ≠ pictures.entries 0 ∧
      plan.run html (storeAfter pictures turns) 0 = plan.run html pictures 0 ∧
      (plan.run html pictures 0).html = "<img src=\"../a.png\">" := by
  intro plan preview inner html turns
  have hsame : ∀ turn ∈ turns, turn.registry = 0 := by simp [turns]
  refine ⟨by decide +kernel, ?_, by decide +kernel⟩
  exact (run_storeAfter plan html pictures 0 turns).2.2.2.2 hsame

end Relocation
end Bindery
