import Bindery.Proofs.Asset.Descent
import Bindery.Proofs.Asset.Placement
import Bindery.Proofs.Asset.Substitution

/-! What relocation leaves in the store: the registries as they were, and the assets at their
places, with the paths that were put in the page leading there. -/

namespace Bindery

namespace Relocation

variable {plan : Relocation} {html : String} {store : Store} {r : RegistryId}

/-- What holds of a store is kept by relocation when placing an asset keeps it. -/
theorem run_induction {P : Store → Prop} (h : P store)
    (hplace : ∀ s c, P s → P (s.modifyCell c plan.place)) : P (plan.run html store r).store := by
  unfold run
  generalize store.snapshot r = slots
  have hfold : ∀ pass : Pass, P pass.store → P (slots.foldl plan.step pass).store := by
    induction slots with
    | nil => exact fun _ hpass => hpass
    | cons slot slots ih =>
      intro pass hpass
      refine ih _ ?_
      rw [store_step]
      exact hplace _ slot.2 hpass
  exact hfold _ h

theorem registries_run : (plan.run html store r).store.registries = store.registries :=
  run_induction (P := fun s => s.registries = store.registries) rfl fun _ _ h => h

theorem descends_run (h : store.Descends) : (plan.run html store r).store.Descends :=
  run_induction h fun _ c hs => hs.modifyCell c plan.place

theorem each_run {K : Token → Asset → Prop} (h : store.Each K)
    (hplace : ∀ t a, K t a → K t (plan.place a)) : (plan.run html store r).store.Each K :=
  run_induction (P := fun s => s.Each K) h fun _ c hs => hs.modifyCell_all c hplace

theorem extends_run :
    store.Extends (plan.run html store r).store := by
  refine ⟨registries_run.symm ▸ Nat.le_refl _, fun r' slot hslot => ?_⟩
  rw [Store.snapshot_of_registries registries_run]
  exact hslot

/-- Relocation leaves the sources and the marks of the assets. -/
theorem asset?_run {c : CellId} {a : Asset} (ha : store.asset? c = some a)
    (hnormal : a.source.IsNormal) : ∃ b, (plan.run html store r).store.asset? c = some b ∧
      b.source = a.source ∧ b.isMarked = a.isMarked := by
  refine run_induction (P := fun s => ∃ b, s.asset? c = some b ∧ b.source = a.source ∧
    b.isMarked = a.isMarked) ⟨a, ha, rfl, rfl⟩ ?_
  rintro s d ⟨b, hb, hsource, hmarked⟩
  rw [Store.asset?_modifyCell, hb]
  split
  · refine ⟨plan.place b, rfl, ?_, isMarked_place.trans hmarked⟩
    rw [source_place, hsource, hnormal.normalize_eq]
  · exact ⟨b, rfl, hsource, hmarked⟩

/-- What is placed stays so when another asset, or the same again, is placed. -/
theorem placed_modifyCell {c : CellId} (d : CellId)
    (h : ∃ a, store.asset? c = some a ∧ a.source.IsNormal ∧ plan.place a = a) :
    ∃ a, (store.modifyCell d plan.place).asset? c = some a ∧ a.source.IsNormal ∧
      plan.place a = a := by
  obtain ⟨a, ha, hnormal, hplaced⟩ := h
  refine ⟨a, ?_, hnormal, hplaced⟩
  rw [Store.asset?_modifyCell, ha]
  split
  · rw [Option.map_some, hplaced]
  · rfl

/-- An asset of the registry has got its place. -/
theorem placed_run_of_asset {slot : Token × CellId} {a : Asset} (ha : store.asset? slot.2 = some a)
    (hnormal : a.source.IsNormal) (hslot : slot ∈ store.snapshot r) :
    ∃ a, (plan.run html store r).store.asset? slot.2 = some a ∧ a.source.IsNormal ∧
      plan.place a = a := by
  have hfold : ∀ (slots : List (Token × CellId)) (pass : Pass) (c : CellId),
      (∃ a, pass.store.asset? c = some a ∧ a.source.IsNormal ∧ (c ∈ slots.map Prod.snd ∨
        plan.place a = a)) →
      ∃ a, (slots.foldl plan.step pass).store.asset? c = some a ∧ a.source.IsNormal ∧
        plan.place a = a := by
    intro slots
    induction slots with
    | nil =>
      rintro pass c ⟨a, ha, hnormal, hleft⟩
      exact ⟨a, ha, hnormal, hleft.resolve_left List.not_mem_nil⟩
    | cons slot slots ih =>
      rintro pass c ⟨a, ha, hnormal, hleft⟩
      refine ih (plan.step pass slot) c ?_
      rw [store_step]
      by_cases hplaced : plan.place a = a
      · obtain ⟨b, hb, hb_normal, hb_placed⟩ :=
          placed_modifyCell slot.2 ⟨a, ha, hnormal, hplaced⟩
        exact ⟨b, hb, hb_normal, .inr hb_placed⟩
      · rw [Store.asset?_modifyCell, ha]
        split
        · refine ⟨plan.place a, rfl, ?_, .inr (place_place hnormal)⟩
          rwa [source_place, hnormal.normalize_eq]
        · next hne =>
          refine ⟨a, rfl, hnormal, .inl ?_⟩
          exact (List.mem_cons.1 (hleft.resolve_right hplaced)).resolve_left (Ne.symm hne)
  exact hfold (store.snapshot r) { html, store } slot.2
    ⟨a, ha, hnormal, .inl (List.mem_map_of_mem hslot)⟩

/-- Every asset of the registry has got its place. -/
theorem placed_run (h : store.Descends) (heach : store.Each fun _ a => a.source.IsNormal)
    {slot : Token × CellId} (hslot : slot ∈ store.snapshot r) :
    ∃ a, (plan.run html store r).store.asset? slot.2 = some a ∧ a.source.IsNormal ∧
      plan.place a = a := by
  obtain ⟨a, ha, hnormal⟩ := heach slot (h.inRoot r slot hslot)
  exact placed_run_of_asset ha hnormal hslot

/-- The page is its text with the paths that were put in it, each for its token. -/
theorem html_run : (plan.run html store r).html =
    (plan.run html store r).made.foldl (fun text link => link.1.substitute text link.2) html := by
  let filled (made : List (Token × String)) : String :=
    made.foldl (fun text link => link.1.substitute text link.2) html
  have hfold : ∀ (slots : List (Token × CellId)) (pass : Pass), pass.html = filled pass.made →
      (slots.foldl plan.step pass).html = filled (slots.foldl plan.step pass).made := by
    intro slots
    induction slots with
    | nil => exact fun _ hpass => hpass
    | cons slot slots ih =>
      intro pass hpass
      refine ih (plan.step pass slot) ?_
      unfold step
      dsimp only
      split
      · exact hpass
      · split
        · simp only [filled, List.foldl_append, List.foldl_cons, List.foldl_nil, hpass]
        · exact hpass
  exact hfold (store.snapshot r) { html, store } rfl

/-- What is known of a slot in the middle of a pass: its source is normal, and a path that was put
in the page is the one to its place. -/
def Settled (plan : Relocation) (made : List (Token × String)) (t : Token) (a : Asset) : Prop :=
  a.source.IsNormal ∧ ∀ new, (t, new) ∈ made → plan.place a = a ∧ new = plan.replacement a

theorem Settled.place {made : List (Token × String)} {t : Token} {a : Asset}
    (h : Settled plan made t a) : Settled plan made t (plan.place a) := by
  obtain ⟨hnormal, hmade⟩ := h
  refine ⟨by rwa [source_place, hnormal.normalize_eq], fun new hnew => ?_⟩
  obtain ⟨hplaced, rfl⟩ := hmade new hnew
  rw [hplaced]
  exact ⟨hplaced, rfl⟩

theorem settled_step {pass : Pass} {slot : Token × CellId} (h : pass.store.Descends)
    (hslot : slot ∈ pass.store.snapshot r) (heach : pass.store.Each (Settled plan pass.made)) :
    (plan.step pass slot).store.Each (Settled plan (plan.step pass slot).made) ∧
      (plan.step pass slot).made.map Prod.fst ⊆ slot.1 :: pass.made.map Prod.fst := by
  obtain ⟨token, cell⟩ := slot
  have hplaced : (pass.store.modifyCell cell plan.place).Each (Settled plan pass.made) :=
    heach.modifyCell_all cell fun _ _ => Settled.place
  obtain ⟨a₀, ha₀, hnormal₀, -⟩ := heach _ (h.inRoot r _ hslot)
  have ha : (pass.store.modifyCell cell plan.place).asset? cell = some (plan.place a₀) := by
    rw [Store.asset?_modifyCell, if_pos rfl, ha₀]
    rfl
  unfold step
  simp only [ha]
  split
  · refine ⟨?_, ?_⟩
    · rintro ⟨t, c⟩ hc
      obtain ⟨b, hb, hnormal, hmade⟩ := hplaced (t, c) hc
      refine ⟨b, hb, hnormal, fun new hnew => ?_⟩
      rcases List.mem_append.1 hnew with hnew | hnew
      · exact hmade new hnew
      · obtain ⟨rfl, rfl⟩ := Prod.mk.inj (List.mem_singleton.1 hnew)
        obtain rfl : cell = c := h.cell_eq hslot hc
        obtain rfl : plan.place a₀ = b := Option.some.inj (ha.symm.trans hb)
        exact ⟨place_place hnormal₀, rfl⟩
    · rw [List.map_append]
      exact List.append_subset.2 ⟨List.subset_cons_self _ _, by simp⟩
  · exact ⟨hplaced, List.subset_cons_self _ _⟩

/-- The paths put in a page lead to the places of the assets of their tokens. -/
theorem settled_run (h : store.Descends) (heach : store.Each fun _ a => a.source.IsNormal) :
    (plan.run html store r).store.Each (Settled plan (plan.run html store r).made) ∧
      (plan.run html store r).made.map Prod.fst ⊆ store.tokens r := by
  have hfold : ∀ (slots : List (Token × CellId)) (pass : Pass),
      (∀ slot ∈ slots, slot ∈ store.snapshot r) → pass.store.registries = store.registries →
      pass.store.Descends → pass.store.Each (Settled plan pass.made) →
      pass.made.map Prod.fst ⊆ store.tokens r →
      (slots.foldl plan.step pass).store.Each (Settled plan (slots.foldl plan.step pass).made) ∧
        (slots.foldl plan.step pass).made.map Prod.fst ⊆ store.tokens r := by
    intro slots
    induction slots with
    | nil => exact fun pass _ _ _ hpass hmade => ⟨hpass, hmade⟩
    | cons slot slots ih =>
      intro pass hslots hregistries hdescends hpass hmade
      have hfirst := hslots slot List.mem_cons_self
      have hslot : slot ∈ pass.store.snapshot r :=
        (Store.snapshot_of_registries hregistries r).symm ▸ hfirst
      obtain ⟨hstep, htokens⟩ := settled_step hdescends hslot hpass
      refine ih (plan.step pass slot) (fun slot' h => hslots slot' (List.mem_cons_of_mem _ h)) ?_ ?_
        hstep ?_
      · rw [store_step]
        exact hregistries
      · rw [store_step]
        exact hdescends.modifyCell slot.2 plan.place
      · intro t ht
        rcases List.mem_cons.1 (htokens ht) with rfl | ht
        · exact List.mem_map_of_mem hfirst
        · exact hmade ht
  refine hfold (store.snapshot r) { html, store } (fun _ h => h) rfl h ?_ (List.nil_subset _)
  exact heach.mono fun _ _ hnormal => ⟨hnormal, nofun⟩

/-- A path that was put in a page leads to the place of the asset that its token stands for. -/
theorem exists_of_mem_made (h : store.Descends) (heach : store.Each fun _ a => a.source.IsNormal)
    {file : Path} (hfile : plan.outfile = some file) {t : Token} {path : String}
    (hmade : (t, path) ∈ (plan.run html store r).made) :
    ∃ c a, (t, c) ∈ store.snapshot r ∧ store.asset? c = some a ∧ a.source.IsNormal ∧
      path = plan.wayTo file a.source := by
  have hrun : (plan.run html store r).store.Each (Settled plan (plan.run html store r).made) ∧
      (plan.run html store r).made.map Prod.fst ⊆ store.tokens r := settled_run h heach
  obtain ⟨hsettled, htokens⟩ := hrun
  obtain ⟨⟨t', c⟩, hslot, htoken⟩ := List.mem_map.1 (htokens (List.mem_map_of_mem hmade))
  obtain rfl : t' = t := htoken
  have hroot := h.inRoot r _ hslot
  obtain ⟨a, ha, hnormal⟩ := heach _ hroot
  have hkept : (t', c) ∈ (plan.run html store r).store.snapshot 0 := by
    rwa [Store.snapshot_of_registries registries_run]
  obtain ⟨b, hb, -, hway⟩ := hsettled _ hkept
  have hsource : b.source = a.source := by
    obtain ⟨b', hb', hsource, -⟩ := asset?_run ha hnormal
    obtain rfl : b = b' := Option.some.inj (hb.symm.trans hb')
    exact hsource
  obtain ⟨hplaced, hpath⟩ := hway path hmade
  refine ⟨c, a, hslot, ha, hnormal, hpath.trans ?_⟩
  rw [replacement_eq_wayTo hfile hplaced, hsource]

end Relocation
end Bindery
