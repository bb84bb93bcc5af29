import Bindery.Proofs.Agree
import Bindery.Proofs.Asset.Holdings
import Bindery.Proofs.Project.CopyOrder

/-! Assets that are copied on two trees, and among others on the second one. Each of them fares as it
does on the first tree, as long as no copy upsets another one. -/

namespace Bindery

open FileTree (placeOf IsAbove)

/-- An asset that is taken from one of the places that are read, and looked up nowhere but in the
places. -/
structure Asset.Within (reads places : Set Place) (a : Asset) : Prop where
  normal : a.source.IsNormal
  read : placeOf a.source ∈ reads
  source : placeOf a.source ∈ places
  target : ∀ u ∈ a.target, placeOf u ∈ places

namespace Bundle

variable {t t' : FileTree} {reads places : Set Place} {a a' b b' : Asset} {p : Place} {c : Content}
  {assets assets' again earlier : List Asset}

theorem isFile_of_ok {before : FileTree} (h : (copyAsset before t a).2 = .ok) :
    before.isFile a.source = true := by
  rw [← Bool.not_eq_false]
  intro hmissing
  unfold copyAsset at h
  cases htarget : a.target <;> simp [htarget, hmissing] at h

/-- What is copied and not in its place already puts a content in a place. -/
theorem exists_delivers (hsound : t.Sound) (ha : a.source.IsNormal) {u : Path} (hu : a.target = some u)
    (hne : a.source ≠ u) (hok : (copyAsset t t a).2 = .ok) : ∃ c, Delivers t a (placeOf u) c := by
  have hfile := isFile_of_ok hok
  rw [FileTree.isFile_iff hsound ha] at hfile
  obtain ⟨d, hd⟩ := Option.isSome_iff_exists.1 hfile
  refine ⟨_, ⟨u, hu, hne, rfl⟩, ⟨d, hd, rfl⟩, ?_⟩
  cases hwrite : t.write u (FileTree.copied (placeOf a.source) (placeOf u) d) with
  | ok after => exact FileTree.write_ok.1 ⟨after, hwrite⟩
  | error e =>
    rw [copyAsset_of_fault hsound ha hu hne hd hwrite] at hok
    cases hok

theorem alone_congr (before : FileTree) (haim : a'.aim = a.aim) :
    AssetReport.alone before a' = AssetReport.alone before a := by
  obtain ⟨hsource, htarget⟩ := Prod.mk.inj haim
  unfold AssetReport.alone copyAsset
  rw [hsource, htarget]

theorem map_alone_congr (before : FileTree) (haims : again.map Asset.aim = assets.map Asset.aim) :
    again.map (AssetReport.alone before) = assets.map (AssetReport.alone before) := by
  induction again generalizing assets with
  | nil => rw [List.map_eq_nil_iff.1 haims.symm]
  | cons a' again ih =>
    obtain ⟨a, rest, rfl, haim, hrest⟩ := List.map_eq_cons_iff.1 haims.symm
    rw [List.map_cons, List.map_cons, alone_congr before haim.symm, ih hrest.symm]

/-- Nothing goes to where something is taken from, or above another thing, and what goes to the same
place is taken from the same place. -/
def Scattered (aims : List (Path × Option Path)) : Prop :=
  ∀ w ∈ aims, ∀ u ∈ w.2, w.1 ≠ u → ∀ w' ∈ aims, placeOf u ≠ placeOf w'.1 ∧
    ∀ u' ∈ w'.2, ¬ IsAbove (placeOf u) (placeOf u') ∧
      (placeOf u = placeOf u' → placeOf w.1 = placeOf w'.1)

instance (aims : List (Path × Option Path)) : Decidable (Scattered aims) :=
  inferInstanceAs (Decidable (∀ w ∈ aims, ∀ u ∈ w.2, w.1 ≠ u → ∀ w' ∈ aims,
    placeOf u ≠ placeOf w'.1 ∧ ∀ u' ∈ w'.2, ¬ IsAbove (placeOf u) (placeOf u') ∧
      (placeOf u = placeOf u' → placeOf w.1 = placeOf w'.1)))

/-- Assets that are scattered are copied in peace, whatever the files are. -/
theorem Scattered.peaceful (h : Scattered (assets.map Asset.aim)) (tree : FileTree) :
    Peaceful tree assets := by
  intro a ha b hb hupsets
  have hclear : ∀ {p c}, Delivers tree a p c → p ≠ placeOf b.source ∧
      ∀ u' ∈ b.target, ¬ IsAbove p (placeOf u') ∧ (p = placeOf u' → placeOf a.source = placeOf b.source) := by
    rintro p c ⟨⟨u, hu, hne, rfl⟩, -, -⟩
    exact h a.aim (List.mem_map_of_mem ha) u hu hne b.aim (List.mem_map_of_mem hb)
  cases hupsets with
  | supplies hd hplace => exact (hclear hd).1 hplace.symm
  | @changes p c p' c' hd hd' hplace hne =>
    obtain ⟨u', hu', -, rfl⟩ := hd'.target
    have hsame : p = placeOf u' := hplace.resolve_right (hclear hd).1
    have hsource := ((hclear hd).2 u' hu').2 hsame
    obtain ⟨d, hcontent, rfl⟩ := hd.content
    obtain ⟨d', hcontent', rfl⟩ := hd'.content
    rw [hsource, hcontent'] at hcontent
    rw [hsource, hsame, Option.some.inj hcontent] at hne
    exact hne rfl
  | blocks hd hd' habove =>
    obtain ⟨u', hu', -, rfl⟩ := hd'.target
    exact ((hclear hd).2 u' hu').1 habove

section Agree

variable (h : FileTree.Agree reads places t t') (ha : a.Within reads places) (haim : a'.aim = a.aim)

include h ha

/-- On trees that agree an asset fares alike. -/
theorem alone_agree : AssetReport.alone t' a = AssetReport.alone t a := by
  have hfile := h.isFile_eq ha.read ha.normal ha.source
  have hstatus : (copyAsset t' t' a).2 = (copyAsset t t a).2 :=
    status_copyAsset hfile (fun hfound => ⟨hfound, hfile.trans hfound⟩) fun _ u hu =>
      ⟨h.above _ (ha.target u hu), h.directory _ (ha.target u hu)⟩
  unfold AssetReport.alone
  rw [hstatus]

include haim

theorem delivers_agree : Delivers t' a' p c ↔ Delivers t a p c := by
  obtain ⟨hsource, htarget⟩ := Prod.mk.inj haim
  have hcontent := h.content _ ha.source ha.read
  constructor
  · rintro ⟨⟨u, hu, hne, rfl⟩, ⟨d, hd, hc⟩, hadmits⟩
    rw [htarget] at hu
    rw [hsource] at hne hd hc
    exact ⟨⟨u, hu, hne, rfl⟩, ⟨d, hcontent ▸ hd, hc⟩, (h.admits_iff (ha.target u hu)).1 hadmits⟩
  · rintro ⟨⟨u, hu, hne, rfl⟩, ⟨d, hd, hc⟩, hadmits⟩
    rw [← htarget] at hu
    rw [← hsource] at hne hd hc hcontent
    exact ⟨⟨u, hu, hne, rfl⟩, ⟨d, hcontent.trans hd, hc⟩,
      (h.admits_iff (ha.target u (htarget ▸ hu))).2 hadmits⟩

theorem upsets_agree (hb : b.Within reads places) (haim' : b'.aim = b.aim) (hupsets : Upsets t a b) :
    Upsets t' a' b' := by
  have hdelivers := fun p c => delivers_agree h ha haim (p := p) (c := c)
  have hdelivers' := fun p c => delivers_agree h hb haim' (p := p) (c := c)
  obtain ⟨hsource, htarget⟩ := Prod.mk.inj haim'
  cases hupsets with
  | supplies hfirst hplace hmissing hgoes =>
    subst hplace
    refine .supplies ((hdelivers _ _).2 hfirst) (hsource ▸ rfl) ?_ (htarget ▸ hgoes)
    rwa [h.hasFile_eq hb.read hb.source]
  | changes hfirst hsecond hplace hne =>
    exact .changes ((hdelivers _ _).2 hfirst) ((hdelivers' _ _).2 hsecond) (hsource ▸ hplace) hne
  | blocks hfirst hsecond habove =>
    exact .blocks ((hdelivers _ _).2 hfirst) ((hdelivers' _ _).2 hsecond) habove

end Agree

theorem exists_same_aim (hperm : assets'.Perm (again ++ earlier))
    (haims : again.map Asset.aim = assets.map Asset.aim) (ha : a ∈ assets) :
    ∃ a' ∈ assets', a'.aim = a.aim := by
  have hmem : a.aim ∈ again.map Asset.aim := haims ▸ List.mem_map_of_mem ha
  obtain ⟨a', ha', haim⟩ := List.mem_map.1 hmem
  exact ⟨a', hperm.mem_iff.2 (List.mem_append_left _ ha'), haim⟩

/-- The assets are copied again among others. Each is reported as it was, its copy holds what it held,
and where no copy goes, the trees agree as they did. -/
theorem copyAssets_again (h : FileTree.Agree reads places t t')
    (hassets : ∀ a ∈ assets, a.Within reads places) (hnormal' : ∀ a ∈ assets', a.source.IsNormal)
    (hperm : assets'.Perm (again ++ earlier)) (haims : again.map Asset.aim = assets.map Asset.aim)
    (hpeace : Peaceful t' assets') :
    (copyAssets t' t' assets').2.Perm
      ((copyAssets t t assets).2 ++ earlier.map (AssetReport.alone t')) ∧
    (∀ r ∈ (copyAssets t t assets).2, r.status = .ok → ∀ u ∈ r.target, r.source ≠ u →
      (copyAssets t' t' assets').1.content? (placeOf u) =
        (copyAssets t t assets).1.content? (placeOf u)) ∧
    ∀ q ∈ places, q ∈ reads → (∀ a ∈ assets', ∀ c, ¬ Delivers t' a q c) →
      (copyAssets t' t' assets').1.content? q = (copyAssets t t assets).1.content? q := by
  have hpeace₀ : Peaceful t assets := by
    intro a ha b hb hupsets
    obtain ⟨a', ha', haim⟩ := exists_same_aim hperm haims ha
    obtain ⟨b', hb', haim'⟩ := exists_same_aim hperm haims hb
    exact hpeace a' ha' b' hb' (upsets_agree h (hassets a ha) haim (hassets b hb) haim' hupsets)
  have hnormal : ∀ a ∈ assets, a.source.IsNormal := fun a ha => (hassets a ha).normal
  obtain ⟨-, hafter, heq⟩ := (After.start t).copyInTurn_eq h.sound hpeace₀ hnormal
    (fun a ha => absurd ha List.not_mem_nil) fun _ => id
  obtain ⟨-, hafter', heq'⟩ := (After.start t').copyInTurn_eq h.sound' hpeace hnormal'
    (fun a ha => absurd ha List.not_mem_nil) fun _ => id
  rw [heq, heq']
  refine ⟨?_, ?_, fun q hq hread hfree => ?_⟩
  · have hsame : again.map (AssetReport.alone t') = assets.map (AssetReport.alone t) := by
      rw [map_alone_congr t' haims]
      exact List.map_congr_left fun a ha => alone_agree h (hassets a ha)
    have hreports := hperm.map (AssetReport.alone t')
    rwa [List.map_append, hsame] at hreports
  · intro r hr hok u hu hne
    obtain ⟨a, ha, rfl⟩ := List.mem_map.1 hr
    obtain ⟨c, hc⟩ := exists_delivers h.sound (hnormal a ha) hu hne hok
    obtain ⟨a', ha', haim⟩ := exists_same_aim hperm haims ha
    have hc' : Delivers t' a' (placeOf u) c := (delivers_agree h (hassets a ha) haim).2 hc
    rw [hafter.content a (by simpa using ha) _ c hc, hafter'.content a' (by simpa using ha') _ c hc']
  · have hstay : q ∉ deliveries t (assets.reverse ++ []) := by
      rintro ⟨a, ha, c, hc⟩
      have hmem : a ∈ assets := by simpa using ha
      obtain ⟨a', ha', haim⟩ := exists_same_aim hperm haims hmem
      exact hfree a' ha' c ((delivers_agree h (hassets a hmem) haim).2 hc)
    have hstay' : q ∉ deliveries t' (assets'.reverse ++ []) := by
      rintro ⟨a, ha, c, hc⟩
      exact hfree a (by simpa using ha) c hc
    rw [hafter.spread.content q hstay, hafter'.spread.content q hstay', h.content q hq hread]

end Bundle
end Bindery
