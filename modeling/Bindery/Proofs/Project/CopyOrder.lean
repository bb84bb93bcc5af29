import Bindery.Proofs.Asset.Placement
import Bindery.Proofs.Project.Copies

/-! Copying the assets of a page one after the other, in any order. The order matters when a copy is
read, replaced or blocked by another one, and otherwise not. -/

namespace Bindery

open FileTree (placeOf IsAbove)

namespace FileTree

/-- The same files and directories. -/
structure Matches (t t' : FileTree) : Prop where
  content : ∀ q, t.content? q = t'.content? q
  directory : ∀ q, t.hasDirectory q = t'.hasDirectory q

theorem copied_copied (place target : Place) (c : Content) :
    copied place target (copied place target c) = copied place target c := by
  unfold copied
  split <;> rfl

end FileTree

namespace Bundle

/-- Copies assets one after the other, each as the tree is after those before it. -/
def copyInTurn (tree : FileTree) : List Asset → FileTree × List (Asset × AssetStatus)
  | [] => (tree, [])
  | a :: rest =>
    let (after, status) := copyAsset tree tree a
    let (final, outcomes) := copyInTurn after rest
    (final, (a, status) :: outcomes)

/-- In every order the assets have the same status and leave the same tree. -/
def Orderless (tree : FileTree) (assets : List Asset) : Prop :=
  ∀ order order' : List Asset, order.Perm assets → order'.Perm assets →
    (copyInTurn tree order).2.Perm (copyInTurn tree order').2 ∧
      (copyInTurn tree order).1.Matches (copyInTurn tree order').1

/-- An asset can be copied, and its copy puts a content in a place. -/
structure Delivers (tree : FileTree) (a : Asset) (p : Place) (c : Content) : Prop where
  target : ∃ u, a.target = some u ∧ a.source ≠ u ∧ placeOf u = p
  content : ∃ d, tree.content? (placeOf a.source) = some d ∧
    c = FileTree.copied (placeOf a.source) p d
  admits : tree.Admits p

/-- The copy of the one asset changes what becomes of the other one. -/
inductive Upsets (tree : FileTree) (a b : Asset) : Prop
  /-- The copy is what the other asset is to be taken from, and was not there. -/
  | supplies {p c} (ha : Delivers tree a p c) (hsource : placeOf b.source = p)
      (hmissing : tree.hasFile p = false) (htarget : b.target ≠ none)
  /-- The copy lies where the other one goes or is taken from, and holds something else. -/
  | changes {p c p' c'} (ha : Delivers tree a p c) (hb : Delivers tree b p' c')
      (hplace : p = p' ∨ p = placeOf b.source) (hne : c ≠ c')
  /-- The copy lies where a directory of the other one has to be. -/
  | blocks {p c p' c'} (ha : Delivers tree a p c) (hb : Delivers tree b p' c')
      (habove : IsAbove p p')

variable {t t' : FileTree} {a b : Asset} {p p' : Place} {c c' : Content} {places : Set Place}
  {assets done order : List Asset}

theorem Delivers.unique (h : Delivers t a p c) (h' : Delivers t a p' c') : p = p' ∧ c = c' := by
  obtain ⟨⟨u, hu, -, rfl⟩, ⟨d, hd, rfl⟩, -⟩ := h
  obtain ⟨⟨u', hu', -, rfl⟩, ⟨d', hd', rfl⟩, -⟩ := h'
  obtain rfl := Option.some.inj (hu.symm.trans hu')
  obtain rfl := Option.some.inj (hd.symm.trans hd')
  exact ⟨rfl, rfl⟩

theorem Delivers.hasFile (h : Delivers t a p c) : t.hasFile (placeOf a.source) = true := by
  obtain ⟨-, ⟨d, hd, -⟩, -⟩ := h
  unfold FileTree.hasFile
  rw [hd]
  rfl

theorem isFile_of_content {d : Content} (hsound : t.Sound) (ha : a.source.IsNormal)
    (hd : t.content? (placeOf a.source) = some d) : t.isFile a.source = true := by
  rw [FileTree.isFile_iff hsound ha]
  unfold FileTree.hasFile
  rw [hd]
  rfl

theorem copy_eq {u : Path} {d : Content} (hsound : t.Sound) (ha : a.source.IsNormal)
    (hd : t.content? (placeOf a.source) = some d) :
    t.copy a.source u = t.write u (FileTree.copied (placeOf a.source) (placeOf u) d) := by
  have hlocate : t.locate a.source = .ok (placeOf a.source) :=
    FileTree.locate_of_hasFile hsound ha (by simp [FileTree.hasFile, hd])
  unfold FileTree.copy
  rw [hlocate]
  simp [hd, bind, Except.bind]

theorem copyAsset_of_missing {before : FileTree} {u : Path} (hu : a.target = some u)
    (h : before.isFile a.source = false) : copyAsset before t a = (t, .notFound) := by
  simp [copyAsset, hu, h]

theorem copyAsset_in_place {before : FileTree} {u : Path} (hu : a.target = some u)
    (h : before.isFile a.source = true) (heq : a.source = u) : copyAsset before t a = (t, .ok) := by
  subst heq
  simp [copyAsset, hu, h]

theorem copyAsset_of_write {u : Path} {d : Content} {after : FileTree} (hsound : t.Sound)
    (ha : a.source.IsNormal) (hu : a.target = some u) (hne : a.source ≠ u)
    (hd : t.content? (placeOf a.source) = some d)
    (hwrite : t.write u (FileTree.copied (placeOf a.source) (placeOf u) d) = .ok after) :
    copyAsset t t a = (after, .ok) := by
  simp [copyAsset, hu, isFile_of_content hsound ha hd, hne, copy_eq hsound ha hd, hwrite]

theorem copyAsset_of_fault {u : Path} {d : Content} {e : FileFault} (hsound : t.Sound)
    (ha : a.source.IsNormal) (hu : a.target = some u) (hne : a.source ≠ u)
    (hd : t.content? (placeOf a.source) = some d)
    (hwrite : t.write u (FileTree.copied (placeOf a.source) (placeOf u) d) = .error e) :
    copyAsset t t a = (t, .failed e) := by
  simp [copyAsset, hu, isFile_of_content hsound ha hd, hne, copy_eq hsound ha hd, hwrite]

theorem Delivers.copyAsset_eq (h : Delivers t a p c) (hsound : t.Sound) (ha : a.source.IsNormal) :
    ∃ u after, placeOf u = p ∧ t.write u c = .ok after ∧ copyAsset t t a = (after, .ok) := by
  obtain ⟨⟨u, hu, hne, rfl⟩, ⟨d, hd, rfl⟩, hadmits⟩ := h
  obtain ⟨after, hwrite⟩ := FileTree.write_ok.2 hadmits
  exact ⟨u, after, rfl, hwrite, copyAsset_of_write hsound ha hu hne hd hwrite⟩

/-- The places of the assets that can be copied. -/
def deliveries (tree : FileTree) (assets : List Asset) : Set Place :=
  {p | ∃ a ∈ assets, ∃ c, Delivers tree a p c}

/-- The tree after some assets were copied, each as it is copied alone. -/
structure After (tree : FileTree) (done : List Asset) (after : FileTree) : Prop where
  spread : tree.Spread (deliveries tree done) after
  content : ∀ a ∈ done, ∀ p c, Delivers tree a p c → after.content? p = some c

/-- No asset changes what becomes of another one. -/
def Peaceful (tree : FileTree) (assets : List Asset) : Prop :=
  ∀ a ∈ assets, ∀ b ∈ assets, ¬ Upsets tree a b

theorem Peaceful.fits (h : Peaceful t assets) : t.Fits (deliveries t assets) := by
  constructor
  · rintro p ⟨a, -, c, ha⟩
    exact ha.admits
  · rintro p ⟨a, hmem, c, ha⟩ q ⟨b, hmem', c', hb⟩ habove
    exact h a hmem b hmem' (.blocks ha hb habove)

theorem deliveries_mono (h : ∀ a ∈ done, a ∈ assets) : deliveries t done ⊆ deliveries t assets := by
  rintro p ⟨a, ha, hp⟩
  exact ⟨a, h a ha, hp⟩

namespace After

theorem start (t : FileTree) : After t [] t := by
  have hnone : deliveries t [] = ∅ := by
    ext p
    simp [deliveries]
  refine ⟨?_, fun a ha => absurd ha List.not_mem_nil⟩
  rw [hnone]
  exact .refl t

theorem congr (h : After t done t') (hmem : ∀ a, a ∈ done ↔ a ∈ order) : After t order t' := by
  have hsame : deliveries t order = deliveries t done :=
    Set.Subset.antisymm (deliveries_mono fun a => (hmem a).2) (deliveries_mono fun a => (hmem a).1)
  exact ⟨hsame ▸ h.spread, fun a ha => h.content a ((hmem a).2 ha)⟩

theorem matches_of {t'' : FileTree} (h : After t done t') (h' : After t done t'') :
    t'.Matches t'' := by
  constructor
  · intro q
    by_cases hq : q ∈ deliveries t done
    · obtain ⟨a, ha, c, hc⟩ := hq
      rw [h.content a ha q c hc, h'.content a ha q c hc]
    · rw [h.spread.content q hq, h'.spread.content q hq]
  · intro q
    rw [Bool.eq_iff_iff, h.spread.directory, h'.spread.directory]

theorem skip (h : After t done t') (hnone : ∀ p c, ¬ Delivers t a p c) : After t (a :: done) t' := by
  have hsame : deliveries t (a :: done) = deliveries t done := by
    ext p
    simp [deliveries, hnone]
  refine ⟨hsame ▸ h.spread, fun b hb p c hc => ?_⟩
  rcases List.mem_cons.1 hb with rfl | hb
  · exact absurd hc (hnone p c)
  · exact h.content b hb p c hc

theorem deliver {t'' : FileTree} {u : Path} (h : After t done t') (ha : Delivers t a (placeOf u) c)
    (hwrite : t'.write u c = .ok t'')
    (hagree : ∀ b ∈ done, ∀ c', Delivers t b (placeOf u) c' → c' = c) :
    After t (a :: done) t'' := by
  have hsame : deliveries t (a :: done) = insert (placeOf u) (deliveries t done) := by
    ext p
    constructor
    · rintro ⟨b, hb, c', hc'⟩
      rcases List.mem_cons.1 hb with rfl | hb
      · exact .inl (hc'.unique ha).1
      · exact .inr ⟨b, hb, c', hc'⟩
    · rintro (rfl | ⟨b, hb, hc'⟩)
      · exact ⟨a, List.mem_cons_self, c, ha⟩
      · exact ⟨b, List.mem_cons_of_mem _ hb, hc'⟩
  refine ⟨hsame ▸ h.spread.write hwrite, fun b hb p c' hc' => ?_⟩
  rw [(FileTree.write_spec hwrite).1]
  rcases List.mem_cons.1 hb with rfl | hb
  · obtain ⟨rfl, rfl⟩ := hc'.unique ha
    rw [if_pos rfl]
  · split
    · next heq => rw [hagree b hb c' (heq ▸ hc')]
    · exact h.content b hb p c' hc'

end After

/-- After some assets were copied, one more fares as it does alone. -/
structure Fares (t : FileTree) (done : List Asset) (t' : FileTree) (b : Asset) : Prop where
  status : (copyAsset t' t' b).2 = (copyAsset t t b).2
  after : After t (b :: done) (copyAsset t' t' b).1
  found : copyAsset t t' b = copyAsset t' t' b

section Fares

variable {u : Path} {d : Content} (h : After t done t') (hsound : t.Sound)
  (hpeace : Peaceful t assets) (hdone : ∀ a ∈ done, a ∈ assets) (hb : b ∈ assets)
  (hnormal : b.source.IsNormal) (hu : b.target = some u)

include h hsound hpeace hdone

theorem After.sound : t'.Sound :=
  h.spread.sound hsound (hpeace.fits.subset (deliveries_mono hdone))

include hb

omit hsound in
theorem After.exists_content (hd : Delivers t b p c) :
    ∃ d, t'.content? (placeOf b.source) = some d ∧ FileTree.copied (placeOf b.source) p d = c := by
  by_cases hmem : placeOf b.source ∈ deliveries t done
  · -- A copy lies there, which holds what will be written.
    obtain ⟨a, ha, c', hc'⟩ := hmem
    have hsame : c' = c := by
      by_contra hne
      exact hpeace a (hdone a ha) b hb (.changes hc' hd (.inr rfl) hne)
    obtain ⟨d, -, hcopied⟩ := hd.content
    refine ⟨c', h.content a ha _ c' hc', ?_⟩
    rw [hsame, hcopied, FileTree.copied_copied]
  · obtain ⟨d, hfound, hcopied⟩ := hd.content
    exact ⟨d, (h.spread.content _ hmem).trans hfound, hcopied.symm⟩

include hnormal

theorem After.isFile_eq (hu : b.target ≠ none) : t'.isFile b.source = t.isFile b.source := by
  have hsound' : t'.Sound := h.sound hsound hpeace hdone
  rw [Bool.eq_iff_iff, FileTree.isFile_iff hsound' hnormal, FileTree.isFile_iff hsound hnormal,
    h.spread.file]
  refine ⟨fun hor => hor.elim id ?_, .inl⟩
  rintro ⟨a, ha, c, hc⟩
  rw [← Bool.not_eq_false]
  intro hmissing
  exact hpeace a (hdone a ha) b hb (.supplies hc rfl hmissing hu)

include hu

theorem fares_of_delivers (hd : Delivers t b p c) : Fares t done t' b := by
  obtain ⟨u', after, -, -, halone⟩ := hd.copyAsset_eq hsound hnormal
  have hsub : deliveries t done ⊆ deliveries t assets := deliveries_mono hdone
  have hadmits : t'.Admits p := h.spread.admits hpeace.fits hsub ⟨b, hb, c, hd⟩
  have hfile := h.isFile_eq hsound hpeace hdone hb hnormal (by simp [hu])
  obtain ⟨d, hread, rfl⟩ := h.exists_content hpeace hdone hb hd
  obtain ⟨⟨v, hv, hne, rfl⟩, -, -⟩ := id hd
  obtain ⟨after', hwrite⟩ := FileTree.write_ok.2 hadmits
  have hnext : copyAsset t' t' b = (after', .ok) :=
    copyAsset_of_write (h.sound hsound hpeace hdone) hnormal hv hne hread hwrite
  refine ⟨by rw [hnext, halone], ?_, by unfold copyAsset; rw [hfile]⟩
  rw [hnext]
  refine h.deliver hd hwrite fun a ha c' hc' => ?_
  by_contra hne'
  exact hpeace a (hdone a ha) b hb (.changes hc' hd (.inl rfl) hne')

theorem fares_of_fault (hne : b.source ≠ u) (hd : t.content? (placeOf b.source) = some d)
    (hblocked : ¬ t.Admits (placeOf u)) : Fares t done t' b := by
  have hfits : t.Fits (deliveries t done) := hpeace.fits.subset (deliveries_mono hdone)
  have hsound' : t'.Sound := h.sound hsound hpeace hdone
  have hfile := h.isFile_eq hsound hpeace hdone hb hnormal (by simp [hu])
  obtain ⟨hway, hdir⟩ := h.spread.stuck hsound hfits.admits hblocked
  have hread : ∃ d', t'.content? (placeOf b.source) = some d' := by
    have hfound := hfile.trans (isFile_of_content hsound hnormal hd)
    rw [FileTree.isFile_iff hsound' hnormal] at hfound
    exact Option.isSome_iff_exists.1 hfound
  obtain ⟨d', hd'⟩ := hread
  cases hwrite : t.write u (FileTree.copied (placeOf b.source) (placeOf u) d) with
  | ok after => exact absurd (FileTree.write_ok.1 ⟨after, hwrite⟩) hblocked
  | error e =>
    have hwrite' : t'.write u (FileTree.copied (placeOf b.source) (placeOf u) d') = .error e :=
      FileTree.write_error_congr hway hdir hwrite
    have hnext := copyAsset_of_fault hsound' hnormal hu hne hd' hwrite'
    have halone := copyAsset_of_fault hsound hnormal hu hne hd hwrite
    refine ⟨by rw [hnext, halone], ?_, by unfold copyAsset; rw [hfile]⟩
    rw [hnext]
    refine h.skip fun p c hc => ?_
    obtain ⟨u', hu', -, rfl⟩ := hc.target
    obtain rfl := Option.some.inj (hu.symm.trans hu')
    exact hblocked hc.admits

omit hu

/-- When none of the assets upsets another one, each fares as it does alone. -/
theorem fares : Fares t done t' b := by
  cases hu : b.target with
  | none =>
    have hout : ∀ before tree, copyAsset before tree b = (tree, .outside) := by
      simp [copyAsset, hu]
    refine ⟨by rw [hout, hout], ?_, by rw [hout, hout]⟩
    rw [hout]
    refine h.skip fun p c hc => ?_
    obtain ⟨u, hu', -⟩ := hc.target
    rw [hu] at hu'
    cases hu'
  | some u =>
    have hfile := h.isFile_eq hsound hpeace hdone hb hnormal (by simp [hu])
    cases hd : t.content? (placeOf b.source) with
    | none =>
      have hmissing : t.isFile b.source = false := by
        rw [Bool.eq_false_iff, ne_eq, FileTree.isFile_iff hsound hnormal]
        simp [FileTree.hasFile, hd]
      have halone := copyAsset_of_missing (t := t) hu hmissing
      have hnext := copyAsset_of_missing (t := t') hu (hfile.trans hmissing)
      refine ⟨by rw [hnext, halone], ?_, by unfold copyAsset; rw [hfile]⟩
      rw [hnext]
      refine h.skip fun p c hc => ?_
      have hfound := hc.hasFile
      simp [FileTree.hasFile, hd] at hfound
    | some d =>
      by_cases heq : b.source = u
      · have hfound : t.isFile b.source = true := isFile_of_content hsound hnormal hd
        have halone := copyAsset_in_place (t := t) hu hfound heq
        have hnext := copyAsset_in_place (t := t') hu (hfile.trans hfound) heq
        refine ⟨by rw [hnext, halone], ?_, by unfold copyAsset; rw [hfile]⟩
        rw [hnext]
        refine h.skip fun p c hc => ?_
        obtain ⟨u', hu', hne, -⟩ := hc.target
        exact hne (heq.trans (Option.some.inj (hu.symm.trans hu')))
      · by_cases hadmits : t.Admits (placeOf u)
        · exact fares_of_delivers h hsound hpeace hdone hb hnormal hu
            ⟨⟨u, hu, heq, rfl⟩, ⟨d, hd, rfl⟩, hadmits⟩
        · exact fares_of_fault h hsound hpeace hdone hb hnormal hu heq hd hadmits

end Fares

theorem copyInTurn_cons (tree : FileTree) (a : Asset) (rest : List Asset) :
    copyInTurn tree (a :: rest) = ((copyInTurn (copyAsset tree tree a).1 rest).1,
      (a, (copyAsset tree tree a).2) :: (copyInTurn (copyAsset tree tree a).1 rest).2) := rfl

/-- In turn, and all found before the first copy, the assets fare as they do alone. -/
theorem After.copyInTurn_eq (h : After t done t') (hsound : t.Sound) (hpeace : Peaceful t assets)
    (hnormal : ∀ a ∈ assets, a.source.IsNormal) (hdone : ∀ a ∈ done, a ∈ assets)
    (horder : ∀ a ∈ order, a ∈ assets) :
    (copyInTurn t' order).2 = order.map (fun a => (a, (copyAsset t t a).2)) ∧
      After t (order.reverse ++ done) (copyInTurn t' order).1 ∧
      copyAssets t t' order = ((copyInTurn t' order).1, order.map (AssetReport.alone t)) := by
  induction order generalizing done t' with
  | nil => exact ⟨rfl, h, rfl⟩
  | cons b order ih =>
    have hb := horder b List.mem_cons_self
    have hfares := fares h hsound hpeace hdone hb (hnormal b hb)
    obtain ⟨houtcomes, hafter, hreports⟩ := ih hfares.after
      (List.forall_mem_cons.2 ⟨hb, hdone⟩) fun a ha => horder a (List.mem_cons_of_mem _ ha)
    rw [copyInTurn_cons]
    refine ⟨?_, ?_, ?_⟩
    · rw [houtcomes, hfares.status]
      rfl
    · rw [List.reverse_cons, List.append_assoc]
      exact hafter
    · rw [copyAssets_cons, hfares.found, hreports, hfares.status]
      rfl

theorem Peaceful.orderless (hpeace : Peaceful t assets) (hsound : t.Sound)
    (hnormal : ∀ a ∈ assets, a.source.IsNormal) : Orderless t assets := by
  intro order order' hperm hperm'
  obtain ⟨houtcomes, hafter, -⟩ := (After.start t).copyInTurn_eq hsound hpeace hnormal
    (fun a ha => absurd ha List.not_mem_nil) fun a ha => hperm.mem_iff.1 ha
  obtain ⟨houtcomes', hafter', -⟩ := (After.start t).copyInTurn_eq hsound hpeace hnormal
    (fun a ha => absurd ha List.not_mem_nil) fun a ha => hperm'.mem_iff.1 ha
  have hsame : order.Perm order' := hperm.trans hperm'.symm
  constructor
  · rw [houtcomes, houtcomes']
    exact hsame.map _
  · exact hafter.matches_of (hafter'.congr fun a => by simp [hsame.mem_iff])

/-! What an asset that upsets another one makes of two orders. -/

theorem copyInTurn_append (tree : FileTree) (first second : List Asset) :
    (copyInTurn tree (first ++ second)).1 =
      (copyInTurn (copyInTurn tree first).1 second).1 := by
  induction first generalizing tree with
  | nil => rfl
  | cons a first ih => exact ih _

/-- Copies in turn change nothing but the places they go to. -/
theorem exists_spread_copyInTurn (tree : FileTree) (order : List Asset) :
    ∃ places, (∀ p ∈ places, ∃ a ∈ order, ∃ u ∈ a.target, placeOf u = p) ∧
      tree.Spread places (copyInTurn tree order).1 := by
  induction order generalizing tree with
  | nil => exact ⟨∅, fun p hp => hp.elim, .refl tree⟩
  | cons a order ih =>
    obtain ⟨places, hplaces, hspread⟩ := ih (copyAsset tree tree a).1
    have hrest : ∀ p ∈ places, ∃ b ∈ a :: order, ∃ u ∈ b.target, placeOf u = p := by
      intro p hp
      obtain ⟨b, hb, hu⟩ := hplaces p hp
      exact ⟨b, List.mem_cons_of_mem _ hb, hu⟩
    have hsame : tree.isFile a.source = true → tree.isFile a.source = true := id
    rw [copyInTurn_cons]
    rcases copyAsset_cases hsame with ⟨status, -, heq⟩ | ⟨u, after, hu, -, heq, hafter⟩
    · rw [heq] at hspread ⊢
      exact ⟨places, hrest, hspread⟩
    · rw [heq] at hspread ⊢
      rcases hafter with ⟨-, rfl⟩ | ⟨c, hwrite⟩
      · exact ⟨places, hrest, hspread⟩
      · refine ⟨insert (placeOf u) ∅ ∪ places, ?_, ((FileTree.Spread.refl tree).write hwrite).trans hspread⟩
        rintro p ((rfl | hp) | hp)
        · exact ⟨a, List.mem_cons_self, u, hu, rfl⟩
        · exact hp.elim
        · exact hrest p hp

theorem exists_grown_of_mem {tree : FileTree} {status : AssetStatus}
    (h : (b, status) ∈ (copyInTurn tree order).2) :
    ∃ tree', tree.Grows tree' ∧ status = (copyAsset tree' tree' b).2 := by
  induction order generalizing tree with
  | nil => cases h
  | cons a order ih =>
    rw [copyInTurn_cons, List.mem_cons] at h
    rcases h with heq | hmem
    · obtain ⟨rfl, rfl⟩ := Prod.mk.inj heq
      exact ⟨tree, .refl tree, rfl⟩
    · obtain ⟨tree', hgrows, hstatus⟩ := ih hmem
      obtain ⟨places, -, hspread⟩ := exists_spread_copyInTurn tree [a]
      exact ⟨tree', hspread.grows.trans hgrows, hstatus⟩

theorem fits_singleton (h : t.Admits p) : t.Fits {p} := by
  constructor
  · rintro q rfl
    exact h
  · rintro q rfl q' rfl
    exact FileTree.not_isAbove_self _

/-- After copies to one place, an asset can still be copied there, and its copy holds what it did. -/
theorem Delivers.again (h : Delivers t b p c) (hspread : t.Spread places t')
    (hplaces : ∀ q ∈ places, q = p) : Delivers t' b p c := by
  obtain ⟨htarget, ⟨d, hd, hc⟩, hadmits⟩ := h
  refine ⟨htarget, ?_, hspread.admits (fits_singleton hadmits) hplaces rfl⟩
  by_cases hself : placeOf b.source = p
  · have hfile : t'.hasFile (placeOf b.source) = true :=
      hspread.grows.file _ (by simp [FileTree.hasFile, hd])
    obtain ⟨d', hd'⟩ := Option.isSome_iff_exists.1 hfile
    refine ⟨d', hd', ?_⟩
    rw [hc, FileTree.copied, FileTree.copied, if_pos hself, if_pos hself]
  · exact ⟨d, (hspread.content _ fun hmem => hself (hplaces _ hmem)).trans hd, hc⟩

/-- An asset that can be copied can be the last one that is copied to its place. -/
theorem exists_order (hsound : t.Sound) (hb : b ∈ assets) (hnormal : b.source.IsNormal)
    (h : Delivers t b p c) :
    ∃ order : List Asset, order.Perm assets ∧ (copyInTurn t order).1.content? p = some c := by
  let goesThere (a : Asset) : Bool := a.target.any fun u => decide (placeOf u = p)
  let first := (assets.erase b).filter goesThere
  let last := (assets.erase b).filter (!goesThere ·)
  refine ⟨first ++ b :: last, ?_, ?_⟩
  · have hothers : (first ++ last).Perm (assets.erase b) := List.filter_append_perm goesThere _
    exact (List.perm_middle.trans (hothers.cons b)).trans (List.perm_cons_erase hb).symm
  · obtain ⟨places, hplaces, hspread⟩ := exists_spread_copyInTurn t first
    have hhere : ∀ q ∈ places, q = p := by
      intro q hq
      obtain ⟨a, ha, u, hu, rfl⟩ := hplaces q hq
      have hgoes := (List.mem_filter.1 ha).2
      simpa [goesThere, Option.mem_def.1 hu] using hgoes
    have hsound' := hspread.sound hsound ((fits_singleton h.admits).subset hhere)
    obtain ⟨u, after, rfl, hwrite, hcopy⟩ := (h.again hspread hhere).copyAsset_eq hsound' hnormal
    obtain ⟨places', hplaces', hspread'⟩ := exists_spread_copyInTurn after last
    have haway : placeOf u ∉ places' := by
      intro hmem
      obtain ⟨a, ha, v, hv, heq⟩ := hplaces' _ hmem
      have hgoes := (List.mem_filter.1 ha).2
      simp [goesThere, Option.mem_def.1 hv, heq] at hgoes
    rw [copyInTurn_append, copyInTurn_cons, hcopy, hspread'.content _ haway,
      (FileTree.write_spec hwrite).1, if_pos rfl]

theorem Delivers.copied (h : Delivers t a p c) (hsound : t.Sound) (ha : a.source.IsNormal) :
    t.Spread {p} (copyAsset t t a).1 ∧ (copyAsset t t a).1.content? p = some c ∧
      (copyAsset t t a).1.Sound := by
  obtain ⟨u, after, rfl, hwrite, hcopy⟩ := h.copyAsset_eq hsound ha
  have hspread : t.Spread {placeOf u} after := by
    have hone := (FileTree.Spread.refl t).write hwrite
    rwa [insert_empty_eq] at hone
  have hcontent := (FileTree.write_spec hwrite).1 (placeOf u)
  rw [if_pos rfl] at hcontent
  rw [hcopy]
  exact ⟨hspread, hcontent, hspread.sound hsound (fits_singleton h.admits)⟩

/-- An asset whose status can no more be what it is alone, once another one was copied. -/
theorem not_orderless_of_status (ha : a ∈ assets) (hb : b ∈ assets) (hne : a ≠ b)
    (h : ∀ tree', (copyAsset t t a).1.Grows tree' →
      (copyAsset tree' tree' b).2 ≠ (copyAsset t t b).2) : ¬ Orderless t assets := by
  intro horderless
  have hmem : b ∈ assets.erase a := (List.mem_erase_of_ne hne.symm).2 hb
  have hperm : (a :: b :: (assets.erase a).erase b).Perm assets :=
    ((List.perm_cons_erase hmem).symm.cons a).trans (List.perm_cons_erase ha).symm
  have hperm' := (List.Perm.swap a b _).trans hperm
  have hfirst : (b, (copyAsset t t b).2) ∈
      (copyInTurn t (b :: a :: (assets.erase a).erase b)).2 := List.mem_cons_self
  have hlater := (horderless _ _ hperm' hperm).1.mem_iff.1 hfirst
  rw [copyInTurn_cons, List.mem_cons] at hlater
  rcases hlater with heq | hlater
  · exact hne (Prod.mk.inj heq).1.symm
  · obtain ⟨tree', hgrows, hstatus⟩ := exists_grown_of_mem hlater
    exact h tree' hgrows hstatus.symm

theorem copyAsset_ne_notFound {before tree : FileTree} (h : before.isFile a.source = true) :
    (copyAsset before tree a).2 ≠ .notFound := by
  unfold copyAsset
  cases a.target with
  | none => simp
  | some u =>
    simp only [h, Bool.not_true, Bool.false_eq_true, if_false]
    split
    · simp
    · cases tree.copy a.source u <;> simp

theorem not_orderless_of_supplies (hsound : t.Sound) (hnormal : ∀ a ∈ assets, a.source.IsNormal)
    (ha : a ∈ assets) (hb : b ∈ assets) (hd : Delivers t a p c) (hsource : placeOf b.source = p)
    (hmissing : t.hasFile p = false) (htarget : b.target ≠ none) : ¬ Orderless t assets := by
  have hne : a ≠ b := by
    rintro rfl
    have hfile := hd.hasFile
    rw [hsource, hmissing] at hfile
    cases hfile
  obtain ⟨-, hcontent, hsound'⟩ := hd.copied hsound (hnormal a ha)
  obtain ⟨u, hu⟩ := Option.ne_none_iff_exists'.1 htarget
  have halone : copyAsset t t b = (t, .notFound) := by
    refine copyAsset_of_missing hu ?_
    rw [Bool.eq_false_iff, ne_eq, FileTree.isFile_iff hsound (hnormal b hb), hsource, hmissing]
    simp
  have hfound := isFile_of_content hsound' (hnormal b hb) (hsource ▸ hcontent)
  refine not_orderless_of_status ha hb hne fun tree' hgrows => ?_
  rw [halone]
  exact copyAsset_ne_notFound (FileTree.isFile_of_grows hgrows hfound)

theorem not_orderless_of_blocks (hsound : t.Sound) (hnormal : ∀ a ∈ assets, a.source.IsNormal)
    (ha : a ∈ assets) (hb : b ∈ assets) (hd : Delivers t a p c) (hd' : Delivers t b p' c')
    (habove : IsAbove p p') : ¬ Orderless t assets := by
  have hne : a ≠ b := by
    rintro rfl
    obtain ⟨rfl, -⟩ := hd.unique hd'
    exact FileTree.not_isAbove_self _ habove
  obtain ⟨-, hcontent, -⟩ := hd.copied hsound (hnormal a ha)
  obtain ⟨u, after, rfl, -, halone⟩ := hd'.copyAsset_eq hsound (hnormal b hb)
  obtain ⟨⟨v, hv, hne', hplace⟩, -, -⟩ := hd'
  refine not_orderless_of_status ha hb hne fun tree' hgrows hstatus => ?_
  rw [halone] at hstatus
  have hfile : tree'.hasFile p = true := hgrows.file p (by simp [FileTree.hasFile, hcontent])
  have hsame : tree'.isFile b.source = true → tree'.isFile b.source = true := id
  rcases copyAsset_cases hsame with ⟨status, hfault, heq⟩ | ⟨w, after', hw, -, -, hafter⟩
  · rw [heq] at hstatus
    exact hfault hstatus
  · obtain rfl := Option.some.inj (hv.symm.trans hw)
    rcases hafter with ⟨heq, -⟩ | ⟨c'', hwrite⟩
    · exact hne' heq
    · have hfree := (FileTree.write_ok.1 ⟨after', hwrite⟩).above p (hplace ▸ habove)
      rw [hfile] at hfree
      cases hfree

theorem Orderless.peaceful (h : Orderless t assets) (hsound : t.Sound)
    (hnormal : ∀ a ∈ assets, a.source.IsNormal) : Peaceful t assets := by
  intro a ha b hb hupsets
  have hlevel : ∀ {a b : Asset} {p p' : Place} {c c' : Content}, a ∈ assets → b ∈ assets →
      Delivers t a p c → Delivers t b p' c' → ¬ IsAbove p p' := fun ha hb hd hd' habove =>
    not_orderless_of_blocks hsound hnormal ha hb hd hd' habove h
  cases hupsets with
  | supplies hd hsource hmissing htarget =>
    exact not_orderless_of_supplies hsound hnormal ha hb hd hsource hmissing htarget h
  | blocks hd hd' habove => exact hlevel ha hb hd hd' habove
  | @changes p c p' c' hd hd' hplace hne =>
    obtain ⟨order', hperm', hcontent'⟩ := exists_order hsound hb (hnormal b hb) hd'
    by_cases hmeet : p = p'
    · -- Each of the two can be the last one that is copied to the place.
      subst hmeet
      obtain ⟨order, hperm, hcontent⟩ := exists_order hsound ha (hnormal a ha) hd
      have hsame := (h order order' hperm hperm').2.content p
      rw [hcontent, hcontent'] at hsame
      exact hne (Option.some.inj hsame)
    · -- The second one can be the last one that is copied to its place, before and after the first.
      have hsource : p = placeOf b.source := hplace.resolve_left hmeet
      have hdistinct : b ≠ a := by
        rintro rfl
        exact hmeet (hd.unique hd').1
      have hmem : b ∈ assets.erase a := (List.mem_erase_of_ne hdistinct).2 hb
      obtain ⟨hspread, hcontent, hsound'⟩ := hd.copied hsound (hnormal a ha)
      have hfits : t.Fits {p, p'} := by
        constructor
        · rintro q (rfl | rfl)
          · exact hd.admits
          · exact hd'.admits
        · rintro q (rfl | rfl) q' (rfl | rfl)
          · exact FileTree.not_isAbove_self _
          · exact hlevel ha hb hd hd'
          · exact hlevel hb ha hd' hd
          · exact FileTree.not_isAbove_self _
      have hdnext : Delivers (copyAsset t t a).1 b p' c := by
        refine ⟨hd'.target, ⟨c, hsource ▸ hcontent, ?_⟩,
          hspread.admits hfits (Set.singleton_subset_iff.2 (.inl rfl)) (.inr rfl)⟩
        rw [FileTree.copied, if_neg (hsource ▸ hmeet)]
      obtain ⟨order, hperm, hlast⟩ := exists_order hsound' hmem (hnormal b hb) hdnext
      have hperm₁ : (a :: order).Perm assets :=
        (hperm.cons a).trans (List.perm_cons_erase ha).symm
      have hsame := (h (a :: order) order' hperm₁ hperm').2.content p'
      rw [copyInTurn_cons, hlast, hcontent'] at hsame
      exact hne (Option.some.inj hsame)

/-- The order of the copies does not matter exactly when no asset upsets another one. Then the assets
fare as each of them does alone, also when all of them are looked for before the first copy. -/
theorem orderless_iff_peaceful (hsound : t.Sound) (hnormal : ∀ a ∈ assets, a.source.IsNormal) :
    (Orderless t assets ↔ ∀ a ∈ assets, ∀ b ∈ assets, ¬ Upsets t a b) ∧
      (Orderless t assets →
        (copyInTurn t assets).2 = assets.map (fun a => (a, (copyAsset t t a).2)) ∧
        (copyAssets t t assets).2 = assets.map (AssetReport.alone t) ∧
        (copyInTurn t assets).1 = (copyAssets t t assets).1) := by
  refine ⟨⟨fun h => h.peaceful hsound hnormal, fun h => Peaceful.orderless h hsound hnormal⟩, ?_⟩
  intro h
  obtain ⟨houtcomes, -, hreports⟩ := (After.start t).copyInTurn_eq hsound
    (h.peaceful hsound hnormal) hnormal (fun a ha => absurd ha List.not_mem_nil) fun a ha => ha
  exact ⟨houtcomes, by rw [hreports], by rw [hreports]⟩

/-- Two pictures that are copied into another directory. -/
theorem orderless_iff_peaceful_pictures :
    let tree : FileTree := { files := [(["a.png"], .text "a"), (["b.png"], .text "b")] }
    let first : Asset := { source := ⟨"/a.png"⟩, target := some ⟨"/out/a.png"⟩, token := default }
    let second : Asset := { source := ⟨"/b.png"⟩, target := some ⟨"/out/b.png"⟩, token := default }
    Orderless tree [first, second] ∧ (copyInTurn tree [second, first]).1.content? ["out", "a.png"] =
      (copyInTurn tree [first, second]).1.content? ["out", "a.png"] := by
  intro tree first second
  have hsound : tree.Sound := FileTree.sound_of_flat rfl (by decide)
  have hnormal : ∀ a ∈ [first, second], a.source.IsNormal := by
    intro a ha
    rcases List.mem_pair.1 ha with rfl | rfl <;> exact ⟨by decide +kernel, by decide +kernel⟩
  have htarget : ∀ {a p c}, a ∈ [first, second] → Delivers tree a p c →
      p = ["out", "a.png"] ∧ a = first ∨ p = ["out", "b.png"] ∧ a = second := by
    intro a p c ha hd
    obtain ⟨u, hu, -, rfl⟩ := hd.target
    rcases List.mem_pair.1 ha with rfl | rfl
    · obtain rfl := Option.some.inj hu
      exact .inl ⟨by decide +kernel, rfl⟩
    · obtain rfl := Option.some.inj hu
      exact .inr ⟨by decide +kernel, rfl⟩
  have hsource : ∀ a ∈ [first, second], placeOf a.source = ["a.png"] ∨ placeOf a.source = ["b.png"] := by
    intro a ha
    rcases List.mem_pair.1 ha with rfl | rfl
    · exact .inl (by decide +kernel)
    · exact .inr (by decide +kernel)
  have hpeace : ∀ a ∈ [first, second], ∀ b ∈ [first, second], ¬ Upsets tree a b := by
    intro a ha b hb hupsets
    cases hupsets with
    | supplies hd hplace =>
      rw [← hplace] at hd
      rcases htarget ha hd with ⟨hp, -⟩ | ⟨hp, -⟩ <;> rcases hsource b hb with hq | hq <;>
        exact absurd (hp.symm.trans hq) (by decide)
    | blocks hd hd' habove =>
      rcases htarget ha hd with ⟨rfl, -⟩ | ⟨rfl, -⟩ <;> rcases htarget hb hd' with ⟨rfl, -⟩ | ⟨rfl, -⟩ <;>
        exact absurd habove.2 (by decide)
    | @changes p c p' c' hd hd' hplace hne =>
      rcases hplace with rfl | hplace
      · rcases htarget ha hd with ⟨hp, rfl⟩ | ⟨hp, rfl⟩ <;>
          rcases htarget hb hd' with ⟨hp', rfl⟩ | ⟨hp', rfl⟩
        · exact hne (hd.unique hd').2
        · exact absurd (hp.symm.trans hp') (by decide)
        · exact absurd (hp.symm.trans hp') (by decide)
        · exact hne (hd.unique hd').2
      · rcases htarget ha hd with ⟨hp, -⟩ | ⟨hp, -⟩ <;> rcases hsource b hb with hq | hq <;>
          exact absurd (hp.symm.trans (hplace.trans hq)) (by decide)
  have horderless := (orderless_iff_peaceful hsound hnormal).1.2 hpeace
  exact ⟨horderless, (horderless _ _ (.swap _ _ _) (.refl _)).2.content _⟩

/-- A picture in the output tree is found or missing, as its copy from the working root comes first or
last. -/
theorem exists_not_orderless : ¬ ∀ (plan : Relocation) (tree : FileTree) (assets : List Asset),
    plan.root.IsNormal → plan.dist.IsNormal → plan.layoutDir = none → tree.Sound →
    (∀ a ∈ assets, ∃ raw : Asset, raw.source.isAbsolute = true ∧ a = plan.place raw) →
    Orderless tree assets := by
  intro h
  let plan : Relocation := ⟨⟨"/"⟩, ⟨"/out"⟩, none, none⟩
  let tree : FileTree := { files := [(["p.txt"], .text "p")] }
  let first : Asset := plan.place { source := ⟨"/p.txt"⟩, token := default }
  let second : Asset := plan.place { source := ⟨"/out/p.txt"⟩, token := default }
  have hplaced : ∀ a ∈ [first, second], ∃ raw : Asset, raw.source.isAbsolute = true ∧
      a = plan.place raw := by
    intro a ha
    rcases List.mem_pair.1 ha with rfl | rfl
    · exact ⟨_, by decide +kernel, rfl⟩
    · exact ⟨_, by decide +kernel, rfl⟩
  have horderless := h plan tree [first, second] ⟨by decide +kernel, by decide +kernel⟩
    ⟨by decide +kernel, by decide +kernel⟩ rfl (FileTree.sound_of_flat rfl (by decide)) hplaced
  have hstatuses := (horderless _ _ (.swap first second []) (.refl _)).1.map Prod.snd
  have hmissing : (copyInTurn tree [second, first]).2.map Prod.snd = [.notFound, .ok] := by
    decide +kernel
  have hfound : (copyInTurn tree [first, second]).2.map Prod.snd = [.ok, .ok] := by decide +kernel
  rw [hmissing, hfound] at hstatuses
  exact absurd hstatuses (by decide)

end Bundle
end Bindery
