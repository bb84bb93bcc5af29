import Bindery.Proofs.Spread
import Bindery.Project.Bundle

/-! Copying the assets of a page. What becomes of an asset is told by the tree before the copies, and
the order of the assets does not matter, as long as no copy lies in the way of another one. -/

namespace Bindery

open FileTree (placeOf IsAbove)

/-- No asset that is found goes above the place of another one. -/
def Clear (before : FileTree) (assets : List Asset) : Prop :=
  ∀ a ∈ assets, before.isFile a.source = true → ∀ b ∈ assets, before.isFile b.source = true →
    ∀ t ∈ a.target, ∀ u ∈ b.target, ¬ IsAbove (placeOf t) (placeOf u)

/-- What becomes of an asset that is copied alone. -/
def AssetReport.alone (before : FileTree) (a : Asset) : AssetReport :=
  ⟨a.source, a.target, (Bundle.copyAsset before before a).2⟩

/-- The places of the assets that were copied. -/
def AssetReport.places (reports : List AssetReport) : Set Place :=
  {q | ∃ r ∈ reports, r.status = .ok ∧ ∃ t ∈ r.target, q = placeOf t}

/-- The same files go to the same places. -/
def SameAims (assets assets' : List Asset) : Prop :=
  ∀ source target, (∃ a ∈ assets, a.source = source ∧ a.target = target) ↔
    ∃ a ∈ assets', a.source = source ∧ a.target = target

variable {before before' tree tree' : FileTree} {a : Asset} {assets assets' : List Asset}
  {places : Set Place}

theorem Clear.of_sameAims (h : Clear before assets)
    (hfile : ∀ a ∈ assets, before'.isFile a.source = before.isFile a.source)
    (haims : SameAims assets assets') : Clear before' assets' := by
  have hback : ∀ a' ∈ assets', before'.isFile a'.source = true →
      ∃ a ∈ assets, before.isFile a.source = true ∧ a.target = a'.target := by
    intro a' ha' hfound
    obtain ⟨a, ha, hsource, htarget⟩ := (haims a'.source a'.target).2 ⟨a', ha', rfl, rfl⟩
    refine ⟨a, ha, ?_, htarget⟩
    rw [← hfile a ha, hsource]
    exact hfound
  intro a' ha' hfound b' hb' hfound' t ht u hu
  obtain ⟨a, ha, hin, htarget⟩ := hback a' ha' hfound
  obtain ⟨b, hb, hin', htarget'⟩ := hback b' hb' hfound'
  exact h a ha hin b hb hin' t (htarget ▸ ht) u (htarget' ▸ hu)

namespace Bundle

/-- A file is copied by writing what it holds. -/
theorem copy_eq_write {source t : Path} (h : tree.isFile source = true) :
    ∃ c, tree.copy source t = tree.write t c := by
  unfold FileTree.isFile at h
  unfold FileTree.copy
  cases hlocate : tree.locate source with
  | error e => simp [hlocate] at h
  | ok place =>
    rw [hlocate] at h
    obtain ⟨c, hc⟩ := Option.isSome_iff_exists.1 h
    exact ⟨FileTree.copied place (placeOf t) c, by simp [hc, bind, Except.bind]⟩

/-- Two trees do alike with an asset when they have the same files and directories on its way. -/
theorem status_copyAsset (hfile : before'.isFile a.source = before.isFile a.source)
    (hfound : before.isFile a.source = true → tree.isFile a.source = true ∧
      tree'.isFile a.source = true)
    (hsame : before.isFile a.source = true → ∀ t ∈ a.target,
      (∀ q, IsAbove q (placeOf t) → tree'.hasFile q = tree.hasFile q) ∧
      tree'.hasDirectory (placeOf t) = tree.hasDirectory (placeOf t)) :
    (copyAsset before' tree' a).2 = (copyAsset before tree a).2 := by
  unfold copyAsset
  cases htarget : a.target with
  | none => rfl
  | some t =>
    dsimp only
    rw [hfile]
    cases hbefore : before.isFile a.source with
    | false => rfl
    | true =>
      simp only [Bool.not_true, Bool.false_eq_true, if_false]
      split
      · rfl
      · obtain ⟨habove, hdir⟩ := hsame hbefore t htarget
        obtain ⟨c, hc⟩ := copy_eq_write (t := t) (hfound hbefore).1
        obtain ⟨c', hc'⟩ := copy_eq_write (t := t) (hfound hbefore).2
        rw [hc, hc']
        cases hwrite : tree.write t c with
        | error e => rw [FileTree.write_error_congr habove hdir hwrite]
        | ok after =>
          have hadmits := FileTree.write_ok.1 ⟨after, hwrite⟩
          have hadmits' : tree'.Admits (placeOf t) :=
            ⟨fun q hq => (habove q hq).trans (hadmits.above q hq), hdir.trans hadmits.place⟩
          obtain ⟨after', hafter'⟩ := FileTree.write_ok.2 hadmits'
          rw [hafter']

/-- An asset is left out, it is in place already, or it is written to its place. -/
theorem copyAsset_cases (hfound : before.isFile a.source = true → tree.isFile a.source = true) :
    (∃ status, status ≠ .ok ∧ copyAsset before tree a = (tree, status)) ∨
      ∃ t after, a.target = some t ∧ before.isFile a.source = true ∧
        copyAsset before tree a = (after, .ok) ∧
        (a.source = t ∧ after = tree ∨ ∃ c, tree.write t c = .ok after) := by
  unfold copyAsset
  cases htarget : a.target with
  | none => exact .inl ⟨.outside, nofun, rfl⟩
  | some t =>
    dsimp only
    cases hbefore : before.isFile a.source with
    | false => exact .inl ⟨.notFound, nofun, rfl⟩
    | true =>
      simp only [Bool.not_true, Bool.false_eq_true, if_false]
      split
      · next heq => exact .inr ⟨t, tree, rfl, trivial, rfl, .inl ⟨heq, rfl⟩⟩
      · obtain ⟨c, hc⟩ := copy_eq_write (t := t) (hfound hbefore)
        rw [hc]
        cases hwrite : tree.write t c with
        | error e => exact .inl ⟨.failed e, nofun, rfl⟩
        | ok after => exact .inr ⟨t, after, rfl, trivial, rfl, .inr ⟨c, hwrite⟩⟩

/-- Copying an asset changes no file but the one at its place, and that one only when it is copied. -/
theorem exists_of_content_copyAsset {q : Place}
    (h : (copyAsset before tree a).1.content? q ≠ tree.content? q) :
    ∃ t, a.target = some t ∧ a.source ≠ t ∧ before.isFile a.source = true ∧
      (copyAsset before tree a).2 = .ok ∧ q = placeOf t := by
  unfold copyAsset at h ⊢
  cases htarget : a.target with
  | none =>
    rw [htarget] at h
    exact absurd rfl h
  | some t =>
    rw [htarget] at h
    dsimp only at h ⊢
    cases hfile : before.isFile a.source with
    | false =>
      rw [hfile] at h
      exact absurd rfl h
    | true =>
      simp only [hfile, Bool.not_true, Bool.false_eq_true, if_false] at h ⊢
      by_cases hsource : a.source = t
      · rw [if_pos hsource] at h
        exact absurd rfl h
      · rw [if_neg hsource] at h ⊢
        cases hcopy : tree.copy a.source t with
        | error e =>
          rw [hcopy] at h
          exact absurd rfl h
        | ok after =>
          rw [hcopy] at h
          obtain ⟨c, hwrite⟩ := FileTree.exists_write_of_copy hcopy
          refine ⟨t, rfl, hsource, trivial, rfl, ?_⟩
          by_contra hq
          exact h (((FileTree.write_spec hwrite).1 q).trans (if_neg hq))

theorem content_copyAsset {q : Place} (h : ∀ t ∈ a.target, q ≠ placeOf t) :
    (copyAsset before tree a).1.content? q = tree.content? q := by
  by_contra hne
  obtain ⟨t, ht, -, -, -, hq⟩ := exists_of_content_copyAsset hne
  exact h t ht hq

/-- An asset that is copied adds its place, and no other one. -/
theorem spread_copyAsset (h : before.Spread places tree) (hsound : before.Sound)
    (ha : a.source.IsNormal) :
    before.Spread (places ∪ AssetReport.places [⟨a.source, a.target, (copyAsset before tree a).2⟩])
      (copyAsset before tree a).1 := by
  rcases copyAsset_cases fun hfile => FileTree.isFile_of_grows h.grows hfile with
    ⟨status, hne, heq⟩ | ⟨t, after, htarget, hfile, heq, hafter⟩
  · have hnone : AssetReport.places [⟨a.source, a.target, status⟩] = ∅ := by
      ext q
      simp [AssetReport.places, hne]
    rw [heq, hnone, Set.union_empty]
    exact h
  · have hone : places ∪ AssetReport.places [⟨a.source, a.target, .ok⟩] =
        insert (placeOf t) places := by
      ext q
      simp [AssetReport.places, htarget, or_comm]
    rw [heq, hone]
    rcases hafter with ⟨rfl, rfl⟩ | ⟨c, hwrite⟩
    · exact h.insert_of_hasFile hsound ((FileTree.isFile_iff hsound ha).1 hfile)
    · exact h.write hwrite

/-- On a tree with some of the copies, an asset fares as it does alone. -/
theorem alone_of_spread (h : before.Spread places tree)
    (hclear : before.isFile a.source = true → ∀ t ∈ a.target, ∀ q ∈ places,
      ¬ IsAbove q (placeOf t) ∧ ¬ IsAbove (placeOf t) q) :
    (copyAsset before tree a).2 = (copyAsset before before a).2 := by
  refine status_copyAsset rfl (fun hfile => ⟨hfile, FileTree.isFile_of_grows h.grows hfile⟩)
    fun hfile t ht => ⟨fun q hq => ?_, ?_⟩
  · rw [Bool.eq_iff_iff, h.file]
    exact ⟨fun hor => hor.resolve_right fun hmem => (hclear hfile t ht q hmem).1 hq, .inl⟩
  · rw [Bool.eq_iff_iff, h.directory]
    refine ⟨fun hor => hor.elim id ?_, .inl⟩
    rintro ⟨q, hq, hprefix⟩
    by_cases hnil : placeOf t = []
    · rw [hnil]
      rfl
    · exact absurd ⟨hnil, hprefix⟩ (hclear hfile t ht q hq).2

/-- What becomes of each asset is what becomes of it alone, and the copies lie at their places. -/
theorem copyAssets_of_clear (hsound : before.Sound) (h : before.Spread places tree)
    (hnormal : ∀ a ∈ assets, a.source.IsNormal) (hclear : Clear before assets)
    (hplaces : ∀ a ∈ assets, before.isFile a.source = true → ∀ t ∈ a.target, ∀ q ∈ places,
      ¬ IsAbove q (placeOf t) ∧ ¬ IsAbove (placeOf t) q) :
    (copyAssets before tree assets).2 = assets.map (AssetReport.alone before) ∧
      before.Spread (places ∪ AssetReport.places (assets.map (AssetReport.alone before)))
        (copyAssets before tree assets).1 := by
  induction assets generalizing tree places with
  | nil =>
    refine ⟨rfl, ?_⟩
    have hnone : AssetReport.places (([] : List Asset).map (AssetReport.alone before)) = ∅ := by
      ext q
      simp [AssetReport.places]
    rw [hnone, Set.union_empty]
    exact h
  | cons a assets ih =>
    have halone := alone_of_spread h (hplaces a List.mem_cons_self)
    have hspread := spread_copyAsset h hsound (hnormal a List.mem_cons_self)
    rw [halone] at hspread
    have hrest := ih hspread (fun b hb => hnormal b (List.mem_cons_of_mem _ hb))
      (fun b hb hb' c hc => hclear b (List.mem_cons_of_mem _ hb) hb' c (List.mem_cons_of_mem _ hc))
      fun b hb hfile t ht q hq => ?_
    · refine ⟨?_, ?_⟩
      · show AssetReport.mk a.source a.target (copyAsset before tree a).2 ::
          (copyAssets before (copyAsset before tree a).1 assets).2 = _
        rw [hrest.1, halone]
        rfl
      · have hsplit : AssetReport.places ((a :: assets).map (AssetReport.alone before)) =
            AssetReport.places [AssetReport.alone before a] ∪
              AssetReport.places (assets.map (AssetReport.alone before)) := by
          ext q
          simp only [AssetReport.places, List.map_cons, List.mem_cons, List.not_mem_nil, or_false,
            Set.mem_union, Set.mem_ofPred_eq, or_and_right, exists_or]
        rw [hsplit, ← Set.union_assoc]
        exact hrest.2
    · rcases hq with hq | ⟨r, hr, hok, u, hu, rfl⟩
      · exact hplaces b (List.mem_cons_of_mem _ hb) hfile t ht q hq
      · obtain rfl := List.mem_singleton.1 hr
        have hfound : before.isFile a.source = true := by
          have hsame : before.isFile a.source = true → before.isFile a.source = true := id
          rcases copyAsset_cases hsame with ⟨status, hne, heq⟩ | ⟨-, -, -, hfile, -⟩
          · exact absurd ((congrArg Prod.snd heq).symm.trans hok) hne
          · exact hfile
        have hmem := List.mem_cons_of_mem a hb
        exact ⟨hclear a List.mem_cons_self hfound b hmem hfile u hu t ht,
          hclear b hmem hfile a List.mem_cons_self hfound t ht u hu⟩

theorem copyAssets_cons (before tree : FileTree) (a : Asset) (rest : List Asset) :
    copyAssets before tree (a :: rest) =
      ((copyAssets before (copyAsset before tree a).1 rest).1,
        ⟨a.source, a.target, (copyAsset before tree a).2⟩ ::
          (copyAssets before (copyAsset before tree a).1 rest).2) := rfl

/-- A file that is not what it was after copying assets is the copy of one of them. -/
theorem exists_of_content_copyAssets {q : Place}
    (h : (copyAssets before tree assets).1.content? q ≠ tree.content? q) :
    ∃ a ∈ assets, ∃ t, a.target = some t ∧ a.source ≠ t ∧ before.isFile a.source = true ∧
      ⟨a.source, some t, .ok⟩ ∈ (copyAssets before tree assets).2 ∧ q = placeOf t := by
  induction assets generalizing tree with
  | nil => exact absurd rfl h
  | cons a assets ih =>
    rw [copyAssets_cons] at h ⊢
    by_cases hhead : (copyAsset before tree a).1.content? q = tree.content? q
    · obtain ⟨b, hb, t, ht, hne, hfile, hreport, hq⟩ := ih (hhead ▸ h)
      exact ⟨b, List.mem_cons_of_mem _ hb, t, ht, hne, hfile, List.mem_cons_of_mem _ hreport, hq⟩
    · obtain ⟨t, ht, hne, hfile, hstatus, hq⟩ := exists_of_content_copyAsset hhead
      refine ⟨a, List.mem_cons_self, t, ht, hne, hfile, ?_, hq⟩
      rw [ht, hstatus]
      exact List.mem_cons_self

/-- The reports name the files and their places, whatever becomes of them. -/
theorem aims_of_reports (before tree : FileTree) (assets : List Asset) (source : Path)
    (target : Option Path) :
    (∃ r ∈ (copyAssets before tree assets).2, r.source = source ∧ r.target = target) ↔
      ∃ a ∈ assets, a.source = source ∧ a.target = target := by
  induction assets generalizing tree with
  | nil => simp [copyAssets]
  | cons a assets ih =>
    rw [copyAssets_cons]
    simp only [List.mem_cons, exists_eq_or_imp, ih]

theorem mem_map_alone {r : AssetReport}
    (hfiles : ∀ q, before'.hasFile q = before.hasFile q)
    (hdirectories : ∀ q, before'.hasDirectory q = before.hasDirectory q) (hsound : before.Sound)
    (hsound' : before'.Sound) (hnormal : ∀ a ∈ assets, a.source.IsNormal)
    (haims : SameAims assets assets') (hr : r ∈ assets.map (AssetReport.alone before)) :
    r ∈ assets'.map (AssetReport.alone before') := by
  obtain ⟨a, ha, rfl⟩ := List.mem_map.1 hr
  obtain ⟨a', ha', hsource, htarget⟩ := (haims a.source a.target).1 ⟨a, ha, rfl, rfl⟩
  refine List.mem_map.2 ⟨a', ha', ?_⟩
  have hfile : before'.isFile a.source = before.isFile a.source := by
    rw [Bool.eq_iff_iff, FileTree.isFile_iff hsound' (hnormal a ha),
      FileTree.isFile_iff hsound (hnormal a ha), hfiles]
  have hstatus : (copyAsset before' before' a).2 = (copyAsset before before a).2 :=
    status_copyAsset hfile (fun h => ⟨h, hfile.trans h⟩) fun _ t _ =>
      ⟨fun q _ => hfiles q, hdirectories (placeOf t)⟩
  have hsame : copyAsset before' before' a' = copyAsset before' before' a := by
    unfold copyAsset
    rw [hsource, htarget]
  unfold AssetReport.alone
  rw [hsource, htarget, hsame, hstatus]

/-- Copied in another order, onto a tree with the same files, the assets fare alike, and the files
come to lie in the same places. -/
theorem copyAssets_reordered (hfiles : ∀ q, before'.hasFile q = before.hasFile q)
    (hdirectories : ∀ q, before'.hasDirectory q = before.hasDirectory q) (hsound : before.Sound)
    (hsound' : before'.Sound) (hnormal : ∀ a ∈ assets, a.source.IsNormal)
    (hnormal' : ∀ a ∈ assets', a.source.IsNormal) (haims : SameAims assets assets')
    (hclear : Clear before assets) :
    (∀ r, r ∈ (copyAssets before' before' assets').2 ↔ r ∈ (copyAssets before before assets).2) ∧
      ∀ q, (copyAssets before' before' assets').1.hasFile q =
        (copyAssets before before assets).1.hasFile q := by
  have hfile : ∀ a ∈ assets, before'.isFile a.source = before.isFile a.source := by
    intro a ha
    rw [Bool.eq_iff_iff, FileTree.isFile_iff hsound' (hnormal a ha),
      FileTree.isFile_iff hsound (hnormal a ha), hfiles]
  have hclear' := hclear.of_sameAims hfile haims
  obtain ⟨hreports, hspread⟩ := copyAssets_of_clear hsound (.refl before) hnormal hclear
    fun _ _ _ _ _ _ hq => hq.elim
  obtain ⟨hreports', hspread'⟩ := copyAssets_of_clear hsound' (.refl before') hnormal' hclear'
    fun _ _ _ _ _ _ hq => hq.elim
  have hmem : ∀ r, r ∈ assets'.map (AssetReport.alone before') ↔
      r ∈ assets.map (AssetReport.alone before) := fun r =>
    ⟨mem_map_alone (fun q => (hfiles q).symm) (fun q => (hdirectories q).symm) hsound' hsound
      hnormal' fun source target => (haims source target).symm,
      mem_map_alone hfiles hdirectories hsound hsound' hnormal haims⟩
  refine ⟨fun r => by rw [hreports, hreports', hmem], fun q => ?_⟩
  rw [Bool.eq_iff_iff, hspread'.file, hspread.file, hfiles]
  simp only [AssetReport.places, hmem]

end Bundle
end Bindery
