import Bindery.Proofs.Asset.Mirror

/-! What the root of a used store holds once a page is relocated with it: the assets that the root of
the young store holds, each with the same way to go, and beside them what was there before. -/

namespace Bindery

/-- Where an asset is read from and where it goes. -/
def Asset.aim (a : Asset) : Path × Option Path := (a.source, a.target)

namespace Store

variable {s : Store} {r : RegistryId} {t : Token} {a : Asset}

theorem assetsOf_eq (h : s.Descends) (r : RegistryId) :
    s.assetsOf r = (s.tokens r).filterMap (s.entryAt? 0) := by
  unfold assetsOf tokens
  rw [List.filterMap_map]
  refine List.filterMap_congr fun slot hslot => ?_
  exact (entryAt?_of_slot h hslot).symm

theorem mem_assetsOf_of_entryAt? (h : s.entryAt? r t = some a) : a ∈ s.assetsOf r := by
  obtain ⟨c, hc, ha⟩ := Option.bind_eq_some_iff.1 h
  rw [cellAt?_eq_lookup] at hc
  exact List.mem_filterMap.2 ⟨(t, c), mem_of_lookup hc, ha⟩

/-- The assets of a registry that are no pages. -/
def loose (s : Store) (r : RegistryId) : List Asset := (s.assetsOf r).filter (!·.isMarked)

theorem mem_loose : a ∈ s.loose r ↔ a ∈ s.assetsOf r ∧ a.isMarked = false := by
  unfold loose
  rw [List.mem_filter, Bool.not_eq_true']

theorem Each.exists_of_loose {K : Token → Asset → Prop} (h : s.Each K) (ha : a ∈ s.loose 0) :
    ∃ t, K t a := by
  obtain ⟨⟨t, c⟩, hslot, hc⟩ := List.mem_filterMap.1 (mem_loose.1 ha).1
  obtain ⟨b, hb, hK⟩ := h _ hslot
  exact ⟨t, Option.some.inj (hb.symm.trans hc) ▸ hK⟩

/-- What is read from the same place goes to the same place. -/
def SameWays (u v : Store) : Prop :=
  ∀ t ∈ u.tokens 0, ∃ a a', u.entryAt? 0 t = some a ∧ v.entryAt? 0 t = some a' ∧ a'.aim = a.aim ∧
    a'.isMarked = a.isMarked

theorem aims_filterMap {l : List Token} {f g : Token → Option Asset}
    (h : ∀ t ∈ l, ∃ a a', f t = some a ∧ g t = some a' ∧ a'.aim = a.aim ∧ a'.isMarked = a.isMarked) :
    ((l.filterMap g).filter (!·.isMarked)).map Asset.aim =
      ((l.filterMap f).filter (!·.isMarked)).map Asset.aim := by
  induction l with
  | nil => rfl
  | cons t l ih =>
    obtain ⟨a, a', ha, ha', haim, hmarked⟩ := h t List.mem_cons_self
    rw [List.filterMap_cons_some ha, List.filterMap_cons_some ha', List.filter_cons, List.filter_cons,
      hmarked]
    have hrest := ih fun t ht => h t (List.mem_cons_of_mem _ ht)
    split
    · rw [List.map_cons, List.map_cons, haim, hrest]
    · exact hrest

namespace Mirrors

variable {number : RegistryId → RegistryId} {base u v : Store}

theorem tokens_perm (h : Mirrors number base u v) :
    (v.tokens 0).Perm (u.tokens 0 ++ (v.tokens 0).filter (· ∉ u.tokens 0)) := by
  have hnodup := h.descends.sound.nodup_tokens 0
  have hold : ((v.tokens 0).filter (· ∈ u.tokens 0)).Perm (u.tokens 0) := by
    rw [List.perm_ext_iff_of_nodup (hnodup.filter _) (h.young.descends.sound.nodup_tokens 0)]
    intro t
    rw [List.mem_filter, decide_eq_true_eq]
    exact ⟨And.right, fun ht => ⟨(h.known t).2 (.inr ht), ht⟩⟩
  have hsplit := List.filter_append_perm (fun t => decide (t ∈ u.tokens 0)) (v.tokens 0)
  simp only [← decide_not] at hsplit
  exact hsplit.symm.trans (hold.append_right _)

/-- The used root holds what the young one does, and what it held before. -/
theorem loose_perm (h : Mirrors number base u v) (hways : u.SameWays v) : ∃ again earlier,
    (v.loose 0).Perm (again ++ earlier) ∧ again.map Asset.aim = (u.loose 0).map Asset.aim ∧
      ∀ e ∈ earlier, e ∈ base.loose 0 := by
  refine ⟨((u.tokens 0).filterMap (v.entryAt? 0)).filter (!·.isMarked),
    (((v.tokens 0).filter (· ∉ u.tokens 0)).filterMap (v.entryAt? 0)).filter (!·.isMarked), ?_, ?_,
    fun e he => ?_⟩
  · have hperm := (h.tokens_perm.filterMap (v.entryAt? 0)).filter (!·.isMarked)
    rwa [List.filterMap_append, List.filter_append, ← assetsOf_eq h.descends] at hperm
  · unfold loose
    rw [assetsOf_eq h.young.descends]
    exact aims_filterMap hways
  · obtain ⟨he, hunmarked⟩ := List.mem_filter.1 he
    obtain ⟨t, ht, hentry⟩ := List.mem_filterMap.1 he
    have hnew : t ∉ u.tokens 0 := of_decide_eq_true (List.mem_filter.1 ht).2
    rw [h.rest t hnew] at hentry
    exact mem_loose.2 ⟨mem_assetsOf_of_entryAt? hentry, by simpa using hunmarked⟩

/-- Relocation puts every asset of the page where it goes, in both stores. -/
theorem sameWays_run (h : Mirrors number base u v) {r : RegistryId} (hpos : 0 < r)
    (hall : u.tokens 0 ⊆ u.tokens r) (hu : u.Each fun _ a => a.source.IsNormal)
    (hv : v.Each fun _ a => a.source.IsNormal) (plan : Relocation) (html : String) :
    (plan.run html u r).store.SameWays (plan.run html v (number r)).store := by
  have hrun := (Relocation.mirrors_run h plan html hpos).store
  have htokens : (plan.run html u r).store.tokens 0 = u.tokens 0 :=
    congrArg (List.map Prod.fst) (snapshot_of_registries Relocation.registries_run 0)
  intro t ht
  obtain ⟨a, a', ha, ha', hakin⟩ := hrun.akin t ht
  refine ⟨a, a', ha, ha', ?_, hakin.isMarked⟩
  rw [htokens] at ht
  have htoken := hall ht
  have htoken' : t ∈ v.tokens (number r) := h.tokens r hpos ▸ htoken
  obtain ⟨slot, hslot, rfl⟩ := List.mem_map.1 htoken
  obtain ⟨slot', hslot', heq⟩ := List.mem_map.1 htoken'
  obtain ⟨t, c⟩ := slot
  obtain ⟨t', c'⟩ := slot'
  obtain rfl : t' = t := heq
  obtain ⟨b, hb, -, hplaced⟩ : ∃ b, (plan.run html u r).store.asset? c = some b ∧
      b.source.IsNormal ∧ plan.place b = b := Relocation.placed_run h.young.descends hu hslot
  obtain ⟨b', hb', -, hplaced'⟩ : ∃ b, (plan.run html v (number r)).store.asset? c' = some b ∧
      b.source.IsNormal ∧ plan.place b = b := Relocation.placed_run h.descends hv hslot'
  rw [entryAt?_of_slot hrun.young.descends (Relocation.extends_run.slots r _ hslot)] at ha
  rw [entryAt?_of_slot hrun.descends (Relocation.extends_run.slots (number r) _ hslot')] at ha'
  obtain rfl : b = a := Option.some.inj (hb.symm.trans ha)
  obtain rfl : b' = a' := Option.some.inj (hb'.symm.trans ha')
  have htarget := (plan.target_place_akin hakin).1
  rw [hplaced, hplaced'] at htarget
  exact Prod.ext hakin.source htarget

end Mirrors
end Store
end Bindery
