import Bindery.Proofs.Asset.Chains
import Bindery.Proofs.Asset.Descent

/-! Stores of one run. All that is registered passes through the registry of the first bundle, which
stands alone below the root. The registries of documents that are not taken up yet wait at the ends
of their chains, and hold nothing. -/

namespace Bindery.Store

/-- The registry `u` is the only one right below the root, and holds all that the root holds. -/
structure Funnels (s : Store) (u : RegistryId) (waiting : List RegistryId) : Prop where
  pos : 0 < u
  lt : u < s.registries.size
  master : ∀ r m, s.master? r = some m → (r ≠ u → u ≤ m) ∧ m ∉ waiting
  tokens : s.tokens 0 ⊆ s.tokens u
  waiting : ∀ r ∈ waiting, r < s.registries.size ∧ s.tokens r = []

namespace Funnels

variable {s s' : Store} {u r x : RegistryId} {waiting waiting' : List RegistryId}

theorem mono (h : s.Funnels u waiting) (hsub : waiting' ⊆ waiting) : s.Funnels u waiting' where
  pos := h.pos
  lt := h.lt
  master r m hm := ⟨(h.master r m hm).1, fun hmem => (h.master r m hm).2 (hsub hmem)⟩
  tokens := h.tokens
  waiting r hr := h.waiting r (hsub hr)

theorem mem_chainFrom (h : s.Funnels u waiting) (hs : s.Descends) {steps : Nat} (hpos : 0 < r)
    (hr : r < s.registries.size) (hsteps : r < steps) : u ∈ s.chainFrom steps r := by
  induction steps generalizing r with
  | zero => exact absurd hsteps (Nat.not_lt_zero r)
  | succ steps ih =>
    rw [chainFrom]
    by_cases hru : r = u
    · exact hru ▸ List.mem_cons_self
    · obtain ⟨m, hm, hmaster⟩ := hs.master r hpos hr
      have hle := (h.master r m hmaster).1 hru
      rw [hmaster]
      exact List.mem_cons_of_mem _ (ih (Nat.lt_of_lt_of_le h.pos hle) (Nat.lt_trans hm hr)
        (Nat.lt_of_lt_of_le hm (Nat.le_of_lt_succ hsteps)))

theorem mem_chain (h : s.Funnels u waiting) (hs : s.Descends) (hpos : 0 < r)
    (hr : r < s.registries.size) : u ∈ s.chain r :=
  h.mem_chainFrom hs hpos hr hr

/-- A registry that waits stands above no other. -/
theorem notMem_chain (h : s.Funnels u waiting) (hx : x ∈ waiting) (hr : r ∉ waiting) :
    x ∉ s.chain r := by
  unfold chain
  generalize s.registries.size = steps
  induction steps generalizing r with
  | zero => exact List.not_mem_nil
  | succ steps ih =>
    rw [chainFrom]
    intro hmem
    rcases List.mem_cons.1 hmem with rfl | hmem
    · exact hr hx
    · cases hm : s.master? r with
      | none => simp [hm] at hmem
      | some m =>
        rw [hm] at hmem
        exact ih (h.master r m hm).2 hmem

theorem of_registries (h : s.Funnels u waiting) (hsame : s'.registries = s.registries) :
    s'.Funnels u waiting := by
  have htokens : ∀ r, s'.tokens r = s.tokens r := fun r =>
    congrArg (List.map Prod.fst) (snapshot_of_registries hsame r)
  refine ⟨h.pos, hsame ▸ h.lt, fun r m hm => h.master r m ?_, ?_, fun r hr => ?_⟩
  · rwa [master?_of_registries hsame] at hm
  · rw [htokens, htokens]
    exact h.tokens
  · rw [htokens, hsame]
    exact h.waiting r hr

theorem insert (h : s.Funnels u waiting) (hu : u ∈ s.chain r) (hroot : 0 ∈ s.chain r)
    (hr : r ∉ waiting) (t : Token) (c : CellId) : (s.insert r t c).Funnels u waiting := by
  have hmem : t ∈ (s.insert r t c).tokens u := mem_tokens_insert hu h.lt
  refine ⟨h.pos, by simpa using h.lt, fun x m hm => h.master x m (by simpa using hm), fun x hx => ?_,
    fun x hx => ?_⟩
  · rw [tokens_insert_of_mem hroot (Nat.lt_trans h.pos h.lt)] at hx
    split at hx
    · exact tokens_subset_insert t c (h.tokens hx)
    · rcases List.mem_append.1 hx with hx | hx
      · exact tokens_subset_insert t c (h.tokens hx)
      · exact List.mem_singleton.1 hx ▸ hmem
  · rw [tokens_insert_of_notMem (h.notMem_chain hx hr)]
    simpa using h.waiting x hx

theorem registerAll (h : s.Funnels u waiting) (hs : s.Descends) (hpos : 0 < r)
    (hr : r < s.registries.size) (hidle : r ∉ waiting) (origins : List String) :
    (s.registerAll r origins).Funnels u waiting := by
  induction origins generalizing s with
  | nil => exact h
  | cons origin origins ih =>
    obtain ⟨hdescends, -, hsize⟩ := hs.register hr origin none
    obtain ⟨s₀, c, heq, hregistries, -⟩ := hs.register_eq hr origin none
    have hinsert : (s₀.insert r (.ofOrigin origin) c).Funnels u waiting := by
      refine (h.of_registries hregistries).insert ?_ ?_ hidle _ c
      · rw [chain_of_registries hregistries]
        exact h.mem_chain hs hpos hr
      · rw [chain_of_registries hregistries]
        exact hs.zero_mem_chain hr
    refine ih ?_ hdescends (hsize ▸ hr)
    rw [← heq] at hinsert
    exact hinsert

/-- The masters of new registries are `u` or lie below it. -/
theorem widen (h : s.Funnels u waiting) (hsize : s.registries.size ≤ s'.registries.size)
    (hsnapshot : ∀ r, s'.snapshot r = s.snapshot r)
    (hmaster : ∀ r m, s'.master? r = some m → s.master? r = some m ∨ u ≤ m ∧ m ∉ waiting) :
    s'.Funnels u waiting := by
  have htokens : ∀ r, s'.tokens r = s.tokens r := fun r => congrArg (List.map Prod.fst) (hsnapshot r)
  refine ⟨h.pos, Nat.lt_of_lt_of_le h.lt hsize, fun r m hm => ?_, ?_, fun r hr => ?_⟩
  · rcases hmaster r m hm with hold | ⟨hle, hidle⟩
    · exact h.master r m hold
    · exact ⟨fun _ => hle, hidle⟩
  · rw [htokens, htokens]
    exact h.tokens
  · rw [htokens]
    exact ⟨Nat.lt_of_lt_of_le (h.waiting r hr).1 hsize, (h.waiting r hr).2⟩

end Funnels
end Bindery.Store
