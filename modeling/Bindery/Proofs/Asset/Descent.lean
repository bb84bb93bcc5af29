import Bindery.Proofs.Asset.Reachable
import Bindery.Proofs.Rendering.References

/-! Stores in which every registry descends from the first one. The first registry knows all that
any of them knows, so a registration finds what was registered anywhere before. -/

namespace Bindery

section Slots

variable {t : Token} {c : CellId} {slots : List (Token × CellId)}

theorem self_mem_putSlot : (t, c) ∈ putSlot t c slots := by
  induction slots with
  | nil => exact List.mem_singleton.2 rfl
  | cons slot slots ih =>
    obtain ⟨u, d⟩ := slot
    rw [putSlot]
    split
    · exact List.mem_cons_self
    · exact List.mem_cons_of_mem _ ih

/-- A slot stays when its token is put with the same cell. -/
theorem mem_putSlot_of_mem (hsame : ∀ d, (t, d) ∈ slots → d = c) {slot : Token × CellId}
    (h : slot ∈ slots) : slot ∈ putSlot t c slots := by
  induction slots with
  | nil => exact absurd h List.not_mem_nil
  | cons first slots ih =>
    obtain ⟨u, d⟩ := first
    rw [putSlot]
    split
    · next hu =>
      subst u
      rw [hsame d List.mem_cons_self] at h
      exact h
    · rcases List.mem_cons.1 h with rfl | h
      · exact List.mem_cons_self
      · exact List.mem_cons_of_mem _ (ih (fun d hd => hsame d (List.mem_cons_of_mem _ hd)) h)

end Slots

namespace Store

/-- Every registry but the first has a master made before it, and the first one holds all. -/
structure Descends (s : Store) : Prop where
  sound : s.Sound
  pos : 0 < s.registries.size
  root : s.master? 0 = none
  master : ∀ r, 0 < r → r < s.registries.size → ∃ m, m < r ∧ s.master? r = some m
  inRoot : ∀ r, ∀ slot ∈ s.snapshot r, slot ∈ s.snapshot 0

theorem descends_newRoot : (newRoot {}).1.Descends where
  sound := (Reachable.empty.act .newRoot rfl).sound
  pos := Nat.one_pos
  root := rfl
  master r hpos hlt := by
    have hsize : (newRoot {}).1.registries.size = 1 := rfl
    omega
  inRoot r slot hslot := by
    cases r with
    | zero => exact hslot
    | succ r => simp [snapshot, registry?, newRoot] at hslot

/-- What a registry holds is kept from one store to a later one. -/
structure Extends (s s' : Store) : Prop where
  size : s.registries.size ≤ s'.registries.size
  slots : ∀ r, ∀ slot ∈ s.snapshot r, slot ∈ s'.snapshot r

theorem Extends.refl (s : Store) : s.Extends s := ⟨Nat.le_refl _, fun _ _ h => h⟩

theorem Extends.trans {s₁ s₂ s₃ : Store} (h : s₁.Extends s₂) (h' : s₂.Extends s₃) :
    s₁.Extends s₃ :=
  ⟨Nat.le_trans h.size h'.size, fun r slot hslot => h'.slots r slot (h.slots r slot hslot)⟩

variable {s : Store} {r : RegistryId} {t : Token} {c : CellId}

section Chain

theorem Descends.zero_mem_chainFrom (h : s.Descends) {steps : Nat} (hr : r < s.registries.size)
    (hsteps : r < steps) : 0 ∈ s.chainFrom steps r := by
  induction steps generalizing r with
  | zero => exact absurd hsteps (Nat.not_lt_zero r)
  | succ steps ih =>
    rw [chainFrom]
    rcases Nat.eq_zero_or_pos r with rfl | hpos
    · exact List.mem_cons_self
    · obtain ⟨m, hm, hmaster⟩ := h.master r hpos hr
      rw [hmaster]
      exact List.mem_cons_of_mem _
        (ih (Nat.lt_trans hm hr) (Nat.lt_of_lt_of_le hm (Nat.le_of_lt_succ hsteps)))

theorem Descends.zero_mem_chain (h : s.Descends) (hr : r < s.registries.size) : 0 ∈ s.chain r :=
  h.zero_mem_chainFrom hr hr

theorem Descends.rootOf_eq (h : s.Descends) (hr : r < s.registries.size) : s.rootOf r = 0 := by
  have hlast : ∀ steps r, r < s.registries.size → r < steps →
      (s.chainFrom steps r).getLast? = some 0 := by
    intro steps
    induction steps with
    | zero => exact fun r _ hsteps => absurd hsteps (Nat.not_lt_zero r)
    | succ steps ih =>
      intro r hr hsteps
      rw [chainFrom]
      rcases Nat.eq_zero_or_pos r with rfl | hpos
      · rw [h.root]
        rfl
      · obtain ⟨m, hm, hmaster⟩ := h.master r hpos hr
        have hm' := ih m (Nat.lt_trans hm hr) (Nat.lt_of_lt_of_le hm (Nat.le_of_lt_succ hsteps))
        rw [hmaster, List.getLast?_cons, hm']
        rfl
  unfold rootOf chain
  rw [hlast _ r hr hr]
  rfl

theorem self_mem_chain (hr : r < s.registries.size) : r ∈ s.chain r := by
  obtain ⟨n, hn⟩ := Nat.exists_eq_succ_of_ne_zero (Nat.ne_zero_of_lt hr)
  rw [chain, hn, chainFrom]
  exact List.mem_cons_self

theorem Descends.cellAt?_zero (h : s.Descends) (hslot : (t, c) ∈ s.snapshot r) :
    s.cellAt? 0 t = some c := by
  rw [cellAt?_eq_lookup]
  exact lookup_of_mem (h.sound.nodup_tokens 0) (h.inRoot r _ hslot)

theorem Descends.cell_eq (h : s.Descends) {r' : RegistryId} {d : CellId}
    (hslot : (t, c) ∈ s.snapshot r) (hslot' : (t, d) ∈ s.snapshot r') : c = d :=
  Option.some.inj ((h.cellAt?_zero hslot).symm.trans (h.cellAt?_zero hslot'))

theorem Descends.tokens_subset (h : s.Descends) (r : RegistryId) : s.tokens r ⊆ s.tokens 0 :=
  List.map_subset _ fun slot hslot => h.inRoot r slot hslot

theorem Extends.tokens_subset {s' : Store} (h : s.Extends s') (r : RegistryId) :
    s.tokens r ⊆ s'.tokens r :=
  List.map_subset _ fun slot hslot => h.slots r slot hslot

/-- A registry finds what the first one knows. -/
theorem Descends.cellInChain?_eq (h : s.Descends) (hr : r < s.registries.size) (t : Token) :
    s.cellInChain? r t = s.cellAt? 0 t := by
  unfold cellInChain?
  cases hfound : (s.chain r).findSome? (s.cellAt? · t) with
  | none =>
    rw [List.findSome?_eq_none_iff] at hfound
    exact (hfound 0 (h.zero_mem_chain hr)).symm
  | some c =>
    obtain ⟨r', -, hr'⟩ := List.exists_of_findSome?_eq_some hfound
    rw [cellAt?_eq_lookup] at hr'
    exact (h.cellAt?_zero (mem_of_lookup hr')).symm

end Chain

/-! A registration puts one cell into a chain. -/

/-- The store that a registration puts its cell into, and the cell: it is the one that the first
registry knows, or a new one. -/
theorem Descends.register_eq (h : s.Descends) (hr : r < s.registries.size) (origin : String)
    (source : Option Path) :
    ∃ (s₀ : Store) (c : CellId), (s.register r origin source).1 = s₀.insert r (.ofOrigin origin) c ∧
      s₀.registries = s.registries ∧
      ((Token.ofOrigin origin, c) ∈ s.snapshot 0 ∧
          s₀.cells = (s.modifyCell c fun a => { a with source := source.getD a.source }).cells ∨
        Token.ofOrigin origin ∉ s.tokens 0 ∧ c = s.cells.size ∧
          s₀.cells = s.cells.push { source := source.getD ⟨origin⟩, token := .ofOrigin origin }) := by
  have hfound := h.cellInChain?_eq hr (.ofOrigin origin)
  obtain ⟨s₀, c, heq, hregistries, ⟨hcell, hcells⟩ | ⟨hcell, hnew⟩⟩ :=
    register_eq_insert s r origin source
  · rw [hfound, cellAt?_eq_lookup] at hcell
    exact ⟨s₀, c, heq, hregistries, .inl ⟨mem_of_lookup hcell, hcells⟩⟩
  · have hunknown : Token.ofOrigin origin ∉ s.tokens 0 := by
      rw [← cellAt?_isSome, ← hfound, hcell]
      simp
    exact ⟨s₀, c, heq, hregistries, .inr ⟨hunknown, hnew⟩⟩

theorem snapshot_insert_of_mem {r' : RegistryId} (hr' : r' ∈ s.chain r)
    (hlt : r' < s.registries.size) : (s.insert r t c).snapshot r' = putSlot t c (s.snapshot r') := by
  have hsome : (s.registry? r').isSome := by
    unfold registry?
    simpa using hlt
  rw [snapshot_insert, if_pos ⟨hr', hsome⟩]

theorem extends_insert (hsame : ∀ r' d, (t, d) ∈ s.snapshot r' → d = c) :
    s.Extends (s.insert r t c) := by
  refine ⟨by simp, fun r' slot hslot => ?_⟩
  rw [snapshot_insert]
  split
  · exact mem_putSlot_of_mem (hsame r') hslot
  · exact hslot

theorem Descends.insert (h : s.Descends) (hr : r < s.registries.size)
    (hsame : ∀ d, (t, d) ∈ s.snapshot 0 → d = c) (hsound : (s.insert r t c).Sound) :
    (s.insert r t c).Descends := by
  have hroot := snapshot_insert_of_mem (t := t) (c := c) (h.zero_mem_chain hr) h.pos
  refine ⟨hsound, by simpa using h.pos, by simpa using h.root, by simpa using h.master, ?_⟩
  intro r' slot hslot
  rw [hroot]
  rcases mem_snapshot_insert s r t c hslot with rfl | hslot
  · exact self_mem_putSlot
  · exact mem_putSlot_of_mem hsame (h.inRoot r' slot hslot)

theorem Descends.of_registries {s₀ : Store} (h : s.Descends) (hsame : s₀.registries = s.registries)
    (hsound : s₀.Sound) : s₀.Descends := by
  have hmaster := master?_of_registries hsame
  have hsnapshot := snapshot_of_registries hsame
  refine ⟨hsound, ?_, ?_, ?_, ?_⟩
  · rw [hsame]
    exact h.pos
  · rw [hmaster]
    exact h.root
  · intro r hpos hlt
    rw [hmaster]
    rw [hsame] at hlt
    exact h.master r hpos hlt
  · intro r slot hslot
    rw [hsnapshot] at hslot ⊢
    exact h.inRoot r slot hslot

theorem Descends.register (h : s.Descends) (hr : r < s.registries.size) (origin : String)
    (source : Option Path) : (s.register r origin source).1.Descends ∧
      s.Extends (s.register r origin source).1 ∧
      (s.register r origin source).1.registries.size = s.registries.size := by
  have hsound := h.sound.register r origin source
  obtain ⟨s₀, c, heq, hregistries, hcell⟩ := h.register_eq hr origin source
  have hsnapshot := snapshot_of_registries hregistries
  have hsame : ∀ r' d, (Token.ofOrigin origin, d) ∈ s₀.snapshot r' → d = c := by
    intro r' d hd
    rw [hsnapshot] at hd
    rcases hcell with ⟨hknown, -⟩ | ⟨hnew, -⟩
    · exact h.cell_eq hd hknown
    · exact absurd (List.mem_map_of_mem (h.inRoot r' _ hd)) hnew
  have hcells : s.cells.size ≤ s₀.cells.size := by
    rcases hcell with ⟨-, hcells⟩ | ⟨-, -, hcells⟩ <;> simp [hcells]
  have hsound₀ : s₀.Sound := h.sound.extend (fun r' => .inl (hsnapshot r')) hcells
  have hr₀ : r < s₀.registries.size := hregistries ▸ hr
  rw [heq] at hsound ⊢
  refine ⟨(h.of_registries hregistries hsound₀).insert hr₀ (hsame 0) hsound, ?_, by simp [hregistries]⟩
  have hextends := extends_insert (r := r) hsame
  refine ⟨by simp [hregistries], fun r' slot hslot => hextends.slots r' slot ?_⟩
  rwa [hsnapshot]

theorem tokens_register (h : s.Descends) (hr : r < s.registries.size) (origin : String)
    (source : Option Path) : (s.register r origin source).1.tokens r =
      if .ofOrigin origin ∈ s.tokens r then s.tokens r else s.tokens r ++ [.ofOrigin origin] := by
  obtain ⟨s₀, c, heq, hregistries, -⟩ := h.register_eq hr origin source
  have hr₀ : r < s₀.registries.size := hregistries ▸ hr
  unfold tokens
  rw [heq, snapshot_insert_of_mem (self_mem_chain hr₀) hr₀, keys_putSlot,
    snapshot_of_registries hregistries]

/-! New registries. -/

theorem snapshot_newChild (s : Store) (m r : RegistryId) :
    (s.newChild m).1.snapshot r = s.snapshot r := by
  have hempty : s.snapshot s.registries.size = [] := by simp [snapshot, registry?]
  unfold newChild
  by_cases hr : r = s.registries.size
  · subst r
    rw [hempty]
    simp [snapshot, registry?]
  · simp [snapshot, registry?, Array.getElem?_push, hr]

theorem master?_newChild (s : Store) (m r : RegistryId) : (s.newChild m).1.master? r =
    if r = s.registries.size then some m else s.master? r := by
  unfold newChild master? registry?
  rw [Array.getElem?_push]
  split <;> rfl

theorem Descends.newChild {m : RegistryId} (h : s.Descends) (hm : m < s.registries.size) :
    (s.newChild m).1.Descends ∧ s.Extends (s.newChild m).1 ∧
      (s.newChild m).1.registries.size = s.registries.size + 1 := by
  have hsnapshot := snapshot_newChild s m
  have hsize : (s.newChild m).1.registries.size = s.registries.size + 1 := by simp [Store.newChild]
  refine ⟨⟨?_, by omega, ?_, ?_, ?_⟩, ⟨by omega, ?_⟩, hsize⟩
  · exact h.sound.extend (fun r => .inl (hsnapshot r)) (Nat.le_refl _)
  · rw [master?_newChild, if_neg (Nat.ne_of_lt h.pos)]
    exact h.root
  · intro r hpos hlt
    rw [hsize] at hlt
    rw [master?_newChild]
    split
    · next hr => exact ⟨m, hr ▸ hm, rfl⟩
    · next hr => exact h.master r hpos (Nat.lt_of_le_of_ne (Nat.le_of_lt_succ hlt) hr)
  · intro r slot hslot
    rw [hsnapshot] at hslot ⊢
    exact h.inRoot r slot hslot
  · intro r slot hslot
    rwa [hsnapshot]

/-! What holds of the asset under every token. -/

/-- Each token that is known stands for an asset with `K`. -/
def Each (s : Store) (K : Token → Asset → Prop) : Prop :=
  ∀ slot ∈ s.snapshot 0, ∃ a, s.asset? slot.2 = some a ∧ K slot.1 a

variable {K : Token → Asset → Prop}

theorem Each.mono {K' : Token → Asset → Prop} (h : s.Each K) (hK : ∀ t a, K t a → K' t a) :
    s.Each K' := by
  intro slot hslot
  obtain ⟨a, ha, hKa⟩ := h slot hslot
  exact ⟨a, ha, hK _ _ hKa⟩

theorem Each.and {K' : Token → Asset → Prop} (h : s.Each K) (h' : s.Each K') :
    s.Each fun t a => K t a ∧ K' t a := by
  intro slot hslot
  obtain ⟨a, ha, hKa⟩ := h slot hslot
  obtain ⟨b, hb, hKb⟩ := h' slot hslot
  obtain rfl : a = b := Option.some.inj (ha.symm.trans hb)
  exact ⟨a, ha, hKa, hKb⟩

theorem Each.newChild {m : RegistryId} (h : s.Each K) : (s.newChild m).1.Each K := by
  intro slot hslot
  rw [snapshot_newChild] at hslot
  exact h slot hslot

/-- A registration keeps what is known, and its new asset comes from its origin. -/
theorem Each.register (heach : s.Each K) (h : s.Descends) (hr : r < s.registries.size)
    (hK : ∀ t a b, K t a → K t { a with isMaster := b }) (origin : String)
    (hnew : .ofOrigin origin ∉ s.tokens 0 →
      K (.ofOrigin origin) { source := ⟨origin⟩, token := .ofOrigin origin }) :
    (s.register r origin none).1.Each K := by
  obtain ⟨s₀, c, heq, hregistries, hcell⟩ := h.register_eq hr origin none
  obtain ⟨note, hnote, hasset⟩ := asset?_foldl_insertAt (.ofOrigin origin) c (s₀.chain r) s₀
  have hnoted : ∀ t a, K t a → K t (note a) := by
    intro t a ha
    obtain ⟨b, hb⟩ := hnote a
    rw [hb]
    exact hK t a b ha
  have hbefore : ∀ slot, slot = (.ofOrigin origin, c) ∨ slot ∈ s.snapshot 0 →
      ∃ a, s₀.asset? slot.2 = some a ∧ K slot.1 a := by
    intro slot hslot
    rcases hcell with ⟨hknown, hcells⟩ | ⟨hunknown, hc, hcells⟩
    · have hmem : slot ∈ s.snapshot 0 := by
        rcases hslot with rfl | hslot
        · exact hknown
        · exact hslot
      have hcells : s₀.cells = s.cells := hcells.trans (congrArg cells (modifyCell_id s c))
      unfold asset?
      rw [hcells]
      exact heach slot hmem
    · rcases hslot with rfl | hslot
      · exact ⟨_, by simp [asset?, hcells, hc], hnew hunknown⟩
      · obtain ⟨a, ha, hKa⟩ := heach slot hslot
        have hne : slot.2 ≠ s.cells.size := Nat.ne_of_lt (h.sound.cell_lt 0 slot hslot)
        exact ⟨a, by simpa [asset?, hcells, Array.getElem?_push, hne] using ha, hKa⟩
  intro slot hslot
  rw [heq] at hslot ⊢
  have hmem := mem_snapshot_insert s₀ r _ c hslot
  rw [snapshot_of_registries hregistries] at hmem
  obtain ⟨a, ha, hKa⟩ := hbefore slot hmem
  have hafter : (s₀.insert r (.ofOrigin origin) c).asset? slot.2 =
      if c = slot.2 then (s₀.asset? slot.2).map note else s₀.asset? slot.2 := hasset slot.2
  rw [hafter, ha]
  split
  · exact ⟨note a, rfl, hnoted _ _ hKa⟩
  · exact ⟨a, rfl, hKa⟩

/-! Many origins. -/

theorem size_register (s : Store) (r : RegistryId) (origin : String) (source : Option Path) :
    (s.register r origin source).1.registries.size = s.registries.size := by
  obtain ⟨s₀, c, heq, hregistries, -⟩ := register_eq_insert s r origin source
  rw [heq, size_registries_insert, hregistries]

theorem master?_register (s : Store) (r : RegistryId) (origin : String) (source : Option Path)
    (x : RegistryId) : (s.register r origin source).1.master? x = s.master? x := by
  obtain ⟨s₀, c, heq, hregistries, -⟩ := register_eq_insert s r origin source
  rw [heq, master?_insert, master?_of_registries hregistries]

theorem master?_registerAll (s : Store) (r : RegistryId) (origins : List String) (x : RegistryId) :
    (s.registerAll r origins).master? x = s.master? x := by
  induction origins generalizing s with
  | nil => rfl
  | cons origin origins ih => exact (ih _).trans (master?_register s r origin none x)

theorem Reachable.registerAll (h : s.Reachable) (hr : r < s.registries.size)
    (origins : List String) : (s.registerAll r origins).Reachable := by
  induction origins generalizing s with
  | nil => exact h
  | cons origin origins ih =>
    exact ih (h.register r origin none hr) (size_register s r origin none ▸ hr)

theorem size_registerAll (s : Store) (r : RegistryId) (origins : List String) :
    (s.registerAll r origins).registries.size = s.registries.size := by
  induction origins generalizing s with
  | nil => rfl
  | cons origin origins ih => exact (ih _).trans (size_register s r origin none)

/-- An origin counts when its token is new. -/
def keepFirst (kept : List String) (origin : String) : List String :=
  if Token.ofOrigin origin ∈ kept.map Token.ofOrigin then kept else kept ++ [origin]

/-- The origins, each token counted once, after those in `kept`. -/
def firstOrigins (kept origins : List String) : List String := origins.foldl keepFirst kept

theorem subset_keepFirst (kept : List String) (origin : String) :
    kept ⊆ keepFirst kept origin := by
  unfold keepFirst
  split
  · exact List.Subset.refl _
  · exact List.subset_append_left _ _

theorem map_keepFirst (kept : List String) (origin : String) :
    (keepFirst kept origin).map Token.ofOrigin =
      if .ofOrigin origin ∈ kept.map Token.ofOrigin then kept.map Token.ofOrigin
      else kept.map Token.ofOrigin ++ [.ofOrigin origin] := by
  unfold keepFirst
  split
  · rfl
  · rw [List.map_append]
    rfl

theorem mem_keepFirst {kept : List String} {origin o : String} (h : o ∈ keepFirst kept origin) :
    o ∈ kept ∨ o = origin := by
  unfold keepFirst at h
  split at h
  · exact .inl h
  · exact (List.mem_append.1 h).imp_right List.mem_singleton.1

theorem subset_firstOrigins (kept origins : List String) : kept ⊆ firstOrigins kept origins := by
  induction origins generalizing kept with
  | nil => exact List.Subset.refl _
  | cons origin origins ih =>
    exact List.Subset.trans (subset_keepFirst kept origin) (ih _)

theorem firstOrigins_subset (kept origins : List String) :
    ∀ origin ∈ firstOrigins kept origins, origin ∈ kept ∨ origin ∈ origins := by
  induction origins generalizing kept with
  | nil => exact fun _ h => .inl h
  | cons origin origins ih =>
    intro o ho
    rcases ih _ o ho with h | h
    · rcases mem_keepFirst h with h | rfl
      · exact .inl h
      · exact .inr List.mem_cons_self
    · exact .inr (List.mem_cons_of_mem _ h)

theorem exists_token_firstOrigins {kept origins : List String} {o : String} (ho : o ∈ origins) :
    ∃ o' ∈ firstOrigins kept origins, Token.ofOrigin o' = Token.ofOrigin o := by
  induction origins generalizing kept with
  | nil => cases ho
  | cons origin origins ih =>
    rcases List.mem_cons.1 ho with rfl | ho
    · have hkept : Token.ofOrigin o ∈ (keepFirst kept o).map Token.ofOrigin := by
        rw [map_keepFirst]
        split
        · assumption
        · simp
      obtain ⟨o', ho', htoken⟩ := List.mem_map.1 hkept
      exact ⟨o', subset_firstOrigins _ origins ho', htoken⟩
    · exact ih ho

/-- Origins whose tokens tell them apart all count. -/
theorem mem_firstOrigins {origins : List String}
    (h : ∀ o ∈ origins, ∀ o' ∈ origins, Token.ofOrigin o = .ofOrigin o' → o = o') {o : String} :
    o ∈ firstOrigins [] origins ↔ o ∈ origins := by
  have hsub : ∀ o ∈ firstOrigins [] origins, o ∈ origins := fun o ho =>
    (firstOrigins_subset [] origins o ho).resolve_left List.not_mem_nil
  constructor
  · exact hsub o
  · intro ho
    obtain ⟨o', ho', htoken⟩ : ∃ o' ∈ firstOrigins [] origins, Token.ofOrigin o' = .ofOrigin o :=
      exists_token_firstOrigins ho
    exact h o' (hsub o' ho') o ho htoken ▸ ho'

theorem Descends.registerAll (h : s.Descends) (hr : r < s.registries.size) (origins : List String) :
    (s.registerAll r origins).Descends ∧ s.Extends (s.registerAll r origins) ∧
      (s.registerAll r origins).registries.size = s.registries.size := by
  induction origins generalizing s with
  | nil => exact ⟨h, .refl s, rfl⟩
  | cons origin origins ih =>
    obtain ⟨hdescends, hextends, hsize⟩ := h.register hr origin none
    obtain ⟨hdescends', hextends', hsize'⟩ := ih hdescends (hsize ▸ hr)
    exact ⟨hdescends', hextends.trans hextends', hsize'.trans hsize⟩

/-- What is registered is held afterwards. -/
theorem mem_tokens_registerAll (h : s.Descends) (hr : r < s.registries.size) {origins : List String}
    {o : String} (ho : o ∈ origins) : .ofOrigin o ∈ (s.registerAll r origins).tokens r := by
  induction origins generalizing s with
  | nil => cases ho
  | cons origin origins ih =>
    obtain ⟨hdescends, -, hsize⟩ := h.register hr origin none
    rcases List.mem_cons.1 ho with rfl | ho
    · refine (hdescends.registerAll (hsize ▸ hr) origins).2.1.tokens_subset r ?_
      rw [tokens_register h hr]
      split
      · assumption
      · exact List.mem_append_right _ List.mem_cons_self
    · exact ih hdescends (hsize ▸ hr) ho

/-- A registry comes to hold the tokens of the origins in order of first use. -/
theorem tokens_registerAll (h : s.Descends) (hr : r < s.registries.size) (origins : List String)
    {kept : List String} (hkept : s.tokens r = kept.map Token.ofOrigin) :
    (s.registerAll r origins).tokens r = (firstOrigins kept origins).map Token.ofOrigin := by
  induction origins generalizing s kept with
  | nil => exact hkept
  | cons origin origins ih =>
    obtain ⟨hdescends, -, hsize⟩ := h.register hr origin none
    refine ih hdescends (hsize ▸ hr) ?_
    rw [tokens_register h hr, hkept, map_keepFirst]

theorem Each.registerAll (heach : s.Each K) (h : s.Descends) (hr : r < s.registries.size)
    (hK : ∀ t a b, K t a → K t { a with isMaster := b }) (origins : List String)
    {kept : List String} (hkept : s.tokens r = kept.map Token.ofOrigin)
    (hnew : ∀ origin ∈ firstOrigins kept origins, .ofOrigin origin ∉ s.tokens 0 →
      K (.ofOrigin origin) { source := ⟨origin⟩, token := .ofOrigin origin }) :
    (s.registerAll r origins).Each K := by
  induction origins generalizing s kept with
  | nil => exact heach
  | cons origin origins ih =>
    obtain ⟨hdescends, hextends, hsize⟩ := h.register hr origin none
    have hfirst : .ofOrigin origin ∉ s.tokens 0 →
        origin ∈ firstOrigins kept (origin :: origins) := by
      intro hunknown
      have hunseen : .ofOrigin origin ∉ kept.map Token.ofOrigin :=
        hkept ▸ fun h' => hunknown (h.tokens_subset r h')
      refine subset_firstOrigins _ origins ?_
      rw [keepFirst, if_neg hunseen]
      exact List.mem_append_right _ (List.mem_singleton.2 rfl)
    have hregistered := heach.register h hr hK origin fun hunknown =>
      hnew origin (hfirst hunknown) hunknown
    refine ih hregistered hdescends (hsize ▸ hr) ?_ fun o ho hunknown =>
      hnew o ho fun hknown => hunknown (hextends.tokens_subset 0 hknown)
    rw [tokens_register h hr, hkept, map_keepFirst]

/-- It is enough to know the new assets of all the origins. -/
theorem Each.registerAll_of_mem (heach : s.Each K) (h : s.Descends) (hr : r < s.registries.size)
    (hK : ∀ t a b, K t a → K t { a with isMaster := b }) (origins : List String)
    (hnew : ∀ origin ∈ origins, .ofOrigin origin ∉ s.tokens 0 →
      K (.ofOrigin origin) { source := ⟨origin⟩, token := .ofOrigin origin }) :
    (s.registerAll r origins).Each K := by
  induction origins generalizing s with
  | nil => exact heach
  | cons origin origins ih =>
    obtain ⟨hdescends, hextends, hsize⟩ := h.register hr origin none
    have hregistered := heach.register h hr hK origin (hnew origin List.mem_cons_self)
    exact ih hregistered hdescends (hsize ▸ hr) fun o ho hunknown =>
      hnew o (List.mem_cons_of_mem _ ho) fun hknown => hunknown (hextends.tokens_subset 0 hknown)

/-! Changes of an asset. -/

theorem Descends.modifyCell (h : s.Descends) (c : CellId) (f : Asset → Asset) :
    (s.modifyCell c f).Descends :=
  h.of_registries rfl (h.sound.extend (fun _ => .inl rfl) (by simp))

theorem Each.modifyCell_all (heach : s.Each K) (c : CellId) {f : Asset → Asset}
    (hf : ∀ t a, K t a → K t (f a)) : (s.modifyCell c f).Each K := by
  intro slot hslot
  obtain ⟨a, ha, hKa⟩ := heach slot hslot
  rw [asset?_modifyCell, ha]
  split
  · exact ⟨f a, rfl, hf _ _ hKa⟩
  · exact ⟨a, rfl, hKa⟩

/-- The asset under one token is changed. -/
theorem Each.modifyCell {K' : Token → Asset → Prop} (heach : s.Each K) (h : s.Descends)
    (hslot : (t, c) ∈ s.snapshot r) {f : Asset → Asset}
    (hf : ∀ a, s.asset? c = some a → K t a → K' t (f a))
    (hother : ∀ u a, u ≠ t → K u a → K' u a) : (s.modifyCell c f).Each K' := by
  rintro ⟨u, d⟩ hu
  obtain ⟨a, ha, hKa⟩ := heach (u, d) hu
  rw [asset?_modifyCell]
  split
  · next hcd =>
    subst hcd
    obtain rfl : t = u := h.sound.token_eq r 0 t u c hslot hu
    exact ⟨f a, by rw [ha]; rfl, hf a ha hKa⟩
  · next hcd =>
    refine ⟨a, ha, hother u a (fun hut => hcd ?_) hKa⟩
    subst hut
    exact h.cell_eq hslot hu

end Store
end Bindery
