import Bindery.Proofs.Asset.Slots
import Mathlib.Data.List.Induction

/-! The stores that come about when registries are made, linked and filled. In each of them a
registry holds a token once, every token is the token of an origin, and a cell is kept under one
token only. -/

namespace Bindery.Store

/-- What is done to the registries of a run. -/
inductive Action where
  | newRoot
  | newRootLike (like : RegistryId)
  | newChild (master : RegistryId)
  | register (r : RegistryId) (origin : String) (source : Option Path)
  | lookUp (r : RegistryId) (origin : String)
  | setMaster (r master : RegistryId)
  /-- The entry in a cell is changed through one of the registries that share it. -/
  | update (c : CellId) (f : Asset → Asset)

/-- The store after an action. An action on a registry that is not there is refused, and so is a
link that would close a circle. -/
def act? (s : Store) : Action → Option Store
  | .newRoot => some s.newRoot.1
  | .newRootLike like => if like < s.registries.size then some (s.newRootLike like).1 else none
  | .newChild master => if master < s.registries.size then some (s.newChild master).1 else none
  | .register r origin source =>
    if r < s.registries.size then some (s.register r origin source).1 else none
  | .lookUp r origin => if r < s.registries.size then some (s.tokenFor r origin).1 else none
  | .setMaster r master =>
    if r < s.registries.size ∧ master < s.registries.size then s.setMaster? r master else none
  | .update c f => some (s.modifyCell c f)

inductive Reachable : Store → Prop where
  | empty : Reachable {}
  | act {s s' : Store} (a : Action) : Reachable s → s.act? a = some s' → Reachable s'

theorem Reachable.register {s : Store} (h : s.Reachable) (r : RegistryId) (origin : String)
    (source : Option Path) (hr : r < s.registries.size) :
    (s.register r origin source).1.Reachable :=
  .act (.register r origin source) h (if_pos hr)

/-- What holds of every store that can be reached. -/
structure Sound (s : Store) : Prop where
  nodup_tokens : ∀ r, (s.tokens r).Nodup
  ofOrigin : ∀ r, ∀ slot ∈ s.snapshot r, ∃ origin, slot.1 = Token.ofOrigin origin
  cell_lt : ∀ r, ∀ slot ∈ s.snapshot r, slot.2 < s.cells.size
  token_eq : ∀ r r' t t' c, (t, c) ∈ s.snapshot r → (t', c) ∈ s.snapshot r' → t = t'

section Preservation

variable {s s' : Store}

/-- Registries may be added while they are empty, and cells may be added and changed. -/
theorem Sound.extend (hs : s.Sound)
    (hsnapshot : ∀ r, s'.snapshot r = s.snapshot r ∨ s'.snapshot r = [])
    (hcells : s.cells.size ≤ s'.cells.size) : s'.Sound := by
  have hmem : ∀ r, ∀ slot ∈ s'.snapshot r, slot ∈ s.snapshot r := by
    intro r slot hslot
    rcases hsnapshot r with h | h <;> rw [h] at hslot
    · exact hslot
    · exact absurd hslot List.not_mem_nil
  constructor
  · intro r
    unfold tokens
    rcases hsnapshot r with h | h <;> rw [h]
    · exact hs.nodup_tokens r
    · exact List.nodup_nil
  · exact fun r slot hslot => hs.ofOrigin r slot (hmem r slot hslot)
  · exact fun r slot hslot => Nat.lt_of_lt_of_le (hs.cell_lt r slot (hmem r slot hslot)) hcells
  · exact fun r r' t t' c h h' => hs.token_eq r r' t t' c (hmem r _ h) (hmem r' _ h')

theorem snapshot_push (registry : Registry) (hslots : registry.slots = []) (memos) (r : RegistryId) :
    ({ s with registries := s.registries.push registry, memos := memos } : Store).snapshot r =
      s.snapshot r ∨
    ({ s with registries := s.registries.push registry, memos := memos } : Store).snapshot r = [] := by
  unfold snapshot registry?
  rw [Array.getElem?_push]
  split
  · exact .inr hslots
  · exact .inl rfl

/-- A cell goes into a chain under its own token. -/
theorem Sound.insert (hs : s.Sound) (r : RegistryId) {t : Token} {c : CellId}
    (ht : ∃ origin, t = Token.ofOrigin origin) (hc : c < s.cells.size)
    (howner : ∀ r' t', (t', c) ∈ s.snapshot r' → t' = t) : (s.insert r t c).Sound := by
  constructor
  · exact fun r' => nodup_tokens_insert s r t c (hs.nodup_tokens r')
  · intro r' slot hslot
    rcases mem_snapshot_insert s r t c hslot with rfl | hslot
    · exact ht
    · exact hs.ofOrigin r' slot hslot
  · intro r' slot hslot
    rw [size_cells_insert]
    rcases mem_snapshot_insert s r t c hslot with rfl | hslot
    · exact hc
    · exact hs.cell_lt r' slot hslot
  · intro r₁ r₂ t₁ t₂ d h₁ h₂
    rcases mem_snapshot_insert s r t c h₁ with e₁ | k₁ <;>
      rcases mem_snapshot_insert s r t c h₂ with e₂ | k₂
    · rw [(Prod.mk.inj e₁).1, (Prod.mk.inj e₂).1]
    · obtain ⟨rfl, rfl⟩ := Prod.mk.inj e₁
      exact (howner r₂ t₂ k₂).symm
    · obtain ⟨rfl, rfl⟩ := Prod.mk.inj e₂
      exact howner r₁ t₁ k₁
    · exact hs.token_eq r₁ r₂ t₁ t₂ d k₁ k₂

theorem mem_of_cellInChain? {r : RegistryId} {t : Token} {c : CellId}
    (h : s.cellInChain? r t = some c) : ∃ r', (t, c) ∈ s.snapshot r' := by
  obtain ⟨r', -, hr'⟩ := List.exists_of_findSome?_eq_some h
  rw [cellAt?_eq_lookup] at hr'
  exact ⟨r', mem_of_lookup hr'⟩

theorem Sound.register (hs : s.Sound) (r : RegistryId) (origin : String) (source : Option Path) :
    (s.register r origin source).1.Sound := by
  have hsame : ∀ r', (s.tokenFor r origin).1.snapshot r' = s.snapshot r' := fun _ => rfl
  cases hcell : s.cellInChain? r (.ofOrigin origin) with
  | some c =>
    obtain ⟨r₀, hmem⟩ := mem_of_cellInChain? hcell
    rw [register_fst_of_known hcell]
    apply Sound.insert
    · exact hs.extend (fun r' => .inl (hsame r')) (by simp [tokenFor])
    · exact ⟨origin, rfl⟩
    · simpa [tokenFor] using hs.cell_lt r₀ _ hmem
    · exact fun r' t' h => hs.token_eq r' r₀ t' _ c h hmem
  | none =>
    rw [register_fst_of_new hcell]
    apply Sound.insert
    · exact hs.extend (fun r' => .inl (hsame r')) (by simp)
    · exact ⟨origin, rfl⟩
    · simp
    · exact fun r' t' h => absurd (hs.cell_lt r' _ h) (Nat.lt_irrefl _)

/-- A registry with another master. -/
def link (s : Store) (r master : RegistryId) : Store :=
  { s with registries := s.registries.modify r ({ · with master := some master }) }

theorem registry?_link (s : Store) (r master r' : RegistryId) : registry? (s.link r master) r' =
    if r = r' then (s.registry? r').map ({ · with master := some master }) else s.registry? r' :=
  Array.getElem?_modify

theorem snapshot_link (s : Store) (r master r' : RegistryId) :
    (s.link r master).snapshot r' = s.snapshot r' := by
  unfold snapshot
  rw [registry?_link]
  split
  · cases s.registry? r' <;> rfl
  · rfl

theorem chain_link {s : Store} {r r' : RegistryId} (h : r ∉ s.chain r') (master : RegistryId) :
    (s.link r master).chain r' = s.chain r' := by
  refine chain_congr (by simp [link]) fun x hx => ?_
  have hne : r ≠ x := fun heq => h (heq ▸ hx)
  unfold master?
  rw [registry?_link, if_neg hne]

/-- The entries of a registry may be put into a chain that the registry is not on. -/
theorem Sound.foldl_insert (hs : s.Sound) {r master : RegistryId} (hr : r ∉ s.chain master)
    (slots : List (Token × CellId)) (hslots : ∀ slot ∈ slots, slot ∈ s.snapshot r) :
    (slots.foldl (fun s (t, c) => s.insert master t c) s).Sound := by
  induction slots generalizing s with
  | nil => exact hs
  | cons slot slots ih =>
    obtain ⟨t, c⟩ := slot
    have hmem : (t, c) ∈ s.snapshot r := hslots (t, c) List.mem_cons_self
    have hinsert : (s.insert master t c).Sound :=
      hs.insert master (hs.ofOrigin r _ hmem) (hs.cell_lt r _ hmem)
        fun r' t' h => hs.token_eq r' r t' t c h hmem
    refine ih hinsert (by rwa [chain_insert]) fun slot hslot => ?_
    rw [snapshot_insert, if_neg fun h => hr h.1]
    exact hslots slot (List.mem_cons_of_mem _ hslot)

theorem Sound.setMaster? (hs : s.Sound) {r master : RegistryId}
    (h : s.setMaster? r master = some s') : s'.Sound := by
  unfold Store.setMaster? at h
  split at h
  · cases h
  · next hr =>
    rw [List.contains_iff_mem] at hr
    rw [Option.some.injEq] at h
    subst h
    have hlink : (s.link r master).Sound :=
      hs.extend (fun r' => .inl (snapshot_link s r master r')) (Nat.le_refl _)
    refine hlink.foldl_insert (r := r) (by rwa [chain_link hr]) _ fun slot hslot => ?_
    rwa [snapshot_link]

theorem Sound.act? (hs : s.Sound) {a : Action} (h : s.act? a = some s') : s'.Sound := by
  cases a with
  | newRoot =>
    obtain rfl := Option.some.inj h
    exact hs.extend (snapshot_push _ rfl _) (Nat.le_refl _)
  | newRootLike like =>
    obtain ⟨-, hnew⟩ := Option.ite_none_right_eq_some.1 h
    obtain rfl := Option.some.inj hnew
    exact hs.extend (snapshot_push _ rfl _) (Nat.le_refl _)
  | newChild master =>
    obtain ⟨-, hnew⟩ := Option.ite_none_right_eq_some.1 h
    obtain rfl := Option.some.inj hnew
    exact hs.extend (snapshot_push _ rfl _) (Nat.le_refl _)
  | register r origin source =>
    obtain ⟨-, hnew⟩ := Option.ite_none_right_eq_some.1 h
    obtain rfl := Option.some.inj hnew
    exact hs.register r origin source
  | lookUp r origin =>
    obtain ⟨-, hnew⟩ := Option.ite_none_right_eq_some.1 h
    obtain rfl := Option.some.inj hnew
    exact hs.extend (fun _ => .inl rfl) (Nat.le_refl _)
  | setMaster r master =>
    obtain ⟨-, hlink⟩ := Option.ite_none_right_eq_some.1 h
    exact hs.setMaster? hlink
  | update c f =>
    obtain rfl := Option.some.inj h
    exact hs.extend (fun _ => .inl rfl) (by simp)

end Preservation

theorem Reachable.sound {s : Store} (h : s.Reachable) : s.Sound := by
  induction h with
  | empty => constructor <;> simp [tokens, snapshot, registry?]
  | act a _ hact ih => exact ih.act? hact

/-! A whole run. -/

/-- The store after a run, if none of its actions is refused. -/
def after? (acts : List Action) : Option Store := acts.foldlM act? {}

variable {acts : List Action} {s : Store}

theorem after?_concat (acts : List Action) (a : Action) :
    after? (acts ++ [a]) = (after? acts).bind (act? · a) := by
  unfold after?
  rw [List.foldlM_append]
  exact congrArg _ (funext fun s => bind_pure (act? s a))

theorem after?_concat_eq_some {a : Action} (h : after? (acts ++ [a]) = some s) :
    ∃ s₀, after? acts = some s₀ ∧ s₀.act? a = some s := by
  rw [after?_concat] at h
  exact Option.bind_eq_some_iff.1 h

theorem reachable_of_after? (h : after? acts = some s) : s.Reachable := by
  induction acts using List.reverseRecOn generalizing s with
  | nil => exact Option.some.inj h ▸ .empty
  | append_singleton acts a ih =>
    obtain ⟨s₀, hs₀, hact⟩ := after?_concat_eq_some h
    exact .act a (ih hs₀) hact

end Bindery.Store
