import Bindery.Asset.Registry
import Mathlib.Data.List.Basic

/-! What the operations on a store do to two views of a registry: the tokens it holds in order, and
the cell it keeps for a token. -/

namespace Bindery

section Slots

variable {t u : Token} {c d : CellId} {slots : List (Token × CellId)}

theorem lookup_cons_eq (slot : Token × CellId) :
    (slot :: slots).lookup u = if u = slot.1 then some slot.2 else slots.lookup u := by
  rw [List.lookup_cons]
  by_cases h : u = slot.1
  · rw [if_pos h, beq_iff_eq.2 h]
  · rw [if_neg h, beq_eq_false_iff_ne.2 h]

theorem lookup_putSlot : (putSlot t c slots).lookup u = if u = t then some c else slots.lookup u := by
  induction slots with
  | nil => rw [putSlot, lookup_cons_eq]
  | cons slot slots ih =>
    obtain ⟨v, d⟩ := slot
    by_cases hv : v = t
    · subst v
      rw [putSlot, if_pos rfl, lookup_cons_eq, lookup_cons_eq]
      by_cases h : u = t <;> simp [h]
    · rw [putSlot, if_neg hv, lookup_cons_eq, lookup_cons_eq, ih]
      by_cases h : u = v
      · subst u
        simp [hv]
      · simp [h]

@[simp] theorem putSlot_putSlot : putSlot t c (putSlot t d slots) = putSlot t c slots := by
  induction slots with
  | nil => simp [putSlot]
  | cons slot slots ih =>
    obtain ⟨v, e⟩ := slot
    by_cases hv : v = t <;> simp [putSlot, hv, ih]

theorem mem_putSlot {slot : Token × CellId} (h : slot ∈ putSlot t c slots) :
    slot = (t, c) ∨ slot ∈ slots := by
  induction slots with
  | nil => exact .inl (List.mem_singleton.1 h)
  | cons first slots ih =>
    obtain ⟨v, d⟩ := first
    by_cases hv : v = t
    · rw [putSlot, if_pos hv] at h
      exact (List.mem_cons.1 h).imp_right (List.mem_cons_of_mem _)
    · rw [putSlot, if_neg hv] at h
      rcases List.mem_cons.1 h with rfl | h
      · exact .inr List.mem_cons_self
      · exact (ih h).imp_right (List.mem_cons_of_mem _)

/-- A token that is there keeps its place, another one comes last. -/
theorem keys_putSlot : (putSlot t c slots).map Prod.fst =
    if t ∈ slots.map Prod.fst then slots.map Prod.fst else slots.map Prod.fst ++ [t] := by
  induction slots with
  | nil => simp [putSlot]
  | cons slot slots ih =>
    obtain ⟨v, d⟩ := slot
    by_cases hv : v = t
    · simp [putSlot, hv]
    · have hne : t ≠ v := fun h => hv h.symm
      by_cases h : t ∈ slots.map Prod.fst
      · rw [if_pos h] at ih
        rw [List.map_cons, if_pos (List.mem_cons_of_mem _ h), putSlot, if_neg hv, List.map_cons, ih]
      · rw [if_neg h] at ih
        have hnot : t ∉ v :: slots.map Prod.fst := by
          rw [List.mem_cons, not_or]
          exact ⟨hne, h⟩
        rw [List.map_cons, if_neg hnot, putSlot, if_neg hv, List.map_cons, ih, List.cons_append]

theorem nodup_keys_putSlot (h : (slots.map Prod.fst).Nodup) :
    ((putSlot t c slots).map Prod.fst).Nodup := by
  rw [keys_putSlot]
  split
  · exact h
  · next hnot =>
    rw [List.nodup_append]
    refine ⟨h, List.pairwise_singleton _ t, fun a ha b hb => ?_⟩
    rw [List.mem_singleton.1 hb]
    rintro rfl
    exact hnot ha

theorem mem_of_lookup (h : slots.lookup t = some c) : (t, c) ∈ slots := by
  induction slots with
  | nil => simp at h
  | cons slot slots ih =>
    rw [lookup_cons_eq] at h
    split at h
    · next heq =>
      rw [Option.some.injEq] at h
      rw [heq, ← h]
      exact List.mem_cons_self
    · exact List.mem_cons_of_mem _ (ih h)

theorem lookup_of_mem (hnodup : (slots.map Prod.fst).Nodup) (h : (t, c) ∈ slots) :
    slots.lookup t = some c := by
  induction slots with
  | nil => simp at h
  | cons slot slots ih =>
    rw [List.map_cons, List.nodup_cons] at hnodup
    rw [lookup_cons_eq]
    rcases List.mem_cons.1 h with rfl | h
    · simp
    · have hne : t ≠ slot.1 := fun heq =>
        hnodup.1 (heq ▸ List.mem_map.2 ⟨(t, c), h, rfl⟩)
      rw [if_neg hne, ih hnodup.2 h]

theorem lookup_isSome : (slots.lookup t).isSome ↔ t ∈ slots.map Prod.fst := by
  induction slots with
  | nil => simp
  | cons slot slots ih =>
    rw [lookup_cons_eq, List.map_cons, List.mem_cons, ← ih]
    split <;> simp [*]

end Slots

namespace Store

variable (s : Store) (r : RegistryId) (t : Token) (c : CellId)

/-- The tokens of a registry in order of first insertion. -/
def tokens : List Token := (s.snapshot r).map Prod.fst

theorem cellAt?_eq_lookup : s.cellAt? r t = (s.snapshot r).lookup t := by
  unfold cellAt? snapshot Registry.cell?
  cases s.registry? r <;> rfl

theorem cellAt?_isSome {s : Store} {r : RegistryId} {t : Token} :
    (s.cellAt? r t).isSome ↔ t ∈ s.tokens r := by
  rw [cellAt?_eq_lookup, lookup_isSome, tokens]

theorem lt_of_cellAt? {s : Store} {r : RegistryId} {t : Token} {c : CellId}
    (h : s.cellAt? r t = some c) : r < s.registries.size := by
  by_contra hr
  have hnone : s.registry? r = none := Array.getElem?_eq_none (Nat.le_of_not_lt hr)
  rw [cellAt?, hnone] at h
  cases h

theorem mem_tokens_of_cellAt? {s : Store} {r : RegistryId} {t : Token} {c : CellId}
    (h : s.cellAt? r t = some c) : t ∈ s.tokens r := by
  rw [← cellAt?_isSome, h]
  rfl

theorem exists_cellAt? {s : Store} {r : RegistryId} {t : Token} (h : t ∈ s.tokens r) : ∃ c, s.cellAt? r t = some c :=
  Option.isSome_iff_exists.1 (cellAt?_isSome.2 h)

/-- What a registry knows under a token. -/
def entryAt? : Option Asset := (s.cellAt? r t).bind s.asset?

/-! A change of a cell leaves the registries as they are. -/

@[simp] theorem registries_modifyCell (f : Asset → Asset) :
    (s.modifyCell c f).registries = s.registries := rfl

@[simp] theorem registry?_modifyCell (f : Asset → Asset) :
    registry? (s.modifyCell c f) r = s.registry? r := rfl

@[simp] theorem snapshot_modifyCell (f : Asset → Asset) :
    (s.modifyCell c f).snapshot r = s.snapshot r := rfl

@[simp] theorem tokens_modifyCell (f : Asset → Asset) :
    (s.modifyCell c f).tokens r = s.tokens r := rfl

@[simp] theorem cellAt?_modifyCell (f : Asset → Asset) :
    (s.modifyCell c f).cellAt? r t = s.cellAt? r t := rfl

@[simp] theorem master?_modifyCell (f : Asset → Asset) :
    (s.modifyCell c f).master? r = s.master? r := rfl

@[simp] theorem size_cells_modifyCell (f : Asset → Asset) :
    (s.modifyCell c f).cells.size = s.cells.size := by
  simp [modifyCell]

theorem asset?_modifyCell (f : Asset → Asset) (d : CellId) :
    (s.modifyCell c f).asset? d = if c = d then (s.asset? d).map f else s.asset? d := by
  simp only [modifyCell, asset?, Array.getElem?_modify]

theorem asset?_isSome {s : Store} {c : CellId} : (s.asset? c).isSome ↔ c < s.cells.size := by
  simp [asset?]

/-! A registry under insertion, alone and with all its masters. -/

@[simp] theorem registry?_insertAt (r' : RegistryId) : registry? (insertAt t c s r) r' =
    if r = r' then (s.registry? r').map (·.put t c) else s.registry? r' := by
  simp only [insertAt, registry?, Array.getElem?_modify, registries_modifyCell]

@[simp] theorem size_registries_insertAt :
    (insertAt t c s r).registries.size = s.registries.size := by
  simp [insertAt]

@[simp] theorem master?_insertAt (r' : RegistryId) :
    (insertAt t c s r).master? r' = s.master? r' := by
  unfold master?
  rw [registry?_insertAt]
  split
  · cases s.registry? r' <;> rfl
  · rfl

@[simp] theorem size_cells_insertAt : (insertAt t c s r).cells.size = s.cells.size := by
  simp [insertAt]

theorem asset?_insertAt (d : CellId) : (insertAt t c s r).asset? d =
    if c = d then (s.asset? d).map ({ · with isMaster := (s.master? r).isNone })
    else s.asset? d := by
  exact asset?_modifyCell s c _ d

theorem chainFrom_congr {s s' : Store} (steps : Nat) (r : RegistryId)
    (h : ∀ r' ∈ s.chainFrom steps r, s'.master? r' = s.master? r') :
    s'.chainFrom steps r = s.chainFrom steps r := by
  induction steps generalizing r with
  | zero => rfl
  | succ steps ih =>
    have hr : s'.master? r = s.master? r := h r (by rw [chainFrom]; exact List.mem_cons_self)
    rw [chainFrom, chainFrom, hr]
    cases hm : s.master? r with
    | none => rfl
    | some m =>
      refine congrArg (r :: ·) (ih m fun r' hr' => h r' ?_)
      rw [chainFrom, hm]
      exact List.mem_cons_of_mem _ hr'

/-- A chain stays when no registry on it gets another master. -/
theorem chain_congr {s s' : Store} (hsize : s'.registries.size = s.registries.size)
    {r : RegistryId} (h : ∀ r' ∈ s.chain r, s'.master? r' = s.master? r') :
    s'.chain r = s.chain r := by
  rw [chain, chain, hsize]
  exact chainFrom_congr _ r h

/-- Insertion along a list of registries puts the cell into each of them. -/
theorem registry?_foldl_insertAt (rs : List RegistryId) (s : Store) (r' : RegistryId) :
    registry? (rs.foldl (insertAt t c) s) r' =
      if r' ∈ rs then (s.registry? r').map (·.put t c) else s.registry? r' := by
  induction rs generalizing s with
  | nil => simp
  | cons r rs ih =>
    rw [List.foldl_cons, ih (insertAt t c s r), registry?_insertAt]
    by_cases hr : r = r'
    · subst r'
      cases s.registry? r <;> simp [Registry.put]
    · have hr' : r' ≠ r := fun h => hr h.symm
      simp [hr, hr']

theorem size_foldl_insertAt (rs : List RegistryId) (s : Store) :
    (rs.foldl (insertAt t c) s).registries.size = s.registries.size ∧
      (rs.foldl (insertAt t c) s).cells.size = s.cells.size := by
  induction rs generalizing s with
  | nil => exact ⟨rfl, rfl⟩
  | cons r rs ih => simpa using ih (insertAt t c s r)

/-- Of a cell, insertion changes the note that it has reached a root. -/
theorem asset?_foldl_insertAt (rs : List RegistryId) (s : Store) : ∃ note : Asset → Asset,
    (∀ a, ∃ b, note a = { a with isMaster := b }) ∧ ∀ d, (rs.foldl (insertAt t c) s).asset? d =
      if c = d then (s.asset? d).map note else s.asset? d := by
  induction rs generalizing s with
  | nil => exact ⟨id, fun a => ⟨a.isMaster, rfl⟩, by simp⟩
  | cons r rs ih =>
    obtain ⟨note, hnote, hasset⟩ := ih (insertAt t c s r)
    refine ⟨fun a => note { a with isMaster := (s.master? r).isNone }, fun a => ?_, fun d => ?_⟩
    · obtain ⟨b, hb⟩ := hnote { a with isMaster := (s.master? r).isNone }
      exact ⟨b, hb⟩
    · rw [List.foldl_cons, hasset d, asset?_insertAt]
      split
      · rw [Option.map_map]
        rfl
      · rfl

theorem registry?_insert (r' : RegistryId) : registry? (s.insert r t c) r' =
    if r' ∈ s.chain r then (s.registry? r').map (·.put t c) else s.registry? r' :=
  registry?_foldl_insertAt t c (s.chain r) s r'

@[simp] theorem size_registries_insert :
    (s.insert r t c).registries.size = s.registries.size :=
  (size_foldl_insertAt t c (s.chain r) s).1

@[simp] theorem size_cells_insert : (s.insert r t c).cells.size = s.cells.size :=
  (size_foldl_insertAt t c (s.chain r) s).2

theorem snapshot_insert (r' : RegistryId) : (s.insert r t c).snapshot r' =
    if r' ∈ s.chain r ∧ (s.registry? r').isSome then putSlot t c (s.snapshot r')
    else s.snapshot r' := by
  unfold snapshot
  rw [registry?_insert]
  by_cases hchain : r' ∈ s.chain r <;> cases s.registry? r' <;> simp [hchain, Registry.put]

@[simp] theorem master?_insert (r' : RegistryId) : (s.insert r t c).master? r' = s.master? r' := by
  unfold master?
  rw [registry?_insert]
  split
  · cases s.registry? r' <;> rfl
  · rfl

@[simp] theorem chain_insert (r' : RegistryId) : (s.insert r t c).chain r' = s.chain r' :=
  chain_congr (size_registries_insert s r t c) fun r' _ => master?_insert s r t c r'

theorem mem_snapshot_insert {r' : RegistryId} {slot : Token × CellId}
    (h : slot ∈ (s.insert r t c).snapshot r') : slot = (t, c) ∨ slot ∈ s.snapshot r' := by
  rw [snapshot_insert] at h
  split at h
  · exact mem_putSlot h
  · exact .inr h

/-! Lookups read the registries alone. -/

section Congruence

variable {s s' : Store} (h : s'.registries = s.registries)
include h

theorem master?_of_registries (r : RegistryId) : s'.master? r = s.master? r := by
  unfold master? registry?
  rw [h]

theorem snapshot_of_registries (r : RegistryId) : s'.snapshot r = s.snapshot r := by
  unfold snapshot registry?
  rw [h]

theorem cellAt?_of_registries (r : RegistryId) (t : Token) : s'.cellAt? r t = s.cellAt? r t := by
  unfold cellAt? registry?
  rw [h]

theorem chain_of_registries (r : RegistryId) : s'.chain r = s.chain r :=
  chain_congr (congrArg Array.size h) fun r' _ => master?_of_registries h r'

theorem cellInChain?_of_registries (r : RegistryId) (t : Token) :
    s'.cellInChain? r t = s.cellInChain? r t := by
  unfold cellInChain?
  rw [chain_of_registries h]
  exact congrArg (List.findSome? · _) (funext fun r' => cellAt?_of_registries h r' t)

end Congruence

@[simp] theorem registries_tokenFor (origin : String) :
    (s.tokenFor r origin).1.registries = s.registries := rfl

/-! What a registration does, for an origin that the chain knows and for a new one. -/

theorem modifyCell_id (s : Store) (c : CellId) : s.modifyCell c (fun a => a) = s := by
  have hcells : s.cells.modify c (fun a => a) = s.cells := by
    refine Array.ext_getElem? fun i => ?_
    rw [Array.getElem?_modify]
    split <;> simp
  unfold modifyCell
  rw [hcells]

theorem register_fst_of_known {s : Store} {r : RegistryId} {origin : String} {c : CellId}
    (h : s.cellInChain? r (.ofOrigin origin) = some c) (source : Option Path) :
    (s.register r origin source).1 =
      ((s.tokenFor r origin).1.modifyCell c fun a => { a with source := source.getD a.source }).insert
        r (.ofOrigin origin) c := by
  have hcell : (s.tokenFor r origin).1.cellInChain? r (s.tokenFor r origin).2 = some c :=
    (cellInChain?_of_registries (registries_tokenFor s r origin) r _).trans h
  unfold register
  simp only [hcell]
  cases source with
  | none => exact congrArg (fun s : Store => s.insert r _ c) (modifyCell_id _ c).symm
  | some path => rfl

theorem register_fst_of_new {s : Store} {r : RegistryId} {origin : String}
    (h : s.cellInChain? r (.ofOrigin origin) = none) (source : Option Path) :
    (s.register r origin source).1 =
      ({ (s.tokenFor r origin).1 with
        cells := s.cells.push { source := source.getD ⟨origin⟩, token := .ofOrigin origin } } :
          Store).insert r (.ofOrigin origin) s.cells.size := by
  have hnone : (s.tokenFor r origin).1.cellInChain? r (s.tokenFor r origin).2 = none :=
    (cellInChain?_of_registries (registries_tokenFor s r origin) r _).trans h
  unfold register
  simp only [hnone]
  rfl

/-- A registration is the insertion of one cell, known or new, under the token of the origin. -/
theorem register_eq_insert (s : Store) (r : RegistryId) (origin : String) (source : Option Path) :
    ∃ (s₀ : Store) (c : CellId), (s.register r origin source).1 = s₀.insert r (.ofOrigin origin) c ∧
      s₀.registries = s.registries ∧
      (s.cellInChain? r (.ofOrigin origin) = some c ∧
          s₀.cells = (s.modifyCell c fun a => { a with source := source.getD a.source }).cells ∨
        s.cellInChain? r (.ofOrigin origin) = none ∧ c = s.cells.size ∧
          s₀.cells = s.cells.push { source := source.getD ⟨origin⟩, token := .ofOrigin origin }) := by
  cases hcell : s.cellInChain? r (.ofOrigin origin) with
  | some c => exact ⟨_, c, register_fst_of_known hcell source, rfl, .inl ⟨rfl, rfl⟩⟩
  | none => exact ⟨_, _, register_fst_of_new hcell source, rfl, .inr ⟨rfl, rfl, rfl⟩⟩

theorem token_register (s : Store) (r : RegistryId) (origin : String) (source : Option Path) :
    (s.register r origin source).2.token = .ofOrigin origin := by
  unfold register
  simp only [tokenFor]
  split <;> rfl

theorem nodup_tokens_insert {r' : RegistryId} (h : (s.tokens r').Nodup) :
    ((s.insert r t c).tokens r').Nodup := by
  unfold tokens at h ⊢
  rw [snapshot_insert]
  split
  · exact nodup_keys_putSlot h
  · exact h

end Store
end Bindery
