import Bindery.Proofs.Asset.Reachable
import Mathlib.Data.List.Perm.Subperm

/-! The masters of a registry up to its root. Links are refused when they would close a circle, so
every walk over the masters ends, and a registry holds all that the registries below it hold. -/

namespace Bindery.Store

/-- The walk from a registry over its masters ends, and these are the registries it visits. -/
inductive Climbs (s : Store) : RegistryId → List RegistryId → Prop where
  | root {r} : s.master? r = none → Climbs s r [r]
  | step {r m l} : s.master? r = some m → Climbs s m l → Climbs s r (r :: l)

section Climbs

variable {s s' : Store} {r x m : RegistryId} {l l' : List RegistryId}

theorem Climbs.head_mem (h : s.Climbs r l) : r ∈ l := by
  cases h <;> exact List.mem_cons_self

theorem Climbs.unique (h : s.Climbs r l) (h' : s.Climbs r l') : l = l' := by
  induction h generalizing l' with
  | root hroot =>
    cases h' with
    | root => rfl
    | step hm => rw [hroot] at hm; cases hm
  | step hm _ ih =>
    cases h' with
    | root hroot => rw [hm] at hroot; cases hroot
    | step hm' h' =>
      obtain rfl := Option.some.inj (hm.symm.trans hm')
      rw [ih h']

/-- The walk from a registry on the way is the rest of the walk. -/
theorem Climbs.of_mem (h : s.Climbs r l) (hx : x ∈ l) : ∃ l', s.Climbs x l' ∧ l' <:+ l := by
  induction h with
  | root hroot =>
    obtain rfl := List.mem_singleton.1 hx
    exact ⟨_, .root hroot, List.suffix_refl _⟩
  | @step r m l hm h ih =>
    rcases List.mem_cons.1 hx with rfl | hx
    · exact ⟨_, .step hm h, List.suffix_refl _⟩
    · obtain ⟨l', hl', hsuffix⟩ := ih hx
      exact ⟨l', hl', hsuffix.trans (List.suffix_cons r l)⟩

theorem Climbs.nodup (h : s.Climbs r l) : l.Nodup := by
  induction h with
  | root => exact List.pairwise_singleton _ _
  | @step r m l hm h ih =>
    refine List.nodup_cons.2 ⟨fun hr => ?_, ih⟩
    obtain ⟨l', hl', hsuffix⟩ := h.of_mem hr
    have hlength := congrArg List.length ((Climbs.step hm h).unique hl')
    have hle := hsuffix.length_le
    rw [List.length_cons] at hlength
    omega

theorem Climbs.chainFrom_eq (h : s.Climbs r l) {steps : Nat} (hsteps : l.length ≤ steps) :
    s.chainFrom steps r = l := by
  induction h generalizing steps with
  | root hroot =>
    obtain ⟨n, rfl⟩ := Nat.exists_eq_succ_of_ne_zero (Nat.ne_zero_of_lt hsteps)
    rw [chainFrom, hroot]
  | step hm _ ih =>
    obtain ⟨n, rfl⟩ := Nat.exists_eq_succ_of_ne_zero (Nat.ne_zero_of_lt hsteps)
    rw [chainFrom, hm]
    exact congrArg _ (ih (Nat.le_of_succ_le_succ hsteps))

theorem Climbs.congr (h : s.Climbs r l) (hmaster : ∀ x ∈ l, s'.master? x = s.master? x) :
    s'.Climbs r l := by
  induction h with
  | root hroot => exact .root ((hmaster _ List.mem_cons_self).trans hroot)
  | step hm _ ih =>
    exact .step ((hmaster _ List.mem_cons_self).trans hm)
      (ih fun x hx => hmaster x (List.mem_cons_of_mem _ hx))

end Climbs

/-- Every master is there, and every walk over masters ends. -/
structure Rooted (s : Store) : Prop where
  master_lt : ∀ {r m}, s.master? r = some m → m < s.registries.size
  climbs : ∀ r, r < s.registries.size → ∃ l, s.Climbs r l

theorem lt_of_master? {s : Store} {r m : RegistryId} (h : s.master? r = some m) :
    r < s.registries.size := by
  by_contra hr
  have hnone : s.registry? r = none := Array.getElem?_eq_none (Nat.le_of_not_lt hr)
  rw [master?, hnone] at h
  cases h

section Rooted

variable {s s' : Store} {r x m : RegistryId} {l : List RegistryId}

theorem Rooted.lt_of_mem (hs : s.Rooted) (h : s.Climbs r l) (hr : r < s.registries.size) :
    ∀ x ∈ l, x < s.registries.size := by
  induction h with
  | root => exact fun x hx => List.mem_singleton.1 hx ▸ hr
  | step hm _ ih =>
    intro x hx
    rcases List.mem_cons.1 hx with rfl | hx
    · exact hr
    · exact ih (hs.master_lt hm) x hx

theorem Rooted.chain_eq (hs : s.Rooted) (h : s.Climbs r l) (hr : r < s.registries.size) :
    s.chain r = l := by
  have hlt : ∀ x ∈ l, x ∈ List.range s.registries.size := fun x hx =>
    List.mem_range.2 (hs.lt_of_mem h hr x hx)
  have hlength := (List.subperm_of_subset h.nodup hlt).length_le
  rw [List.length_range] at hlength
  exact h.chainFrom_eq hlength

theorem Rooted.climbs_chain (hs : s.Rooted) (hr : r < s.registries.size) :
    s.Climbs r (s.chain r) := by
  obtain ⟨l, hl⟩ := hs.climbs r hr
  rwa [hs.chain_eq hl hr]

theorem Rooted.self_mem (hs : s.Rooted) (hr : r < s.registries.size) : r ∈ s.chain r :=
  (hs.climbs_chain hr).head_mem

theorem Rooted.chain_lt (hs : s.Rooted) (hr : r < s.registries.size) (hx : x ∈ s.chain r) :
    x < s.registries.size :=
  hs.lt_of_mem (hs.climbs_chain hr) hr x hx

/-- The chain of a master is the rest of the chain. -/
theorem Rooted.chain_of_master (hs : s.Rooted) (hm : s.master? r = some m) :
    s.chain r = r :: s.chain m :=
  hs.chain_eq (.step hm (hs.climbs_chain (hs.master_lt hm))) (lt_of_master? hm)

theorem Rooted.chain_of_root (hs : s.Rooted) (hr : r < s.registries.size)
    (hroot : s.master? r = none) : s.chain r = [r] :=
  hs.chain_eq (.root hroot) hr

theorem Rooted.chain_suffix (hs : s.Rooted) (hr : r < s.registries.size) (hx : x ∈ s.chain r) :
    s.chain x <:+ s.chain r := by
  obtain ⟨l, hl, hsuffix⟩ := (hs.climbs_chain hr).of_mem hx
  rwa [hs.chain_eq hl (hs.chain_lt hr hx)]

theorem Rooted.chain_trans (hs : s.Rooted) (hr : r < s.registries.size) (hx : x ∈ s.chain r)
    (hm : m ∈ s.chain x) : m ∈ s.chain r :=
  (hs.chain_suffix hr hx).subset hm

/-- Of two registries on one chain, one is among the masters of the other. -/
theorem Rooted.chain_total (hs : s.Rooted) (hr : r < s.registries.size) (hx : x ∈ s.chain r)
    (hm : m ∈ s.chain r) : m ∈ s.chain x ∨ x ∈ s.chain m := by
  have hsuffix := List.suffix_or_suffix_of_suffix (hs.chain_suffix hr hx) (hs.chain_suffix hr hm)
  rcases hsuffix with h | h
  · exact .inr (h.subset (hs.self_mem (hs.chain_lt hr hx)))
  · exact .inl (h.subset (hs.self_mem (hs.chain_lt hr hm)))

theorem Rooted.of_master (hs : s.Rooted) (hsize : s'.registries.size = s.registries.size)
    (hmaster : ∀ r, s'.master? r = s.master? r) : s'.Rooted := by
  refine ⟨fun {r m} hm => ?_, fun r hr => ?_⟩
  · rw [hmaster] at hm
    exact hsize ▸ hs.master_lt hm
  · obtain ⟨l, hl⟩ := hs.climbs r (hsize ▸ hr)
    exact ⟨l, hl.congr fun x _ => hmaster x⟩

theorem Rooted.of_registries (hs : s.Rooted) (hsame : s'.registries = s.registries) : s'.Rooted :=
  hs.of_master (congrArg Array.size hsame) (master?_of_registries hsame)

theorem master?_push (s : Store) (registry : Registry) (memos : Array (List String))
    (r : RegistryId) :
    ({ s with registries := s.registries.push registry, memos := memos } : Store).master? r =
      if r = s.registries.size then registry.master else s.master? r := by
  unfold master? registry?
  rw [Array.getElem?_push]
  split <;> rfl

theorem snapshot_size (s : Store) : s.snapshot s.registries.size = [] := by
  simp [snapshot, registry?]

theorem snapshot_push_of_empty {registry : Registry} (hslots : registry.slots = [])
    {memos : Array (List String)} (r : RegistryId) :
    snapshot { s with registries := s.registries.push registry, memos := memos } r =
      s.snapshot r := by
  by_cases hr : r = s.registries.size
  · subst r
    rw [snapshot_size]
    simp [snapshot, registry?, hslots]
  · simp [snapshot, registry?, Array.getElem?_push, hr]

/-- A new registry may have one of the old ones as its master. -/
theorem Rooted.push (hs : s.Rooted) (registry : Registry) (memos : Array (List String))
    (hnew : ∀ m, registry.master = some m → m < s.registries.size) :
    ({ s with registries := s.registries.push registry, memos := memos } : Store).Rooted := by
  have hsize : (s.registries.push registry).size = s.registries.size + 1 := Array.size_push _
  have hold : ∀ r, r < s.registries.size → ∃ l, Store.Climbs
      { s with registries := s.registries.push registry, memos := memos } r l := by
    intro r hr
    have h := hs.climbs_chain hr
    refine ⟨_, h.congr fun x hx => ?_⟩
    rw [master?_push, if_neg (Nat.ne_of_lt (hs.lt_of_mem h hr x hx))]
  refine ⟨fun {r m} hm => ?_, fun r hr => ?_⟩
  · rw [master?_push] at hm
    rw [hsize]
    split at hm
    · exact Nat.lt_succ_of_lt (hnew m hm)
    · exact Nat.lt_succ_of_lt (hs.master_lt hm)
  · rw [hsize] at hr
    rcases Nat.lt_succ_iff_lt_or_eq.1 hr with hr | rfl
    · exact hold r hr
    · have hmaster := master?_push s registry memos s.registries.size
      rw [if_pos rfl] at hmaster
      cases hm : registry.master with
      | none => exact ⟨_, .root (hmaster.trans hm)⟩
      | some m =>
        obtain ⟨l, hl⟩ := hold m (hnew m hm)
        exact ⟨_, .step (hmaster.trans hm) hl⟩

theorem Rooted.chain_push (hs : s.Rooted) {registry : Registry} {memos : Array (List String)}
    (hnew : ∀ m, registry.master = some m → m < s.registries.size) (hr : r < s.registries.size) :
    chain { s with registries := s.registries.push registry, memos := memos } r = s.chain r := by
  refine (hs.push registry memos hnew).chain_eq ((hs.climbs_chain hr).congr fun x hx => ?_) ?_
  · rw [master?_push, if_neg (Nat.ne_of_lt (hs.chain_lt hr hx))]
  · rw [Array.size_push]
    exact Nat.lt_succ_of_lt hr

/-! A link that closes no circle. -/

@[simp] theorem size_registries_link (s : Store) (r master : RegistryId) :
    (s.link r master).registries.size = s.registries.size := by
  simp [Store.link]

theorem master?_link (hr : r < s.registries.size) (master x : RegistryId) :
    (s.link r master).master? x = if r = x then some master else s.master? x := by
  have hsome : s.registry? r = some s.registries[r] := Array.getElem?_eq_getElem hr
  unfold master?
  rw [registry?_link]
  split
  · next h => subst h; rw [hsome]; rfl
  · rfl

theorem Rooted.link (hs : s.Rooted) {master : RegistryId} (hr : r < s.registries.size)
    (hm : master < s.registries.size) (hopen : r ∉ s.chain master) : (s.link r master).Rooted := by
  have hsize := size_registries_link s r master
  have hlink := master?_link (s := s) hr master
  have hmaster : (s.link r master).Climbs master (s.chain master) := by
    refine (hs.climbs_chain hm).congr fun x hx => ?_
    have hne : r ≠ x := fun h => hopen (h ▸ hx)
    rw [hlink, if_neg hne]
  refine ⟨fun {x m} hx => ?_, fun x hx => ?_⟩
  · rw [hlink] at hx
    rw [hsize]
    split at hx
    · exact Option.some.inj hx ▸ hm
    · exact hs.master_lt hx
  · obtain ⟨l, hl⟩ := hs.climbs x (hsize ▸ hx)
    clear hx
    induction hl with
    | @root x hroot =>
      by_cases h : r = x
      · exact ⟨_, .step ((hlink x).trans (if_pos h)) hmaster⟩
      · exact ⟨_, .root ((hlink x).trans ((if_neg h).trans hroot))⟩
    | @step x m l hstep _ ih =>
      by_cases h : r = x
      · exact ⟨_, .step ((hlink x).trans (if_pos h)) hmaster⟩
      · obtain ⟨l', hl'⟩ := ih
        exact ⟨_, .step ((hlink x).trans ((if_neg h).trans hstep)) hl'⟩

/-- What a link adds to the chains through the registry is the chain of its new master. -/
theorem Rooted.mem_chain_link (hs : s.Rooted) {master : RegistryId} (hr : r < s.registries.size)
    (hm : master < s.registries.size) (hopen : r ∉ s.chain master) (hx : x < s.registries.size)
    {y : RegistryId} (hy : y ∈ (s.link r master).chain x) :
    y ∈ s.chain x ∨ r ∈ s.chain x ∧ y ∈ s.chain master := by
  have hrooted := hs.link hr hm hopen
  have hsize := size_registries_link s r master
  have hlink := master?_link (s := s) hr master
  have hclimbs := hs.climbs_chain hx
  generalize s.chain x = l at hclimbs ⊢
  induction hclimbs with
  | @root x hroot =>
    by_cases h : r = x
    · subst h
      rw [hrooted.chain_of_master ((hlink r).trans (if_pos rfl)), chain_link hopen] at hy
      rcases List.mem_cons.1 hy with rfl | hy
      · exact .inl List.mem_cons_self
      · exact .inr ⟨List.mem_cons_self, hy⟩
    · rw [hrooted.chain_of_root (hsize ▸ hx) ((hlink x).trans ((if_neg h).trans hroot))] at hy
      exact .inl hy
  | @step x m l hstep hclimbs ih =>
    by_cases h : r = x
    · subst h
      rw [hrooted.chain_of_master ((hlink r).trans (if_pos rfl)), chain_link hopen] at hy
      rcases List.mem_cons.1 hy with rfl | hy
      · exact .inl List.mem_cons_self
      · exact .inr ⟨List.mem_cons_self, hy⟩
    · rw [hrooted.chain_of_master ((hlink x).trans ((if_neg h).trans hstep))] at hy
      rcases List.mem_cons.1 hy with rfl | hy
      · exact .inl List.mem_cons_self
      · rcases ih (hs.master_lt hstep) hy with hy | ⟨hmem, hy⟩
        · exact .inl (List.mem_cons_of_mem _ hy)
        · exact .inr ⟨List.mem_cons_of_mem _ hmem, hy⟩

end Rooted

/-! What one registry holds, its master holds too. -/

def Closed (s : Store) : Prop := ∀ r m, s.master? r = some m → s.tokens r ⊆ s.tokens m

section Closed

variable {s s' : Store} {r x m : RegistryId}

theorem Closed.of_mem_chain (h : s.Closed) (hs : s.Rooted) (hr : r < s.registries.size)
    (hm : m ∈ s.chain r) : s.tokens r ⊆ s.tokens m := by
  have hclimbs := hs.climbs_chain hr
  generalize s.chain r = l at hclimbs hm
  induction hclimbs with
  | root => rw [List.mem_singleton.1 hm]; exact List.Subset.refl _
  | step hstep _ ih =>
    rcases List.mem_cons.1 hm with rfl | hm
    · exact List.Subset.refl _
    · exact List.Subset.trans (h _ _ hstep) (ih (hs.master_lt hstep) hm)

theorem tokens_insert_of_mem {t : Token} {c : CellId} (hx : x ∈ s.chain r)
    (hlt : x < s.registries.size) : (s.insert r t c).tokens x =
      if t ∈ s.tokens x then s.tokens x else s.tokens x ++ [t] := by
  have hsome : (s.registry? x).isSome := by simpa [ registry?] using hlt
  rw [tokens, snapshot_insert, if_pos ⟨hx, hsome⟩, keys_putSlot, ← tokens]

theorem tokens_insert_of_notMem {t : Token} {c : CellId} (hx : x ∉ s.chain r) :
    (s.insert r t c).tokens x = s.tokens x := by
  rw [tokens, snapshot_insert, if_neg fun h => hx h.1, ← tokens]

theorem tokens_subset_insert (t : Token) (c : CellId) : s.tokens x ⊆ (s.insert r t c).tokens x := by
  unfold tokens
  rw [snapshot_insert]
  split
  · rw [keys_putSlot]
    split
    · exact List.Subset.refl _
    · exact List.subset_append_left _ _
  · exact List.Subset.refl _

theorem mem_tokens_insert {t : Token} {c : CellId} (hx : x ∈ s.chain r)
    (hlt : x < s.registries.size) : t ∈ (s.insert r t c).tokens x := by
  rw [tokens_insert_of_mem hx hlt]
  split
  · assumption
  · exact List.mem_append_right _ (List.mem_singleton.2 rfl)

/-- An insertion keeps the link from `x` to `m` closed when both or neither get the token, or when
`m` alone gets it. -/
theorem Rooted.tokens_subset_insert (hs : s.Rooted) (hr : r < s.registries.size) {t : Token}
    {c : CellId} (hm : s.master? x = some m) (h : s.tokens x ⊆ s.tokens m) :
    (s.insert r t c).tokens x ⊆ (s.insert r t c).tokens m := by
  intro u hu
  by_cases hx : x ∈ s.chain r
  · have hmem : m ∈ s.chain r := by
      refine hs.chain_trans hr hx ?_
      rw [hs.chain_of_master hm]
      exact List.mem_cons_of_mem _ (hs.self_mem (hs.master_lt hm))
    rw [tokens_insert_of_mem hx (hs.chain_lt hr hx)] at hu
    split at hu
    · exact Store.tokens_subset_insert t c (h hu)
    · rcases List.mem_append.1 hu with hu | hu
      · exact Store.tokens_subset_insert t c (h hu)
      · exact List.mem_singleton.1 hu ▸ mem_tokens_insert hmem (hs.master_lt hm)
  · rw [tokens_insert_of_notMem hx] at hu
    exact Store.tokens_subset_insert t c (h hu)

theorem Closed.insert (h : s.Closed) (hs : s.Rooted) (hr : r < s.registries.size) (t : Token)
    (c : CellId) : (s.insert r t c).Closed := by
  intro x m hm
  rw [master?_insert] at hm
  exact hs.tokens_subset_insert hr hm (h x m hm)

theorem Rooted.insert (hs : s.Rooted) (r : RegistryId) (t : Token) (c : CellId) :
    (s.insert r t c).Rooted :=
  hs.of_master (by simp) fun x => master?_insert s r t c x

theorem Closed.of_registries (h : s.Closed) (hsame : s'.registries = s.registries) :
    s'.Closed := by
  intro x m hm
  rw [master?_of_registries hsame] at hm
  unfold tokens
  rw [snapshot_of_registries hsame, snapshot_of_registries hsame]
  exact h x m hm

theorem Closed.push (h : s.Closed) {registry : Registry} (hslots : registry.slots = [])
    (memos : Array (List String)) :
    ({ s with registries := s.registries.push registry, memos := memos } : Store).Closed := by
  intro x m hm
  rw [master?_push] at hm
  unfold tokens
  rw [snapshot_push_of_empty hslots, snapshot_push_of_empty hslots]
  split at hm
  · next hx =>
    subst hx
    rw [snapshot_size]
    exact List.nil_subset _
  · exact h x m hm

end Closed

/-! An entry that is put into a chain has reached a root. -/

theorem Climbs.asset?_foldl_insertAt {s : Store} {r : RegistryId} {l : List RegistryId}
    (h : s.Climbs r l) (t : Token) (c d : CellId) : (l.foldl (insertAt t c) s).asset? d =
      if c = d then (s.asset? d).map ({ · with isMaster := true }) else s.asset? d := by
  induction l generalizing s r with
  | nil => cases h
  | cons x l ih =>
    rw [List.foldl_cons]
    cases h with
    | root hroot =>
      rw [List.foldl_nil, asset?_insertAt, hroot]
      rfl
    | step hm h =>
      rw [ih (h.congr fun y _ => master?_insertAt s x t c y), asset?_insertAt]
      split
      · rw [Option.map_map]
        rfl
      · rfl

theorem Rooted.asset?_insert {s : Store} {r : RegistryId} (hs : s.Rooted)
    (hr : r < s.registries.size) (t : Token) (c d : CellId) : (s.insert r t c).asset? d =
      if c = d then (s.asset? d).map ({ · with isMaster := true }) else s.asset? d :=
  (hs.climbs_chain hr).asset?_foldl_insertAt t c d

/-! A registry that gets a master puts its entries into the chain of that master. -/

/-- Puts entries into a chain, one after the other. -/
def replay (s : Store) (master : RegistryId) (slots : List (Token × CellId)) : Store :=
  slots.foldl (fun s slot => s.insert master slot.1 slot.2) s

section SetMaster

variable {s s' : Store} {r x m master : RegistryId}

theorem setMaster?_eq_some : s.setMaster? r master = some s' ↔
    r ∉ s.chain master ∧ (s.link r master).replay master (s.snapshot r) = s' := by
  unfold setMaster?
  by_cases h : r ∈ s.chain master
  · simp [h]
  · rw [if_neg (by simpa using h)]
    exact ⟨fun heq => ⟨h, Option.some.inj heq⟩, fun heq => congrArg some heq.2⟩

@[simp] theorem size_registries_replay (s : Store) (slots : List (Token × CellId)) :
    (s.replay master slots).registries.size = s.registries.size := by
  induction slots generalizing s with
  | nil => rfl
  | cons slot slots ih => exact (ih _).trans (size_registries_insert s master _ _)

@[simp] theorem master?_replay (s : Store) (slots : List (Token × CellId)) (x : RegistryId) :
    (s.replay master slots).master? x = s.master? x := by
  induction slots generalizing s with
  | nil => rfl
  | cons slot slots ih => exact (ih _).trans (master?_insert s master _ _ x)

@[simp] theorem chain_replay (s : Store) (slots : List (Token × CellId)) (x : RegistryId) :
    (s.replay master slots).chain x = s.chain x :=
  chain_congr (size_registries_replay s slots) fun x _ => master?_replay s slots x

theorem tokens_subset_replay (s : Store) (slots : List (Token × CellId)) (x : RegistryId) :
    s.tokens x ⊆ (s.replay master slots).tokens x := by
  induction slots generalizing s with
  | nil => exact List.Subset.refl _
  | cons slot slots ih => exact List.Subset.trans (tokens_subset_insert _ _) (ih _)

theorem tokens_replay_of_notMem {slots : List (Token × CellId)} (hx : x ∉ s.chain master) :
    (s.replay master slots).tokens x = s.tokens x := by
  induction slots generalizing s with
  | nil => rfl
  | cons slot slots ih =>
    have hinsert : x ∉ (s.insert master slot.1 slot.2).chain master := by rwa [chain_insert]
    exact (ih hinsert).trans (tokens_insert_of_notMem hx)

theorem Rooted.mem_tokens_replay (hs : s.Rooted) (hm : master < s.registries.size)
    {slots : List (Token × CellId)} : slots.map Prod.fst ⊆ (s.replay master slots).tokens master := by
  induction slots generalizing s with
  | nil => exact List.nil_subset _
  | cons slot slots ih =>
    intro t ht
    rw [List.map_cons, List.mem_cons] at ht
    rcases ht with rfl | ht
    · exact tokens_subset_replay _ slots master (mem_tokens_insert (hs.self_mem hm) hm)
    · exact ih (hs.insert master _ _) (by simpa using hm) ht

theorem Rooted.replay (hs : s.Rooted) (master : RegistryId) (slots : List (Token × CellId)) :
    (s.replay master slots).Rooted :=
  hs.of_master (size_registries_replay s slots) (master?_replay s slots)

theorem Rooted.tokens_subset_replay (hs : s.Rooted) (hmaster : master < s.registries.size)
    (hm : s.master? x = some m) (h : s.tokens x ⊆ s.tokens m) (slots : List (Token × CellId)) :
    (s.replay master slots).tokens x ⊆ (s.replay master slots).tokens m := by
  induction slots generalizing s with
  | nil => exact h
  | cons slot slots ih =>
    exact ih (hs.insert master _ _) (by simpa using hmaster) (by simpa using hm)
      (hs.tokens_subset_insert hmaster hm h)

/-- The registry's own entries are what the new link needs, every other link was closed before. -/
theorem Closed.setMaster? (h : s.Closed) (hs : s.Rooted) (hr : r < s.registries.size)
    (hmaster : master < s.registries.size) (hset : s.setMaster? r master = some s') :
    s'.Closed := by
  obtain ⟨hopen, rfl⟩ := setMaster?_eq_some.1 hset
  have hlink := hs.link hr hmaster hopen
  have hlt : master < (s.link r master).registries.size := by simpa using hmaster
  intro x m hm
  rw [master?_replay, master?_link hr] at hm
  split at hm
  · next hx =>
    obtain rfl := Option.some.inj hm
    subst hx
    have hout : r ∉ (s.link r master).chain master := by rwa [chain_link hopen]
    rw [tokens_replay_of_notMem hout, tokens, snapshot_link]
    exact hlink.mem_tokens_replay hlt
  · next hx =>
    refine hlink.tokens_subset_replay hlt ((master?_link hr master x).trans ((if_neg hx).trans hm))
      ?_ _
    unfold tokens
    rw [snapshot_link, snapshot_link]
    exact h x m hm

theorem Rooted.setMaster? (hs : s.Rooted) (hr : r < s.registries.size)
    (hmaster : master < s.registries.size) (hset : s.setMaster? r master = some s') :
    s'.Rooted := by
  obtain ⟨hopen, rfl⟩ := setMaster?_eq_some.1 hset
  exact (hs.link hr hmaster hopen).replay master _

end SetMaster

/-! Both hold in every store that can be reached. -/

section Reachable

variable {s s' : Store} {a : Action}

/-- An action sets a master, or it adds an empty registry, puts one cell into a chain or leaves the
registries as they are. -/
theorem act?_cases (h : s.act? a = some s') :
    (∃ r master, a = .setMaster r master ∧ r < s.registries.size ∧
      master < s.registries.size ∧ s.setMaster? r master = some s') ∨
    (∀ r master, a ≠ .setMaster r master) ∧
      ((∃ registry memos, registry.slots = [] ∧
        (∀ m, registry.master = some m → m < s.registries.size) ∧
        s' = { s with registries := s.registries.push registry, memos := memos }) ∨
      (∃ r origin source, r < s.registries.size ∧ s' = (s.register r origin source).1) ∨
      s'.registries = s.registries) := by
  cases a with
  | newRoot =>
    obtain rfl := Option.some.inj h
    exact .inr ⟨(fun _ _ heq => by cases heq), .inl ⟨{ memo := s.memos.size }, _, rfl,
      fun m hm => absurd hm (Option.some_ne_none m).symm, rfl⟩⟩
  | newRootLike like =>
    obtain ⟨-, hnew⟩ := Option.ite_none_right_eq_some.1 h
    obtain rfl := Option.some.inj hnew
    exact .inr ⟨(fun _ _ heq => by cases heq), .inl
      ⟨{ memo := ((s.registry? like).map (·.memo)).getD 0 }, _, rfl,
        fun m hm => absurd hm (Option.some_ne_none m).symm, rfl⟩⟩
  | newChild master =>
    obtain ⟨hmaster, hnew⟩ := Option.ite_none_right_eq_some.1 h
    obtain rfl := Option.some.inj hnew
    exact .inr ⟨(fun _ _ heq => by cases heq), .inl
      ⟨{ master := some master, memo := ((s.registry? master).map (·.memo)).getD 0 }, _, rfl,
        fun m hm => Option.some.inj hm ▸ hmaster, rfl⟩⟩
  | register r origin source =>
    obtain ⟨hr, hnew⟩ := Option.ite_none_right_eq_some.1 h
    exact .inr ⟨(fun _ _ heq => by cases heq), .inr (.inl ⟨r, origin, source, hr, (Option.some.inj hnew).symm⟩)⟩
  | lookUp r origin =>
    obtain ⟨-, hnew⟩ := Option.ite_none_right_eq_some.1 h
    obtain rfl := Option.some.inj hnew
    exact .inr ⟨(fun _ _ heq => by cases heq), .inr (.inr rfl)⟩
  | setMaster r master =>
    obtain ⟨⟨hr, hmaster⟩, hset⟩ := Option.ite_none_right_eq_some.1 h
    exact .inl ⟨r, master, rfl, hr, hmaster, hset⟩
  | update c f =>
    obtain rfl := Option.some.inj h
    exact .inr ⟨(fun _ _ heq => by cases heq), .inr (.inr rfl)⟩

theorem Rooted.act? (hs : s.Rooted) (h : s.act? a = some s') : s'.Rooted := by
  rcases act?_cases h with ⟨r, master, -, hr, hmaster, hset⟩ | ⟨-,
    ⟨registry, memos, -, hmaster, rfl⟩ | ⟨r, origin, source, hr, rfl⟩ | hsame⟩
  · exact hs.setMaster? hr hmaster hset
  · exact hs.push registry memos hmaster
  · obtain ⟨s₀, c, heq, hregistries, -⟩ := register_eq_insert s r origin source
    rw [heq]
    exact (hs.of_registries hregistries).insert r _ c
  · exact hs.of_registries hsame

theorem Closed.act? (hc : s.Closed) (hs : s.Rooted) (h : s.act? a = some s') : s'.Closed := by
  rcases act?_cases h with ⟨r, master, -, hr, hmaster, hset⟩ | ⟨-,
    ⟨registry, memos, hslots, -, rfl⟩ | ⟨r, origin, source, hr, rfl⟩ | hsame⟩
  · exact hc.setMaster? hs hr hmaster hset
  · exact hc.push hslots memos
  · obtain ⟨s₀, c, heq, hregistries, -⟩ := register_eq_insert s r origin source
    rw [heq]
    exact (hc.of_registries hregistries).insert (hs.of_registries hregistries)
      (hregistries ▸ hr) _ c
  · exact hc.of_registries hsame

theorem Reachable.rooted (h : s.Reachable) : s.Rooted := by
  induction h with
  | empty => exact ⟨fun h => absurd (lt_of_master? h) (Nat.not_lt_zero _),
      fun r hr => absurd hr (Nat.not_lt_zero r)⟩
  | act a _ hact ih => exact ih.act? hact

theorem Reachable.closed (h : s.Reachable) : s.Closed := by
  induction h with
  | empty => exact fun r m hm => absurd (lt_of_master? hm) (Nat.not_lt_zero _)
  | act a hreach hact ih => exact ih.act? hreach.rooted hact

end Reachable

end Bindery.Store
