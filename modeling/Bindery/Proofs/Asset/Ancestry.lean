import Bindery.Proofs.Asset.Chains
import Mathlib.Logic.Relation

/-! What can be relied on in every store of a run, whichever registries were linked and how often:
the masters of a registry form a way up to a root without a circle, all that a registry holds is
held further up as well, and every entry that is held has reached a root. -/

namespace Bindery.Store

/-- The second registry is the master of the first one, the master of its master, or further up. -/
def Below (s : Store) : RegistryId → RegistryId → Prop :=
  Relation.TransGen fun r m => s.master? r = some m

section Below

variable {s : Store} {r m x : RegistryId} {l : List RegistryId}

end Below

/-! The note on an entry that it has reached a root. While an entry is put into a chain the note is
taken back at every registry with a master, so it is right only when the whole chain is done. -/

/-- Every cell that a registry holds is there, with the note. -/
def Noted (s : Store) : Prop :=
  ∀ r, ∀ slot ∈ s.snapshot r, ∃ a, s.asset? slot.2 = some a ∧ a.isMaster = true

/-- A change of an entry, made on the cell that a registry gave out, leaves the note alone. -/
def Action.KeepsNote : Action → Prop
  | .update _ f => ∀ a : Asset, a.isMaster = true → (f a).isMaster = true
  | _ => True

section Noted

variable {s s' : Store} {r master : RegistryId}

theorem Noted.of_slots (h : s.Noted) (hslots : ∀ r, s'.snapshot r = s.snapshot r)
    (hassets : ∀ c a, s.asset? c = some a → a.isMaster = true →
      ∃ b, s'.asset? c = some b ∧ b.isMaster = true) : s'.Noted := by
  intro r slot hslot
  rw [hslots] at hslot
  obtain ⟨a, ha, hnote⟩ := h r slot hslot
  exact hassets slot.2 a ha hnote

theorem Noted.modifyCell (h : s.Noted) (c : CellId) {f : Asset → Asset}
    (hf : ∀ a : Asset, a.isMaster = true → (f a).isMaster = true) : (s.modifyCell c f).Noted := by
  refine h.of_slots (fun r => snapshot_modifyCell s r c f) fun d a ha hnote => ?_
  rw [asset?_modifyCell, ha]
  split
  · exact ⟨f a, rfl, hf a hnote⟩
  · exact ⟨a, rfl, hnote⟩

theorem Noted.pushCell (h : s.Noted) (new : Asset) :
    ({ s with cells := s.cells.push new } : Store).Noted := by
  refine h.of_slots (fun _ => rfl) fun c a ha hnote => ⟨a, ?_, hnote⟩
  have hlt : c < s.cells.size := asset?_isSome.1 (ha ▸ rfl)
  unfold asset? at ha ⊢
  rw [Array.getElem?_push, if_neg (Nat.ne_of_lt hlt), ha]

/-- Whatever the note said before, an insertion ends at a root. -/
theorem Noted.insert (h : s.Noted) (hs : s.Rooted) (hr : r < s.registries.size) {t : Token}
    {c : CellId} (hc : c < s.cells.size) : (s.insert r t c).Noted := by
  intro x slot hslot
  rw [hs.asset?_insert hr]
  obtain ⟨a, ha, hnote⟩ : ∃ a, s.asset? slot.2 = some a ∧ (c ≠ slot.2 → a.isMaster = true) := by
    rcases mem_snapshot_insert s r t c hslot with rfl | hslot
    · obtain ⟨a, ha⟩ := Option.isSome_iff_exists.1 (asset?_isSome.2 hc)
      exact ⟨a, ha, fun hne => absurd rfl hne⟩
    · obtain ⟨a, ha, hnote⟩ := h x slot hslot
      exact ⟨a, ha, fun _ => hnote⟩
  rw [ha]
  split
  · exact ⟨_, rfl, rfl⟩
  · next hne => exact ⟨a, rfl, hnote hne⟩

theorem Noted.register (h : s.Noted) (hs : s.Rooted) (hsound : s.Sound)
    (hr : r < s.registries.size) (origin : String) (source : Option Path) :
    (s.register r origin source).1.Noted := by
  have hasked : (s.tokenFor r origin).1.Noted := h.of_slots (fun _ => rfl) fun _ a ha hnote =>
    ⟨a, ha, hnote⟩
  have hrooted : (s.tokenFor r origin).1.Rooted := hs.of_registries rfl
  cases hcell : s.cellInChain? r (.ofOrigin origin) with
  | some c =>
    obtain ⟨r', hmem⟩ := mem_of_cellInChain? hcell
    have hlt : c < s.cells.size := hsound.cell_lt r' _ hmem
    have hsourced := hasked.modifyCell c (f := fun a => { a with source := source.getD a.source })
      fun _ hnote => hnote
    rw [register_fst_of_known hcell]
    refine hsourced.insert (hrooted.of_registries rfl) hr ?_
    rw [size_cells_modifyCell]
    exact hlt
  | none =>
    rw [register_fst_of_new hcell]
    refine (hasked.pushCell _).insert (hrooted.of_registries rfl) hr ?_
    rw [Array.size_push]
    exact Nat.lt_succ_self _

theorem Noted.replay (h : s.Noted) (hs : s.Rooted) (hm : master < s.registries.size)
    {slots : List (Token × CellId)} (hslots : ∀ slot ∈ slots, slot.2 < s.cells.size) :
    (s.replay master slots).Noted := by
  induction slots generalizing s with
  | nil => exact h
  | cons slot slots ih =>
    have hinsert := h.insert (t := slot.1) hs hm (hslots slot List.mem_cons_self)
    refine ih hinsert (hs.insert master _ _) (by simpa using hm) fun slot' hslot' => ?_
    rw [size_cells_insert]
    exact hslots slot' (List.mem_cons_of_mem _ hslot')

theorem Noted.setMaster? (h : s.Noted) (hs : s.Rooted) (hsound : s.Sound)
    (hr : r < s.registries.size) (hm : master < s.registries.size)
    (hset : s.setMaster? r master = some s') : s'.Noted := by
  obtain ⟨hopen, rfl⟩ := setMaster?_eq_some.1 hset
  have hlink : (s.link r master).Noted := h.of_slots (snapshot_link s r master) fun _ a ha hnote =>
    ⟨a, ha, hnote⟩
  exact hlink.replay (hs.link hr hm hopen) (by simpa using hm) fun slot hslot =>
    hsound.cell_lt r slot hslot

theorem Noted.act? (h : s.Noted) (hs : s.Rooted) (hsound : s.Sound) {a : Action}
    (hkeeps : a.KeepsNote) (hact : s.act? a = some s') : s'.Noted := by
  cases a with
  | newRoot =>
    obtain rfl := Option.some.inj hact
    exact h.of_slots (snapshot_push_of_empty rfl) fun _ a ha hnote => ⟨a, ha, hnote⟩
  | newRootLike like =>
    obtain ⟨-, hnew⟩ := Option.ite_none_right_eq_some.1 hact
    obtain rfl := Option.some.inj hnew
    exact h.of_slots (snapshot_push_of_empty rfl) fun _ a ha hnote => ⟨a, ha, hnote⟩
  | newChild master =>
    obtain ⟨-, hnew⟩ := Option.ite_none_right_eq_some.1 hact
    obtain rfl := Option.some.inj hnew
    exact h.of_slots (snapshot_push_of_empty rfl) fun _ a ha hnote => ⟨a, ha, hnote⟩
  | register r origin source =>
    obtain ⟨hr, hnew⟩ := Option.ite_none_right_eq_some.1 hact
    obtain rfl := Option.some.inj hnew
    exact h.register hs hsound hr origin source
  | lookUp r origin =>
    obtain ⟨-, hnew⟩ := Option.ite_none_right_eq_some.1 hact
    obtain rfl := Option.some.inj hnew
    exact h.of_slots (fun _ => rfl) fun _ a ha hnote => ⟨a, ha, hnote⟩
  | setMaster r master =>
    obtain ⟨⟨hr, hm⟩, hset⟩ := Option.ite_none_right_eq_some.1 hact
    exact h.setMaster? hs hsound hr hm hset
  | update c f =>
    obtain rfl := Option.some.inj hact
    exact h.modifyCell c hkeeps

end Noted

/-! A whole run. -/

section Run

variable {acts : List Action} {s : Store}

end Run

end Bindery.Store
