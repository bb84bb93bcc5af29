import Bindery.Project.Document
import Bindery.Proofs.Rendering.References

/-! The origins that a document asks tokens for. Every store that the document is rendered with gets
the same of them registered. -/

namespace Bindery

namespace Store

variable (s : Store) (r r' : RegistryId)

/-- The table that a registry draws its tokens from. -/
def table : Nat := ((s.registry? r).map (·.memo)).getD 0

/-- The origins in a table. -/
def askedIn (i : Nat) : List String := (s.memos[i]?).getD []

theorem memos_insert (t : Token) (c : CellId) : (s.insert r t c).memos = s.memos := by
  unfold insert
  generalize s.chain r = rs
  induction rs generalizing s with
  | nil => rfl
  | cons r' rs ih => exact ih (insertAt t c s r')

theorem table_insert (t : Token) (c : CellId) : (s.insert r t c).table r' = s.table r' := by
  unfold table
  rw [registry?_insert]
  split
  · cases s.registry? r' <;> rfl
  · rfl

theorem memos_register (origin : String) (source : Option Path) :
    (s.register r origin source).1.memos = (s.tokenFor r origin).1.memos := by
  cases hcell : s.cellInChain? r (.ofOrigin origin) with
  | some c =>
    rw [register_fst_of_known hcell source, memos_insert]
    rfl
  | none => rw [register_fst_of_new hcell source, memos_insert]

theorem table_register (origin : String) (source : Option Path) :
    (s.register r origin source).1.table r' = s.table r' := by
  cases hcell : s.cellInChain? r (.ofOrigin origin) with
  | some c =>
    rw [register_fst_of_known hcell source, table_insert]
    rfl
  | none =>
    rw [register_fst_of_new hcell source, table_insert]
    rfl

variable {s r}

/-- A registration puts its origin into the table of its registry. -/
theorem mem_askedIn_register (h : s.table r < s.memos.size) (origin o : String)
    (source : Option Path) : o ∈ (s.register r origin source).1.askedIn (s.table r) ↔
      o ∈ s.askedIn (s.table r) ∨ o = origin := by
  have hmemos : (s.register r origin source).1.memos = s.memos.modify (s.table r) fun seen =>
    if seen.contains origin then seen else seen ++ [origin] := memos_register s r origin source
  unfold askedIn
  rw [hmemos, Array.getElem?_modify, if_pos rfl, Array.getElem?_eq_getElem h]
  simp only [Option.map_some, Option.getD_some]
  split
  · next hmem =>
    refine ⟨.inl, fun hor => hor.elim id fun heq => ?_⟩
    exact heq ▸ List.contains_iff_mem.1 hmem
  · rw [List.mem_append, List.mem_singleton]

theorem mem_askedIn_registerAll (h : s.table r < s.memos.size) (origins : List String) (o : String) :
    o ∈ (s.registerAll r origins).askedIn (s.table r) ↔ o ∈ s.askedIn (s.table r) ∨ o ∈ origins := by
  induction origins generalizing s with
  | nil => simp [registerAll]
  | cons origin origins ih =>
    have htable := table_register s r r origin none
    have hsize : (s.register r origin none).1.memos.size = s.memos.size := by
      rw [memos_register]
      exact Array.size_modify
    have hrest := ih (htable.symm ▸ hsize.symm ▸ h)
    rw [htable, mem_askedIn_register h] at hrest
    rw [List.mem_cons, ← or_assoc]
    exact hrest

end Store

namespace Document

/-- The origins that a document asks tokens for, as its rendering in a new root tells. -/
def origins (d : Document) : List String :=
  (Rendering.linkedDocument d.options 0 (d.source.parent?.getD ⟨"."⟩) (Store.newRoot {}).1
    d.nodes).2.store.askedIn 0

/-- With any store, rendering a document registers what it asks tokens for. -/
theorem linkedDocument_origins (d : Document) :
    ∃ (result : Except MarkupError (List Char)) (origins : List String) (outline : List Heading),
      (∀ r store, Rendering.linkedDocument d.options r (d.source.parent?.getD ⟨"."⟩) store d.nodes =
        (result, ⟨store.registerAll r origins, outline⟩)) ∧
      (∀ o, o ∈ d.origins ↔ o ∈ origins) ∧
      ∀ o ∈ origins, ∃ target, o = ((d.source.parent?.getD ⟨"."⟩).resolve target).text := by
  obtain ⟨result, origins, outline, horigins, hrun⟩ := Rendering.linkedDocument_eq d.options
    (d.source.parent?.getD ⟨"."⟩) d.nodes
  refine ⟨result, origins, outline, hrun, fun o => ?_, horigins⟩
  unfold Document.origins
  rw [hrun]
  have hasked := Store.mem_askedIn_registerAll (s := (Store.newRoot {}).1) (r := 0) Nat.one_pos
    origins o
  exact hasked.trans (or_iff_right List.not_mem_nil)

end Document
end Bindery
