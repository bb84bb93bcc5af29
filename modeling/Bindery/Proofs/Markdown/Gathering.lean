import Bindery.Markdown.Block
import Mathlib.Data.List.Infix

/-! The blocks that a container's entries come to. A block among the entries parts what is before it
from what is behind it, and an item goes into a list at a place that the entries before it fix. -/

namespace Bindery.Markdown.Block

variable {X E : List Entry} {g g' : Gathered}

namespace Gathered

/-- The same is gathered in front of further blocks. A gap counts within a list only. -/
structure Over (further : List Block) (g g' : Gathered) : Prop where
  run : g'.run = g.run
  gap : g.run ≠ none → g'.gap = g.gap
  blocks : g'.blocks = g.blocks ++ further

theorem Over.close {further : List Block} (h : Over further g g') : Over further g.close g'.close := by
  have hrun := h.run
  unfold Gathered.close
  rw [hrun]
  cases hg : g.run with
  | none => exact ⟨hrun, h.gap, h.blocks⟩
  | some r => exact ⟨rfl, nofun, congrArg (r.list :: ·) h.blocks⟩

theorem Over.add {further : List Block} (h : Over further g g') (e : Entry) :
    Over further (g.add e) (g'.add e) := by
  cases e with
  | blank => exact ⟨h.run, fun _ => rfl, h.blocks⟩
  | block b => exact ⟨h.close.run, fun _ => rfl, congrArg (b :: ·) h.close.blocks⟩
  | item marker number spread children =>
    unfold Gathered.add
    rw [h.run]
    cases hg : g.run with
    | none => exact ⟨rfl, fun _ => rfl, h.close.blocks⟩
    | some r =>
      dsimp only
      split
      · refine ⟨?_, fun _ => rfl, h.blocks⟩
        rw [h.gap (by rw [hg]; nofun)]
      · exact ⟨rfl, fun _ => rfl, h.close.blocks⟩

theorem Over.foldl {further : List Block} (h : Over further g g') (E : List Entry) :
    Over further (E.foldl Gathered.add g) (E.foldl Gathered.add g') := by
  induction E generalizing g g' with
  | nil => exact h
  | cons e E ih => exact ih (h.add e)

theorem run_add_item (g : Gathered) (marker : Char) (number : Nat) (spread : Bool)
    (children : List Block) : ∃ r more, (g.add (.item marker number spread children)).run = some r ∧
      r.marker = marker ∧ r.items = .item spread children :: more ∧ (g.run = none → more = []) := by
  unfold Gathered.add
  dsimp only
  cases g.run with
  | none => exact ⟨_, _, rfl, rfl, rfl, fun _ => rfl⟩
  | some r =>
    dsimp only
    split
    · exact ⟨_, _, rfl, rfl, rfl, nofun⟩
    · exact ⟨_, _, rfl, rfl, rfl, nofun⟩

/-- What no list goes on into is gathered apart. -/
theorem blocks_foldl_of_none (h : g.run = none) (E : List Entry) :
    (E.foldl add g).close.blocks = (gather E).blocks ++ g.blocks := by
  have hover : Over g.blocks Gathered.empty g := ⟨h, fun hne => absurd rfl hne, rfl⟩
  exact (hover.foldl E).close.blocks

end Gathered

theorem gather_append (X E : List Entry) :
    gather (X ++ E) = (E.foldl Gathered.add (X.foldl Gathered.add Gathered.empty)).close := by
  rw [gather, List.foldl_append]

theorem blocks_gather_block (X : List Entry) (b : Block) (E : List Entry) :
    (gather (X ++ .block b :: E)).blocks = (gather E).blocks ++ b :: (gather X).blocks := by
  have hnone : ((X.foldl Gathered.add Gathered.empty).add (.block b)).run = none := by
    unfold Gathered.add Gathered.parted Gathered.close
    dsimp only
    split
    · next hrun => exact hrun
    · rfl
  rw [gather_append, List.foldl_cons, Gathered.blocks_foldl_of_none hnone]
  rfl

theorem foldl_blanks (hX : ∀ e ∈ X, e = .blank) :
    ∃ gap, X.foldl Gathered.add Gathered.empty = ⟨none, gap, false, []⟩ := by
  have hstep : ∀ gap, ∃ gap', X.foldl Gathered.add ⟨none, gap, false, []⟩ = ⟨none, gap', false, []⟩ := by
    induction X with
    | nil => exact fun gap => ⟨gap, rfl⟩
    | cons e X ih =>
      intro gap
      cases hX e List.mem_cons_self
      exact ih (fun e he => hX e (List.mem_cons_of_mem _ he)) true
  exact hstep false

/-- Blank lines at the end change nothing. -/
theorem gather_blanks (hX : ∀ e ∈ X, e = .blank) (E : List Entry) :
    (gather (X ++ E)).blocks = (gather E).blocks ∧ (gather (X ++ E)).spread = (gather E).spread := by
  have hgap (gap : Bool) : (E.foldl Gathered.add ⟨none, gap, false, []⟩).close.blocks =
      (gather E).blocks ∧
      (E.foldl Gathered.add ⟨none, gap, false, []⟩).close.spread = (gather E).spread := by
    cases E with
    | nil => exact ⟨rfl, rfl⟩
    | cons e E => cases e <;> cases gap <;> exact ⟨rfl, rfl⟩
  obtain ⟨gap, hX⟩ := foldl_blanks hX
  rw [gather_append, hX]
  exact hgap gap

/-- An item that goes into a list with what is behind it: the blocks before the list, and the items
before it in the list. -/
theorem exists_list_of_run (E : List Entry) (marker : Char) : ∃ before items, ∀ g : Gathered, ∀ r,
    g.run = some r → r.marker = marker → ∃ r' : Run, r'.items = items ++ r.items ∧
      (E.foldl Gathered.add g).close.blocks = before ++ r'.list :: g.blocks := by
  induction E generalizing marker with
  | nil =>
    refine ⟨[], [], fun g r hrun _ => ⟨r, rfl, ?_⟩⟩
    rw [List.foldl_nil, Gathered.close, hrun]
    rfl
  | cons e E ih =>
    cases e with
    | blank =>
      obtain ⟨before, items, h⟩ := ih marker
      exact ⟨before, items, fun g r hrun hmarker => h { g with gap := true } r hrun hmarker⟩
    | block b =>
      refine ⟨(gather E).blocks ++ [b], [], fun g r hrun _ => ⟨r, rfl, ?_⟩⟩
      have hclose : g.close = { g with run := none, blocks := r.list :: g.blocks } := by
        rw [Gathered.close, hrun]
      have hnone : (g.add (.block b)).run = none := by
        rw [Gathered.add, Gathered.parted, hclose]
      rw [List.foldl_cons, Gathered.blocks_foldl_of_none hnone, Gathered.add, Gathered.parted, hclose,
        List.append_assoc]
      rfl
    | item marker' number spread children =>
      by_cases hmarker : marker = marker'
      · obtain ⟨before, items, h⟩ := ih marker'
        refine ⟨before, items ++ [.item spread children], fun g r hrun hr => ?_⟩
        have hadd : g.add (.item marker' number spread children) = { g with
            gap := false
            run := some ⟨marker', number, r.spread || g.gap, .item spread children :: r.items⟩ } := by
          rw [Gathered.add, hrun]
          exact if_pos (hr.trans hmarker)
        obtain ⟨r', hitems, hblocks⟩ := h _ _ (congrArg Gathered.run hadd) rfl
        refine ⟨r', ?_, ?_⟩
        · rw [hitems, List.append_assoc, List.singleton_append]
        · rw [List.foldl_cons, hblocks, hadd]
      · -- the list ends before the item, which starts another one
        let fresh : Gathered := ⟨some ⟨marker', number, false, [.item spread children]⟩, false, false, []⟩
        refine ⟨(E.foldl Gathered.add fresh).close.blocks, [], fun g r hrun hr => ⟨r, rfl, ?_⟩⟩
        have hclose : g.close = { g with run := none, blocks := r.list :: g.blocks } := by
          rw [Gathered.close, hrun]
        have hover : Gathered.Over (r.list :: g.blocks) fresh
            (g.add (.item marker' number spread children)) := by
          have hadd : g.add (.item marker' number spread children) =
              { g.parted with run := some ⟨marker', number, false, [.item spread children]⟩ } := by
            rw [Gathered.add, hrun]
            exact if_neg (hr ▸ hmarker)
          rw [hadd, Gathered.parted, hclose]
          exact ⟨rfl, fun _ => rfl, rfl⟩
        exact (hover.foldl E).close.blocks

/-- The list that holds an item among the entries. With nothing but blank lines behind it, the item is
the last one and the list the last block. -/
theorem exists_list_of_item (E : List Entry) (marker : Char) : ∃ before items,
    ∀ (X : List Entry) (number : Nat) (spread : Bool) (children : List Block),
      ∃ (r : Run) (more after : List Block),
        r.items = items ++ .item spread children :: more ∧
        (gather (X ++ .item marker number spread children :: E)).blocks = before ++ r.list :: after ∧
        ((∀ e ∈ X, e = .blank) → more = [] ∧ after = []) := by
  obtain ⟨before, items, h⟩ := exists_list_of_run E marker
  refine ⟨before, items, fun X number spread children => ?_⟩
  obtain ⟨r, more, hsome, hmarker, hmore, hfirst⟩ :=
    Gathered.run_add_item (X.foldl Gathered.add Gathered.empty) marker number spread children
  obtain ⟨r', hitems, hblocks⟩ := h _ r hsome hmarker
  refine ⟨r', more, _, by rw [hitems, hmore], Eq.trans ?_ hblocks, fun hX => ?_⟩
  · rw [gather_append, List.foldl_cons]
  · obtain ⟨gap, hgap⟩ := foldl_blanks hX
    rw [hgap] at hfirst ⊢
    exact ⟨hfirst rfl, rfl⟩

/-! A container whose blocks are others is another one, whatever comes behind it. -/

theorem not_prefix_of_quote {C C' : List Block} (h : C ≠ C') (X E : List Entry) :
    ¬ (gather (.block (.quote C) :: E)).blocks <+:
      (gather (X ++ .block (.quote C') :: E)).blocks := by
  have halone := blocks_gather_block [] (.quote C) E
  rw [List.nil_append] at halone
  rw [halone, blocks_gather_block, List.prefix_append_right_inj]
  rintro ⟨after, hafter⟩
  exact h (Block.quote.inj (List.cons.inj hafter).1)

theorem not_prefix_of_item {C C' : List Block} (h : C ≠ C') {Y : List Entry}
    (hY : ∀ e ∈ Y, e = .blank) (X E : List Entry) (marker : Char) (number number' : Nat)
    (spread spread' : Bool) :
    ¬ (gather (Y ++ .item marker number spread C :: E)).blocks <+:
      (gather (X ++ .item marker number' spread' C' :: E)).blocks := by
  obtain ⟨before, items, hlist⟩ := exists_list_of_item E marker
  obtain ⟨r, more, after, hitems, hblocks, hlast⟩ := hlist Y number spread C
  obtain ⟨rfl, rfl⟩ := hlast hY
  obtain ⟨r', more', after', hitems', hblocks', -⟩ := hlist X number' spread' C'
  rw [hblocks, hblocks', List.prefix_append_right_inj]
  rintro ⟨tail, htail⟩
  have hsame : r.items = r'.items := (Block.list.inj (List.cons.inj htail).1).2.2.2
  rw [hitems, hitems', List.append_cancel_left_eq] at hsame
  exact h (Block.item.inj (List.cons.inj hsame).1).2

/-- What is among the entries is among the blocks, as a block or in a list. -/
theorem exists_mem_gather {e : Entry} (he : e ∈ E) : e = .blank ∨ ∃ b ∈ (gather E).blocks,
    e = .block b ∨ ∃ marker number spread children, e = .item marker number spread children ∧
      ∃ ordered start spread' items, b = .list ordered start spread' items := by
  obtain ⟨X, E', rfl⟩ := List.append_of_mem he
  cases e with
  | blank => exact .inl rfl
  | block b => exact .inr ⟨b, by rw [blocks_gather_block]; simp, .inl rfl⟩
  | item marker number spread children =>
    obtain ⟨before, items, hlist⟩ := exists_list_of_item E' marker
    obtain ⟨r, more, after, -, hblocks, -⟩ := hlist X number spread children
    exact .inr ⟨r.list, by rw [hblocks]; simp, .inr ⟨_, _, _, _, rfl, _, _, _, _, rfl⟩⟩

end Bindery.Markdown.Block
