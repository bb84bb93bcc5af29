import Bindery.Proofs.Asset.Funnel
import Bindery.Proofs.Asset.Settling
import Bindery.Proofs.Project.Regular
import Bindery.Proofs.Rendering.Asked
import Mathlib.Data.Set.Image
import Mathlib.Order.Monotone.Basic

/-! Two stores on which the same bundle is compiled: a young one, and one that held registries and
assets before. The registries of the bundle have other numbers in the second store, and what it
registers may be known there. Every registry of the bundle lists the same tokens in both, and every
token stands for assets that differ at most in the places they had before. -/

namespace Bindery

/-- Assets that a bundle takes for the same one before it gives them their places. -/
structure Asset.Akin (a a' : Asset) : Prop where
  source : a'.source = a.source
  isMarked : a'.isMarked = a.isMarked

theorem Relocation.akin_place (plan : Relocation) {a a' : Asset} (h : a.Akin a') :
    (plan.place a).Akin (plan.place a') := by
  constructor
  · rw [source_place, source_place, h.source]
  · rw [isMarked_place, isMarked_place, h.isMarked]

theorem Relocation.target_place_akin (plan : Relocation) {a a' : Asset} (h : a.Akin a') :
    (plan.place a').target = (plan.place a).target ∧ (plan.place a').via = (plan.place a).via := by
  unfold place
  rw [h.source]
  dsimp only
  split <;> exact ⟨rfl, rfl⟩

namespace Store

variable {s : Store} {r x : RegistryId} {t u : Token} {c : CellId}

/-! What the root knows under a token. -/

section Entries

theorem entryAt?_of_slot (h : s.Descends) (hslot : (t, c) ∈ s.snapshot r) :
    s.entryAt? 0 t = s.asset? c := by
  unfold entryAt?
  rw [h.cellAt?_zero hslot]
  rfl

theorem entryAt?_of_notMem (ht : t ∉ s.tokens 0) : s.entryAt? 0 t = none := by
  have hcell : s.cellAt? 0 t = none := by
    cases hcell : s.cellAt? 0 t with
    | none => rfl
    | some c => exact absurd (mem_tokens_of_cellAt? hcell) ht
  unfold entryAt?
  rw [hcell]
  rfl

theorem entryAt?_newChild (m : RegistryId) : (s.newChild m).1.entryAt? 0 t = s.entryAt? 0 t := by
  unfold entryAt?
  rw [cellAt?_eq_lookup, cellAt?_eq_lookup, snapshot_newChild]
  rfl

theorem entryAt?_modifyCell (h : s.Descends) (hslot : (t, c) ∈ s.snapshot r) (f : Asset → Asset) :
    (s.modifyCell c f).entryAt? 0 u = if u = t then (s.entryAt? 0 t).map f else s.entryAt? 0 u := by
  split
  · next hu =>
    subst hu
    rw [entryAt?_of_slot h hslot, entryAt?_of_slot (h.modifyCell c f) hslot, asset?_modifyCell,
      if_pos rfl]
  · next hu =>
    cases hcell : s.cellAt? 0 u with
    | none => simp [entryAt?, hcell]
    | some d =>
      have hne : c ≠ d := by
        rintro rfl
        rw [cellAt?_eq_lookup] at hcell
        exact hu (h.sound.token_eq _ _ _ _ _ (mem_of_lookup hcell) hslot)
      simp [entryAt?, hcell, asset?_modifyCell, hne]

/-- A registration changes at most the asset of its own token. -/
theorem entryAt?_register_of_ne (h : s.Descends) (hr : r < s.registries.size) {origin : String}
    (hne : u ≠ .ofOrigin origin) : (s.register r origin none).1.entryAt? 0 u = s.entryAt? 0 u := by
  obtain ⟨s₀, c, heq, hregistries, hcell⟩ := h.register_eq hr origin none
  obtain ⟨note, -, hasset⟩ := asset?_foldl_insertAt (.ofOrigin origin) c (s₀.chain r) s₀
  have hlookup : (s₀.insert r (.ofOrigin origin) c).cellAt? 0 u = s.cellAt? 0 u := by
    have hroot : 0 ∈ s₀.chain r := chain_of_registries hregistries r ▸ h.zero_mem_chain hr
    rw [cellAt?_eq_lookup, cellAt?_eq_lookup, snapshot_insert_of_mem hroot (hregistries ▸ h.pos),
      lookup_putSlot, if_neg hne, snapshot_of_registries hregistries]
  unfold entryAt?
  rw [heq, hlookup]
  cases hd : s.cellAt? 0 u with
  | none => rfl
  | some d =>
    rw [cellAt?_eq_lookup] at hd
    have hslot := mem_of_lookup hd
    have hafter : (s₀.insert r (.ofOrigin origin) c).asset? d =
        if c = d then (s₀.asset? d).map note else s₀.asset? d := hasset d
    rw [Option.bind_some, Option.bind_some, hafter]
    rcases hcell with ⟨hknown, hcells⟩ | ⟨-, rfl, hcells⟩
    · have hcd : c ≠ d := by
        rintro rfl
        exact hne (h.sound.token_eq _ _ _ _ _ hslot hknown)
      rw [if_neg hcd, asset?, hcells, ← asset?, asset?_modifyCell, if_neg hcd]
    · have hlt := h.sound.cell_lt 0 _ hslot
      rw [if_neg (Nat.ne_of_gt hlt), asset?, hcells, Array.getElem?_push_lt hlt, asset?,
        Array.getElem?_eq_getElem hlt]

/-- The asset of a token that is registered: the one that is known, or a new one. -/
theorem entryAt?_register (h : s.Descends) (hr : r < s.registries.size) (origin : String) :
    ∃ a', (s.register r origin none).1.entryAt? 0 (.ofOrigin origin) = some a' ∧
      (∀ a, s.entryAt? 0 (.ofOrigin origin) = some a → a.Akin a') ∧
      (s.entryAt? 0 (.ofOrigin origin) = none → a'.source = ⟨origin⟩ ∧ a'.isMarked = false) := by
  obtain ⟨s₀, c, heq, hregistries, hcell⟩ := h.register_eq hr origin none
  obtain ⟨note, hnote, hasset⟩ := asset?_foldl_insertAt (.ofOrigin origin) c (s₀.chain r) s₀
  have hakin : ∀ a : Asset, a.Akin (note a) := by
    intro a
    obtain ⟨b, hb⟩ := hnote a
    rw [hb]
    exact ⟨rfl, rfl⟩
  have hroot : 0 ∈ s₀.chain r := chain_of_registries hregistries r ▸ h.zero_mem_chain hr
  have hlookup : (s₀.insert r (.ofOrigin origin) c).cellAt? 0 (.ofOrigin origin) = some c := by
    rw [cellAt?_eq_lookup, snapshot_insert_of_mem hroot (hregistries ▸ h.pos), lookup_putSlot,
      if_pos rfl]
  have hafter : (s₀.insert r (.ofOrigin origin) c).asset? c = (s₀.asset? c).map note :=
    (hasset c).trans (if_pos rfl)
  have hentry : (s.register r origin none).1.entryAt? 0 (.ofOrigin origin) =
      (s₀.asset? c).map note := by
    unfold entryAt?
    rw [heq, hlookup]
    exact hafter
  rcases hcell with ⟨hknown, hcells⟩ | ⟨hunknown, rfl, hcells⟩
  · have hsame : s₀.cells = s.cells := hcells.trans (congrArg cells (modifyCell_id s c))
    obtain ⟨a, ha⟩ := Option.isSome_iff_exists.1 (asset?_isSome.2 (h.sound.cell_lt 0 _ hknown))
    have ha₀ : s₀.asset? c = some a := by
      unfold asset? at ha ⊢
      rwa [hsame]
    have hbefore : s.entryAt? 0 (.ofOrigin origin) = some a := (entryAt?_of_slot h hknown).trans ha
    refine ⟨note a, by rw [hentry, ha₀]; rfl, fun b hb => ?_, fun hnone => ?_⟩
    · rw [hbefore] at hb
      exact Option.some.inj hb ▸ hakin a
    · rw [hbefore] at hnone
      cases hnone
  · let new : Asset := { source := ⟨origin⟩, token := .ofOrigin origin }
    have ha₀ : s₀.asset? s.cells.size = some new := by
      unfold asset?
      rw [hcells, Array.getElem?_push_size]
      rfl
    refine ⟨note new, by rw [hentry, ha₀]; rfl, fun b hb => ?_, fun _ => ?_⟩
    · rw [entryAt?_of_notMem hunknown] at hb
      cases hb
    · exact ⟨(hakin new).source, (hakin new).isMarked⟩

end Entries

/-- What a registration adds to the registries: its token, along the chain. -/
theorem tokens_register_chain (h : s.Descends) (hr : r < s.registries.size) (hx : x < s.registries.size)
    (origin : String) : (s.register r origin none).1.tokens x =
      if x ∈ s.chain r ∧ .ofOrigin origin ∉ s.tokens x then s.tokens x ++ [.ofOrigin origin]
      else s.tokens x := by
  obtain ⟨s₀, c, heq, hregistries, -⟩ := h.register_eq hr origin none
  have htokens : s₀.tokens x = s.tokens x :=
    congrArg (List.map Prod.fst) (snapshot_of_registries hregistries x)
  rw [heq, ← chain_of_registries hregistries, ← htokens]
  by_cases hmem : x ∈ s₀.chain r
  · rw [tokens_insert_of_mem hmem (hregistries ▸ hx)]
    by_cases hold : Token.ofOrigin origin ∈ s₀.tokens x
    · rw [if_pos hold, if_neg fun h => h.2 hold]
    · rw [if_neg hold, if_pos ⟨hmem, hold⟩]
  · rw [tokens_insert_of_notMem hmem, if_neg fun h => hmem h.1]

theorem mem_tokens_register (h : s.Descends) (hr : r < s.registries.size) (origin : String) :
    t ∈ (s.register r origin none).1.tokens 0 ↔ t ∈ s.tokens 0 ∨ t = .ofOrigin origin := by
  rw [tokens_register_chain h hr h.pos]
  split
  · rw [List.mem_append, List.mem_singleton]
  · next hold =>
    have hknown : Token.ofOrigin origin ∈ s.tokens 0 :=
      Classical.not_not.1 fun hnew => hold ⟨h.zero_mem_chain hr, hnew⟩
    exact ⟨.inl, fun ht => ht.elim id fun heq => heq ▸ hknown⟩

/-! The store of a single bundle. -/

/-- All registries but the root are below the first one that was made, once it is there, and all draw
their tokens from the first table. -/
structure Young (s : Store) : Prop where
  reachable : s.Reachable
  descends : s.Descends
  lone : s.registries.size = 1 ∧ s.tokens 0 = [] ∨ s.Funnels 1 []
  table : ∀ r, r < s.registries.size → s.table r = 0
  memos : 0 < s.memos.size

namespace Young

theorem newRoot : (newRoot {}).1.Young where
  reachable := .act .newRoot .empty rfl
  descends := descends_newRoot
  lone := .inl ⟨rfl, rfl⟩
  table r hr := by
    obtain rfl := Nat.lt_one_iff.1 hr
    rfl
  memos := Nat.one_pos

theorem funnels (h : s.Young) (hsize : 1 < s.registries.size) : s.Funnels 1 [] :=
  h.lone.resolve_left fun hone => Nat.ne_of_gt hsize hone.1

theorem newChild (h : s.Young) {m : RegistryId} (hm : m < s.registries.size)
    (hlone : 0 < m ∨ s.registries.size = 1) : (s.newChild m).1.Young := by
  obtain ⟨hdescends, -, hsize⟩ := h.descends.newChild hm
  have htokens : ∀ r, (s.newChild m).1.tokens r = s.tokens r := fun r =>
    congrArg (List.map Prod.fst) (snapshot_newChild s m r)
  refine ⟨h.reachable.newChild hm, hdescends, .inr ?_, fun r hr => ?_, h.memos⟩
  · rcases h.lone with ⟨hone, hempty⟩ | hfunnels
    · have hlt : 1 < (s.newChild m).1.registries.size := by
        rw [hsize, hone]
        exact Nat.lt_succ_self 1
      refine ⟨Nat.one_pos, hlt, fun r x hx => ⟨fun hne => ?_, List.not_mem_nil⟩, ?_, ?_⟩
      · rw [master?_newChild, if_neg (hone ▸ hne)] at hx
        have hr := lt_of_master? hx
        rw [hone] at hr
        obtain rfl := Nat.lt_one_iff.1 hr
        rw [h.descends.root] at hx
        cases hx
      · rw [htokens, hempty]
        exact List.nil_subset _
      · exact fun r hr => absurd hr List.not_mem_nil
    · refine hfunnels.widen (by omega) (snapshot_newChild s m) fun r x hx => ?_
      rw [master?_newChild] at hx
      split at hx
      · obtain rfl := Option.some.inj hx
        exact .inr ⟨hlone.elim id fun hone => absurd hfunnels.lt (Nat.not_lt.2 (Nat.le_of_eq hone)),
          List.not_mem_nil⟩
      · exact .inl hx
  · have hold := h.table
    unfold Store.table Store.registry? at hold ⊢
    unfold Store.newChild
    rw [Array.getElem?_push]
    split
    · exact hold m hm
    · next hne => exact hold r (Nat.lt_of_le_of_ne (Nat.le_of_lt_succ (Nat.lt_of_lt_of_eq hr hsize)) hne)

theorem register (h : s.Young) (hpos : 0 < r) (hr : r < s.registries.size) (origin : String) :
    (s.register r origin none).1.Young := by
  obtain ⟨hdescends, -, hsize⟩ := h.descends.register hr origin none
  have hfunnels := h.funnels (Nat.lt_of_le_of_lt hpos hr)
  refine ⟨h.reachable.register r origin none hr, hdescends,
    .inr (hfunnels.registerAll h.descends hpos hr List.not_mem_nil [origin]), fun x hx => ?_, ?_⟩
  · rw [table_register]
    exact h.table x (hsize ▸ hx)
  · rw [memos_register]
    exact Nat.lt_of_lt_of_eq h.memos Array.size_modify.symm

theorem modifyCell (h : s.Young) (c : CellId) (f : Asset → Asset) : (s.modifyCell c f).Young where
  reachable := h.reachable.modifyCell c f
  descends := h.descends.modifyCell c f
  lone := h.lone.imp id fun hfunnels => hfunnels.of_registries rfl
  table := h.table
  memos := h.memos

end Young

/-! The same on a used store. -/

/-- The store `v` is `base` with what is on `u`, where the registries have other numbers. -/
structure Mirrors (number : RegistryId → RegistryId) (base u v : Store) : Prop where
  young : u.Young
  reachable : v.Reachable
  descends : v.Descends
  mono : StrictMono number
  zero : number 0 = 0
  next : ∀ i, number (u.registries.size + i) = v.registries.size + i
  master : ∀ r, v.master? (number r) = (u.master? r).map number
  tokens : ∀ r, 0 < r → v.tokens (number r) = u.tokens r
  known : ∀ t, t ∈ v.tokens 0 ↔ t ∈ base.tokens 0 ∨ t ∈ u.tokens 0
  akin : ∀ t ∈ u.tokens 0, ∃ a a', u.entryAt? 0 t = some a ∧ v.entryAt? 0 t = some a' ∧ a.Akin a'
  rest : ∀ t, t ∉ u.tokens 0 → v.entryAt? 0 t = base.entryAt? 0 t
  others : ∀ r, r ∉ Set.range number → v.tokens r = base.tokens r

namespace Mirrors

variable {number : RegistryId → RegistryId} {base u v : Store}

theorem number_size (h : Mirrors number base u v) : number u.registries.size = v.registries.size :=
  h.next 0

theorem number_lt (h : Mirrors number base u v) (hr : r < u.registries.size) :
    number r < v.registries.size := h.number_size ▸ h.mono hr

theorem number_pos (h : Mirrors number base u v) (hpos : 0 < r) : 0 < number r :=
  h.zero ▸ h.mono hpos

theorem climbs (h : Mirrors number base u v) {l : List RegistryId} (hl : u.Climbs r l) :
    v.Climbs (number r) (l.map number) := by
  induction hl with
  | root hroot => exact .root (by rw [h.master, hroot]; rfl)
  | step hm _ ih => exact .step (by rw [h.master, hm]; rfl) ih

theorem chain_eq (h : Mirrors number base u v) (hr : r < u.registries.size) :
    v.chain (number r) = (u.chain r).map number :=
  h.reachable.rooted.chain_eq (h.climbs (h.young.reachable.rooted.climbs_chain hr)) (h.number_lt hr)

theorem newChild (h : Mirrors number base u v) {m : RegistryId} (hm : m < u.registries.size)
    (hlone : 0 < m ∨ u.registries.size = 1) :
    Mirrors number base (u.newChild m).1 (v.newChild (number m)).1 := by
  obtain ⟨hdescends, -, hsize⟩ := h.descends.newChild (h.number_lt hm)
  have hsize' := (h.young.descends.newChild hm).2.2
  have htokens (s : Store) (m r : RegistryId) : (s.newChild m).1.tokens r = s.tokens r :=
    congrArg (List.map Prod.fst) (snapshot_newChild s m r)
  refine ⟨h.young.newChild hm hlone, h.reachable.newChild (h.number_lt hm), hdescends, h.mono, h.zero,
    fun i => ?_, fun r => ?_, fun r hr => ?_, fun t => ?_, fun t ht => ?_, fun t ht => ?_, fun r hr => ?_⟩
  · rw [hsize, hsize', Nat.add_assoc, h.next, Nat.add_assoc]
  · rw [master?_newChild, master?_newChild]
    by_cases hr : r = u.registries.size
    · rw [if_pos hr, if_pos (hr ▸ h.number_size)]
      rfl
    · rw [if_neg hr, if_neg fun heq => hr (h.mono.injective (heq.trans h.number_size.symm)), h.master]
  · rw [htokens, htokens, h.tokens r hr]
  · rw [htokens, htokens]
    exact h.known t
  · rw [htokens] at ht
    rw [entryAt?_newChild, entryAt?_newChild]
    exact h.akin t ht
  · rw [htokens] at ht
    rw [entryAt?_newChild]
    exact h.rest t ht
  · rw [htokens]
    exact h.others r hr

theorem mem_chain (h : Mirrors number base u v) (hr : r < u.registries.size) :
    number x ∈ v.chain (number r) ↔ x ∈ u.chain r := by
  rw [h.chain_eq hr, List.mem_map_of_injective h.mono.injective]

/-- What is registered may be known on the used store, when it is known for what it is. -/
theorem register (h : Mirrors number base u v) (hpos : 0 < r) (hr : r < u.registries.size)
    {origin : String} (hoffer : ∀ a, base.entryAt? 0 (.ofOrigin origin) = some a →
      a.source = ⟨origin⟩ ∧ a.isMarked = false) :
    Mirrors number base (u.register r origin none).1 (v.register (number r) origin none).1 := by
  have hr' := h.number_lt hr
  have hu := h.young.descends
  obtain ⟨hdescends, -, -⟩ := h.descends.register hr' origin none
  refine ⟨h.young.register hpos hr origin, h.reachable.register _ origin none hr', hdescends, h.mono,
    h.zero, fun i => ?_, fun x => ?_, fun x hx => ?_, fun t => ?_, fun t ht => ?_, fun t ht => ?_,
    fun x hx => ?_⟩
  · rw [size_register, size_register, h.next]
  · rw [master?_register, master?_register, h.master]
  · by_cases hlt : x < u.registries.size
    · rw [tokens_register_chain hu hr hlt, tokens_register_chain h.descends hr' (h.number_lt hlt),
        h.tokens x hx]
      simp only [h.mem_chain hr]
    · have hempty : u.tokens x = [] := congrArg _ (snapshot_of_size_le (Nat.le_of_not_lt hlt))
      have hempty' := (h.tokens x hx).trans hempty
      have hlt' : ¬ number x < v.registries.size := fun hlt' =>
        hlt (h.mono.lt_iff_lt.1 (h.number_size ▸ hlt'))
      have hafter : (u.register r origin none).1.tokens x = [] := congrArg _ (snapshot_of_size_le
        (Nat.le_of_not_lt (by rwa [size_register])))
      have hafter' : (v.register (number r) origin none).1.tokens (number x) = [] :=
        congrArg _ (snapshot_of_size_le (Nat.le_of_not_lt (by rwa [size_register])))
      rw [hafter, hafter']
  · rw [mem_tokens_register h.descends hr', mem_tokens_register hu hr, h.known, or_assoc]
  · by_cases heq : t = .ofOrigin origin
    · subst heq
      obtain ⟨b, hb, hold, hnew⟩ := entryAt?_register hu hr origin
      obtain ⟨b', hb', hold', hnew'⟩ := entryAt?_register h.descends hr' origin
      refine ⟨b, b', hb, hb', ?_⟩
      by_cases hmem : Token.ofOrigin origin ∈ u.tokens 0
      · obtain ⟨a, a', ha, ha', hakin⟩ := h.akin _ hmem
        have hb := hold a ha
        have hb' := hold' a' ha'
        exact ⟨hb'.source.trans (hakin.source.trans hb.source.symm),
          hb'.isMarked.trans (hakin.isMarked.trans hb.isMarked.symm)⟩
      · obtain ⟨hsource, hunmarked⟩ := hnew (entryAt?_of_notMem hmem)
        have hrest := h.rest _ hmem
        cases hbase : base.entryAt? 0 (.ofOrigin origin) with
        | none =>
          obtain ⟨hsource', hunmarked'⟩ := hnew' (hrest.trans hbase)
          exact ⟨hsource'.trans hsource.symm, hunmarked'.trans hunmarked.symm⟩
        | some a' =>
          obtain ⟨hsource', hunmarked'⟩ := hoffer a' hbase
          have hb' := hold' a' (hrest.trans hbase)
          exact ⟨hb'.source.trans (hsource'.trans hsource.symm),
            hb'.isMarked.trans (hunmarked'.trans hunmarked.symm)⟩
    · have hmem := ((mem_tokens_register hu hr origin).1 ht).resolve_right heq
      rw [entryAt?_register_of_ne hu hr heq, entryAt?_register_of_ne h.descends hr' heq]
      exact h.akin t hmem
  · have hnot := mt (mem_tokens_register hu hr origin).2 ht
    rw [entryAt?_register_of_ne h.descends hr' fun heq => hnot (.inr heq)]
    exact h.rest t fun hmem => hnot (.inl hmem)
  · by_cases hlt : x < v.registries.size
    · rw [tokens_register_chain h.descends hr' hlt, if_neg, h.others x hx]
      rintro ⟨hmem, -⟩
      rw [h.chain_eq hr] at hmem
      obtain ⟨y, -, rfl⟩ := List.mem_map.1 hmem
      exact hx ⟨y, rfl⟩
    · have hempty : v.tokens x = [] := congrArg _ (snapshot_of_size_le (Nat.le_of_not_lt hlt))
      have hafter : (v.register (number r) origin none).1.tokens x = [] :=
        congrArg _ (snapshot_of_size_le (Nat.le_of_not_lt (by rwa [size_register])))
      rw [hafter, ← h.others x hx, hempty]

theorem registerAll (h : Mirrors number base u v) (hpos : 0 < r) (hr : r < u.registries.size)
    {origins : List String} (hoffer : ∀ o ∈ origins, ∀ a, base.entryAt? 0 (.ofOrigin o) = some a →
      a.source = ⟨o⟩ ∧ a.isMarked = false) :
    Mirrors number base (u.registerAll r origins) (v.registerAll (number r) origins) := by
  induction origins generalizing u v with
  | nil => exact h
  | cons origin origins ih =>
    exact ih (h.register hpos hr (hoffer origin List.mem_cons_self))
      (size_register u r origin none ▸ hr) fun o ho => hoffer o (List.mem_cons_of_mem _ ho)

/-- The assets of a token may change alike. -/
theorem modifyCell (h : Mirrors number base u v) {c' : CellId} {r' : RegistryId}
    (hslot : (t, c) ∈ u.snapshot r) (hslot' : (t, c') ∈ v.snapshot r') {f g : Asset → Asset}
    (hf : ∀ a a', u.asset? c = some a → v.asset? c' = some a' → a.Akin a' → (f a).Akin (g a')) :
    Mirrors number base (u.modifyCell c f) (v.modifyCell c' g) where
  young := h.young.modifyCell c f
  reachable := h.reachable.modifyCell c' g
  descends := h.descends.modifyCell c' g
  mono := h.mono
  zero := h.zero
  next := h.next
  master := h.master
  tokens := h.tokens
  known := h.known
  akin w hw := by
    obtain ⟨a, a', ha, ha', hakin⟩ := h.akin w hw
    rw [entryAt?_modifyCell h.young.descends hslot, entryAt?_modifyCell h.descends hslot']
    split
    · next heq =>
      subst heq
      rw [ha, ha']
      refine ⟨f a, g a', rfl, rfl, hf a a' ?_ ?_ hakin⟩
      · rw [← entryAt?_of_slot h.young.descends hslot, ha]
      · rw [← entryAt?_of_slot h.descends hslot', ha']
    · exact ⟨a, a', ha, ha', hakin⟩
  rest w hw := by
    have hne : w ≠ t := by
      rintro rfl
      exact hw (h.young.descends.tokens_subset r (List.mem_map_of_mem hslot))
    rw [entryAt?_modifyCell h.descends hslot', if_neg hne]
    exact h.rest w hw
  others := h.others

theorem exists_assets (h : Mirrors number base u v) {c' : CellId} {r' : RegistryId}
    (hslot : (t, c) ∈ u.snapshot r) (hslot' : (t, c') ∈ v.snapshot r') :
    ∃ a a', u.asset? c = some a ∧ v.asset? c' = some a' ∧ a.Akin a' := by
  obtain ⟨a, a', ha, ha', hakin⟩ :=
    h.akin t (h.young.descends.tokens_subset r (List.mem_map_of_mem hslot))
  rw [entryAt?_of_slot h.young.descends hslot] at ha
  rw [entryAt?_of_slot h.descends hslot'] at ha'
  exact ⟨a, a', ha, ha', hakin⟩

end Mirrors

/-! The numbers of registries that are there already, with the numbers of those that are made next. -/

def continued (f : RegistryId → RegistryId) (n m : Nat) (r : RegistryId) : RegistryId :=
  if r < n then f r else m + (r - n)

/-- Before anything is registered, every store with registries in the same order is a mirror. -/
theorem mirrors_continued {f : RegistryId → RegistryId} {u v : Store} (hu : u.Young)
    (hreachable : v.Reachable) (hdescends : v.Descends) (hempty : ∀ r, u.tokens r = [])
    (hmono : ∀ r x, r < x → x < u.registries.size → f r < f x)
    (hlt : ∀ r, r < u.registries.size → f r < v.registries.size) (hzero : f 0 = 0)
    (hmaster : ∀ r, r < u.registries.size → v.master? (f r) = (u.master? r).map f)
    (htokens : ∀ r, 0 < r → r < u.registries.size → v.tokens (f r) = []) :
    Mirrors (continued f u.registries.size v.registries.size) v u v where
  young := hu
  reachable := hreachable
  descends := hdescends
  mono r x hrx := by
    unfold continued
    by_cases hx : x < u.registries.size
    · rw [if_pos hx, if_pos (Nat.lt_trans hrx hx)]
      exact hmono r x hrx hx
    · rw [if_neg hx]
      by_cases hr : r < u.registries.size
      · rw [if_pos hr]
        exact Nat.lt_of_lt_of_le (hlt r hr) (Nat.le_add_right _ _)
      · rw [if_neg hr]
        exact Nat.add_lt_add_left (Nat.sub_lt_sub_right (Nat.le_of_not_lt hr) hrx) _
  zero := by
    unfold continued
    rw [if_pos hu.descends.pos, hzero]
  next i := by
    unfold continued
    rw [if_neg (Nat.not_lt.2 (Nat.le_add_right _ _)), Nat.add_sub_cancel_left]
  master r := by
    unfold continued
    by_cases hr : r < u.registries.size
    · rw [if_pos hr, hmaster r hr]
      cases hm : u.master? r with
      | none => rfl
      | some m =>
        have hlt := hu.reachable.rooted.master_lt hm
        exact congrArg some (if_pos hlt).symm
    · have hnone : u.master? r = none := by
        cases hm : u.master? r with
        | none => rfl
        | some m => exact absurd (lt_of_master? hm) hr
      rw [if_neg hr, hnone]
      cases hm : v.master? (v.registries.size + (r - u.registries.size)) with
      | none => rfl
      | some m => exact absurd (lt_of_master? hm) (Nat.not_lt.2 (Nat.le_add_right _ _))
  tokens r hpos := by
    unfold continued
    rw [hempty]
    split
    · next hr => exact htokens r hpos hr
    · exact congrArg (List.map Prod.fst) (snapshot_of_size_le (Nat.le_add_right _ _))
  known t := by
    rw [hempty]
    simp
  akin t ht := by
    rw [hempty] at ht
    cases ht
  rest _ _ := rfl
  others _ _ := rfl

/-- A new store, and any other one. -/
theorem mirrors_newRoot {v : Store} (hreachable : v.Reachable) (hdescends : v.Descends) :
    Mirrors (continued id 1 v.registries.size) v (newRoot {}).1 v := by
  refine mirrors_continued (f := id) Young.newRoot hreachable hdescends (fun r => ?_)
    (fun _ _ h _ => h) (fun r hr => ?_) rfl (fun r hr => ?_) fun r hpos hr => ?_
  · rcases Nat.eq_zero_or_pos r with rfl | hpos
    · rfl
    · exact congrArg (List.map Prod.fst) (snapshot_of_size_le hpos)
  · obtain rfl := Nat.lt_one_iff.1 hr
    exact hdescends.pos
  · obtain rfl := Nat.lt_one_iff.1 hr
    exact hdescends.root
  · exact absurd hr (Nat.not_lt.2 hpos)

end Store

/-! A page is relocated alike with both stores. -/

namespace Relocation

open Store (Mirrors)

structure Pass.Mirrors (number : RegistryId → RegistryId) (base : Store) (p p' : Pass) : Prop where
  html : p'.html = p.html
  made : p'.made = p.made
  store : Store.Mirrors number base p.store p'.store

variable {plan : Relocation} {number : RegistryId → RegistryId} {base : Store} {p p' : Pass}
  {r r' : RegistryId}

theorem replacement_place_akin {a a' : Asset} (h : a.Akin a') :
    plan.replacement (plan.place a') = plan.replacement (plan.place a) := by
  obtain ⟨htarget, hvia⟩ := plan.target_place_akin h
  unfold replacement
  rw [htarget, hvia, (plan.akin_place h).source]

theorem mirrors_step (h : p.Mirrors number base p') {t : Token} {c c' : CellId}
    (hslot : (t, c) ∈ p.store.snapshot r) (hslot' : (t, c') ∈ p'.store.snapshot r') :
    (plan.step p (t, c)).Mirrors number base (plan.step p' (t, c')) := by
  obtain ⟨a, a', ha, ha', hakin⟩ := h.store.exists_assets hslot hslot'
  have hplaced : (p.store.modifyCell c plan.place).asset? c = some (plan.place a) := by
    rw [Store.asset?_modifyCell, if_pos rfl, ha]
    rfl
  have hplaced' : (p'.store.modifyCell c' plan.place).asset? c' = some (plan.place a') := by
    rw [Store.asset?_modifyCell, if_pos rfl, ha']
    rfl
  have hstore := h.store.modifyCell hslot hslot' (f := plan.place) (g := plan.place)
    fun _ _ _ _ hakin => plan.akin_place hakin
  unfold step
  simp only [hplaced, hplaced', h.html, replacement_place_akin hakin]
  split
  · exact ⟨rfl, congrArg (· ++ _) h.made, hstore⟩
  · exact ⟨rfl, h.made, hstore⟩

theorem mirrors_steps (slots slots' : List (Token × CellId)) (h : p.Mirrors number base p')
    (hslots : ∀ slot ∈ slots, slot ∈ p.store.snapshot r)
    (hslots' : ∀ slot ∈ slots', slot ∈ p'.store.snapshot r')
    (htokens : slots'.map Prod.fst = slots.map Prod.fst) :
    (slots.foldl plan.step p).Mirrors number base (slots'.foldl plan.step p') := by
  induction slots generalizing slots' p p' with
  | nil =>
    obtain rfl := List.map_eq_nil_iff.1 htokens
    exact h
  | cons slot slots ih =>
    obtain ⟨slot', rest', rfl, htoken, hrest⟩ := List.map_eq_cons_iff.1 htokens
    obtain ⟨t, c⟩ := slot
    obtain ⟨t', c'⟩ := slot'
    obtain rfl : t' = t := htoken
    have hstep : (plan.step p (t', c)).Mirrors number base (plan.step p' (t', c')) :=
      mirrors_step h (hslots _ List.mem_cons_self) (hslots' _ List.mem_cons_self)
    have hsame (p : Pass) (slot : Token × CellId) :
        (plan.step p slot).store.snapshot = p.store.snapshot := by
      unfold step
      dsimp only
      split
      · rfl
      · split <;> rfl
    refine ih rest' hstep (fun slot hslot => ?_) (fun slot hslot => ?_) hrest
    · rw [hsame]
      exact hslots slot (List.mem_cons_of_mem _ hslot)
    · rw [hsame]
      exact hslots' slot (List.mem_cons_of_mem _ hslot)

theorem mirrors_run {u v : Store} (h : Mirrors number base u v) (plan : Relocation) (html : String)
    (hpos : 0 < r) :
    (plan.run html u r).Mirrors number base (plan.run html v (number r)) :=
  mirrors_steps (u.snapshot r) (v.snapshot (number r)) ⟨rfl, rfl, h⟩ (fun _ h => h) (fun _ h => h)
    (h.tokens r hpos)

end Relocation
end Bindery
