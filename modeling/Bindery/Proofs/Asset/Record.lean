import Bindery.Proofs.Asset.Chains
import Bindery.Proofs.Asset.Descent
import Bindery.Proofs.Distinct
import Mathlib.Data.Set.Function

/-! A tree of registries grown from one root. Each registry lists what was registered on it or below
it in order of first registration, so the root lists all of a run, and the one entry of an origin
has the source that was given for it last. -/

namespace Bindery.Store

/-- What one registration was asked for. -/
structure Registration where
  registry : RegistryId
  origin : String
  source : Option Path

namespace Action

/-- The tree grows: a registry is made below another one, or an origin is registered. -/
def Grows : Action → Prop
  | newChild _ | register .. => True
  | _ => False

def registration? : Action → Option Registration
  | register r origin source => some ⟨r, origin, source⟩
  | _ => none

end Action

def registrations (acts : List Action) : List Registration := acts.filterMap Action.registration?

section Registrations

variable (s : Store) (regs : List Registration) (r : RegistryId) (origin : String)

/-- The tokens registered on a registry or below it, in order of first registration. -/
def tokensBelow : List Token :=
  ((regs.filter (r ∈ s.chain ·.registry)).map (Token.ofOrigin ·.origin)).eraseDups

/-- The source that was given last for an origin. -/
def lastSource : Option Path :=
  ((regs.filter (·.origin = origin)).filterMap (·.source)).getLast?

/-- What is known of an origin after the registrations. -/
def recordOf : Asset where
  source := (lastSource regs origin).getD ⟨origin⟩
  token := .ofOrigin origin
  isMaster := true

end Registrations

section Listing

variable {s s' : Store} {regs : List Registration} {g : Registration} {r : RegistryId}
  {origin : String}

theorem tokensBelow_concat : tokensBelow s (regs ++ [g]) r =
    if r ∈ s.chain g.registry ∧ .ofOrigin g.origin ∉ tokensBelow s regs r then
      tokensBelow s regs r ++ [.ofOrigin g.origin]
    else tokensBelow s regs r := by
  unfold tokensBelow
  rw [List.filter_append]
  by_cases hr : r ∈ s.chain g.registry
  · rw [List.filter_cons_of_pos (by simpa using hr), List.filter_nil, List.map_append,
      List.map_singleton, eraseDups_concat]
    simp only [hr, true_and, ite_not]
  · rw [List.filter_cons_of_neg (by simpa using hr), List.filter_nil, List.append_nil,
      if_neg fun h => hr h.1]

theorem tokensBelow_congr (h : ∀ g ∈ regs, r ∈ s'.chain g.registry ↔ r ∈ s.chain g.registry) :
    tokensBelow s' regs r = tokensBelow s regs r := by
  have hfilter : regs.filter (r ∈ s'.chain ·.registry) = regs.filter (r ∈ s.chain ·.registry) :=
    List.filter_congr fun g hg => decide_eq_decide.2 (h g hg)
  rw [tokensBelow, hfilter, ← tokensBelow]

theorem lastSource_concat : lastSource (regs ++ [g]) origin =
    if g.origin = origin then g.source.or (lastSource regs origin) else lastSource regs origin := by
  unfold lastSource
  rw [List.filter_append, List.filterMap_append]
  split
  · next h => cases hs : g.source <;> simp [h, hs]
  · next h => simp [h]

theorem lastSource_of_notMem (h : origin ∉ regs.map (·.origin)) : lastSource regs origin = none := by
  have hnone : regs.filter (·.origin = origin) = [] := by
    refine List.filter_eq_nil_iff.2 fun g hg => ?_
    rw [decide_eq_true_iff]
    exact fun heq => h (heq ▸ List.mem_map_of_mem hg)
  rw [lastSource, hnone]
  rfl

end Listing

/-- The registries hold what the registrations say. -/
structure Recorded (s : Store) (regs : List Registration) : Prop where
  rooted : s.Rooted
  descends : s.Descends
  lt : ∀ g ∈ regs, g.registry < s.registries.size
  tokens : ∀ r, r < s.registries.size → s.tokens r = tokensBelow s regs r
  entry : ∀ slot ∈ s.snapshot 0, ∃ origin ∈ regs.map (·.origin), slot.1 = .ofOrigin origin ∧
    s.asset? slot.2 = some (recordOf regs origin)

section Step

variable {s s' : Store} {regs : List Registration}

theorem recorded_newRoot : Recorded (newRoot {}).1 [] where
  rooted := (Reachable.empty.act .newRoot rfl).rooted
  descends := descends_newRoot
  lt := fun _ h => absurd h List.not_mem_nil
  tokens r hr := by
    obtain rfl : r = 0 := Nat.lt_one_iff.1 hr
    rfl
  entry slot hslot := absurd hslot List.not_mem_nil

theorem Recorded.newChild (h : s.Recorded regs) {m : RegistryId} (hm : m < s.registries.size) :
    (s.newChild m).1.Recorded regs := by
  have hnew : ∀ m', some m = some m' → m' < s.registries.size :=
    fun m' heq => Option.some.inj heq ▸ hm
  obtain ⟨hdescends, hextends, hsize⟩ := h.descends.newChild hm
  have hchain : ∀ g ∈ regs, (s.newChild m).1.chain g.registry = s.chain g.registry :=
    fun g hg => h.rooted.chain_push hnew (h.lt g hg)
  refine ⟨h.rooted.push _ _ hnew, hdescends, fun g hg => ?_, fun r hr => ?_, fun slot hslot => ?_⟩
  · exact Nat.lt_of_lt_of_le (h.lt g hg) hextends.size
  · have hlisted : tokensBelow (s.newChild m).1 regs r = tokensBelow s regs r :=
      tokensBelow_congr fun g hg => by rw [hchain g hg]
    rw [Store.tokens, snapshot_newChild, ← Store.tokens, hlisted]
    rw [hsize] at hr
    rcases Nat.lt_succ_iff_lt_or_eq.1 hr with hr | rfl
    · exact h.tokens r hr
    · -- nothing was registered on the new registry or below it
      have hnone : regs.filter (s.registries.size ∈ s.chain ·.registry) = [] := by
        refine List.filter_eq_nil_iff.2 fun g hg hmem => ?_
        exact Nat.lt_irrefl _ (h.rooted.chain_lt (h.lt g hg) (of_decide_eq_true hmem))
      rw [tokensBelow, hnone, Store.tokens, snapshot_size]
      rfl
  · rw [snapshot_newChild] at hslot
    exact h.entry slot hslot

theorem Recorded.mem_tokens (h : s.Recorded regs) {origin : String}
    (ho : origin ∈ regs.map (·.origin)) : .ofOrigin origin ∈ s.tokens 0 := by
  obtain ⟨g, hg, rfl⟩ := List.mem_map.1 ho
  rw [h.tokens 0 h.descends.pos, tokensBelow, List.mem_eraseDups]
  exact List.mem_map_of_mem (List.mem_filter.2
    ⟨hg, decide_eq_true (h.descends.zero_mem_chain (h.lt g hg))⟩)

theorem recordOf_of_ne {g : Registration} {origin : String} (h : g.origin ≠ origin) :
    recordOf (regs ++ [g]) origin = recordOf regs origin := by
  unfold recordOf
  rw [lastSource_concat, if_neg h]

/-- The cell that a registration puts into the chain is the record of its origin once it has reached
the root, and the other cells stay. -/
theorem Recorded.asset?_register (h : s.Recorded regs) {g : Registration}
    (hr : g.registry < s.registries.size)
    (hinj : Set.InjOn Token.ofOrigin {o | o ∈ (regs ++ [g]).map (·.origin)}) :
    ∃ (s₀ : Store) (c : CellId), (s.register g.registry g.origin g.source).1 =
        s₀.insert g.registry (.ofOrigin g.origin) c ∧ s₀.registries = s.registries ∧
      (∃ a, s₀.asset? c = some a ∧ { a with isMaster := true } = recordOf (regs ++ [g]) g.origin) ∧
      ∀ slot ∈ s.snapshot 0, slot.2 ≠ c → s₀.asset? slot.2 = s.asset? slot.2 := by
  obtain ⟨s₀, c, heq, hregistries, hcell⟩ := h.descends.register_eq hr g.origin g.source
  refine ⟨s₀, c, heq, hregistries, ?_⟩
  have hrecord : recordOf (regs ++ [g]) g.origin = { recordOf regs g.origin with
      source := g.source.getD (recordOf regs g.origin).source } := by
    unfold recordOf
    rw [lastSource_concat, if_pos rfl]
    cases g.source <;> rfl
  rcases hcell with ⟨hknown, hcells⟩ | ⟨hunknown, rfl, hcells⟩
  · obtain ⟨origin, ho, htoken, hasset⟩ := h.entry _ hknown
    have hsame : g.origin = origin :=
      hinj (by simp) (by simpa using .inl (by simpa using ho)) htoken
    subst hsame
    have hmodified : ∀ d, s₀.asset? d = if c = d then
        (s.asset? d).map fun a => { a with source := g.source.getD a.source } else s.asset? d := by
      intro d
      rw [← asset?_modifyCell]
      exact congrArg (·[d]?) hcells
    refine ⟨⟨{ recordOf regs g.origin with
      source := g.source.getD (recordOf regs g.origin).source }, ?_, hrecord.symm⟩,
      fun slot _ hne => ?_⟩
    · rw [hmodified, if_pos rfl, hasset]
      rfl
    · rw [hmodified, if_neg hne.symm]
  · have hnew : g.origin ∉ regs.map (·.origin) := fun ho => hunknown (h.mem_tokens ho)
    refine ⟨⟨{ source := g.source.getD ⟨g.origin⟩, token := .ofOrigin g.origin }, ?_, ?_⟩,
      fun slot _ hne => ?_⟩
    · rw [asset?, hcells]
      exact Array.getElem?_push_size
    · rw [hrecord, recordOf, lastSource_of_notMem hnew]
      rfl
    · rw [asset?, hcells, Array.getElem?_push, if_neg hne, asset?]

theorem Recorded.register (h : s.Recorded regs) (g : Registration)
    (hr : g.registry < s.registries.size)
    (hinj : Set.InjOn Token.ofOrigin {o | o ∈ (regs ++ [g]).map (·.origin)}) :
    (s.register g.registry g.origin g.source).1.Recorded (regs ++ [g]) := by
  obtain ⟨hdescends, hextends, hsize⟩ := h.descends.register hr g.origin g.source
  obtain ⟨s₀, c, heq, hregistries, ⟨a, ha, hrecord⟩, hother⟩ := h.asset?_register hr hinj
  have hrooted : s₀.Rooted := h.rooted.of_registries hregistries
  have hr₀ : g.registry < s₀.registries.size := hregistries ▸ hr
  have hsnapshot := snapshot_of_registries hregistries
  have hchain := chain_of_registries hregistries
  rw [heq] at hdescends hextends hsize ⊢
  refine ⟨hrooted.insert _ _ c, hdescends, fun g' hg' => ?_, fun r hlt => ?_, ?_⟩
  · rw [hsize]
    rcases List.mem_append.1 hg' with hg' | hg'
    · exact h.lt g' hg'
    · exact List.mem_singleton.1 hg' ▸ hr
  · rw [hsize] at hlt
    have hlisted : tokensBelow (s₀.insert g.registry (.ofOrigin g.origin) c) (regs ++ [g]) r =
        tokensBelow s (regs ++ [g]) r := tokensBelow_congr fun g' _ => by rw [chain_insert, hchain]
    have htokens : s₀.tokens r = s.tokens r := congrArg _ (hsnapshot r)
    rw [hlisted, tokensBelow_concat, ← h.tokens r hlt]
    by_cases hmem : r ∈ s.chain g.registry
    · rw [tokens_insert_of_mem (by rwa [hchain]) (hregistries ▸ hlt), htokens]
      simp only [hmem, true_and, ite_not]
    · rw [tokens_insert_of_notMem (by rwa [hchain]), htokens, if_neg fun h => hmem h.1]
  · rintro ⟨t, d⟩ hslot
    have hput : (Token.ofOrigin g.origin, c) ∈
        (s₀.insert g.registry (.ofOrigin g.origin) c).snapshot 0 := by
      rw [snapshot_insert_of_mem (by rw [hchain]; exact h.descends.zero_mem_chain hr)
        (hregistries ▸ h.descends.pos)]
      exact self_mem_putSlot
    rw [hrooted.asset?_insert hr₀]
    by_cases hc : c = d
    · subst hc
      have htoken := hdescends.sound.token_eq 0 0 t (.ofOrigin g.origin) c hslot hput
      refine ⟨g.origin, by simp, htoken, ?_⟩
      rw [if_pos rfl, ha, ← hrecord]
      rfl
    · have hold : (t, d) ∈ s.snapshot 0 := by
        rcases mem_snapshot_insert s₀ _ _ c hslot with hput | hold
        · exact absurd (Prod.mk.inj hput).2.symm hc
        · rwa [hsnapshot] at hold
      obtain ⟨origin, ho, htoken, hasset⟩ := h.entry (t, d) hold
      obtain rfl : t = .ofOrigin origin := htoken
      have hne : g.origin ≠ origin := by
        rintro rfl
        exact hc (hdescends.cell_eq hput hslot)
      refine ⟨origin, by simpa using .inl (by simpa using ho), rfl, ?_⟩
      rw [if_neg hc, hother _ hold (Ne.symm hc), hasset, recordOf_of_ne hne]

end Step

/-! A whole run. -/

section Run

variable {acts : List Action} {s : Store}

theorem registrations_concat (acts : List Action) (a : Action) :
    registrations (acts ++ [a]) = registrations acts ++ a.registration?.toList := by
  unfold registrations
  rw [List.filterMap_append]
  cases h : a.registration? <;> simp [h]

theorem recorded_of_grows (hgrows : ∀ a ∈ acts, a.Grows)
    (hrun : after? (.newRoot :: acts) = some s)
    (hinj : Set.InjOn Token.ofOrigin {o | o ∈ (registrations acts).map (·.origin)}) :
    s.Recorded (registrations acts) := by
  induction acts using List.reverseRecOn generalizing s with
  | nil =>
    obtain rfl := Option.some.inj hrun
    exact recorded_newRoot
  | append_singleton acts a ih =>
    rw [← List.cons_append] at hrun
    obtain ⟨s₀, hs₀, hact⟩ := after?_concat_eq_some hrun
    rw [registrations_concat] at hinj ⊢
    have hbefore : s₀.Recorded (registrations acts) := by
      refine ih (fun b hb => hgrows b (List.mem_append_left _ hb)) hs₀ (hinj.mono fun o ho => ?_)
      rw [Set.mem_ofPred_eq, List.map_append]
      exact List.mem_append_left _ ho
    have hlast := hgrows a (List.mem_append_right _ (List.mem_singleton.2 rfl))
    cases a with
    | newChild m =>
      obtain ⟨hm, hnew⟩ := Option.ite_none_right_eq_some.1 hact
      obtain rfl := Option.some.inj hnew
      exact (List.append_nil _).symm ▸ hbefore.newChild hm
    | register r origin source =>
      obtain ⟨hr, hnew⟩ := Option.ite_none_right_eq_some.1 hact
      obtain rfl := Option.some.inj hnew
      exact hbefore.register ⟨r, origin, source⟩ hr hinj
    | newRoot | newRootLike | lookUp | setMaster | update => exact hlast.elim

/-- The root is the record of a run. Every registry lists the tokens registered on it or below it,
once each and in order of first registration, so the root lists all of them. A token names the same
entry in all registries that hold it, and the entry has the source that was given last for the
origin, or the origin itself when none was given. -/
theorem registries_record (hgrows : ∀ a ∈ acts, a.Grows)
    (hrun : after? (.newRoot :: acts) = some s)
    (hinj : Set.InjOn Token.ofOrigin {o | o ∈ (registrations acts).map (·.origin)}) :
    (∀ r, r < s.registries.size →
      (s.tokens r).Nodup ∧ s.tokens r = tokensBelow s (registrations acts) r) ∧
    s.tokens 0 = ((registrations acts).map (Token.ofOrigin ·.origin)).eraseDups ∧
    (∀ r r' t, t ∈ s.tokens r → t ∈ s.tokens r' → s.cellAt? r t = s.cellAt? r' t) ∧
    ∀ r, ∀ origin ∈ (registrations acts).map (·.origin), .ofOrigin origin ∈ s.tokens r →
      s.entryAt? r (.ofOrigin origin) = some (recordOf (registrations acts) origin) := by
  have h := recorded_of_grows hgrows hrun hinj
  have hcell : ∀ r t c, s.cellAt? r t = some c → (t, c) ∈ s.snapshot r := by
    intro r t c hc
    rw [cellAt?_eq_lookup] at hc
    exact mem_of_lookup hc
  refine ⟨fun r hr => ⟨h.descends.sound.nodup_tokens r, h.tokens r hr⟩, ?_, ?_, ?_⟩
  · have hall : (registrations acts).filter (0 ∈ s.chain ·.registry) = registrations acts :=
      List.filter_eq_self.2 fun g hg => decide_eq_true (h.descends.zero_mem_chain (h.lt g hg))
    rw [h.tokens 0 h.descends.pos, tokensBelow, hall]
  · intro r r' t ht ht'
    obtain ⟨c, hc⟩ := exists_cellAt? ht
    obtain ⟨d, hd⟩ := exists_cellAt? ht'
    rw [hc, hd, h.descends.cell_eq (hcell r t c hc) (hcell r' t d hd)]
  · intro r origin ho ht
    obtain ⟨c, hc⟩ := exists_cellAt? ht
    obtain ⟨origin', ho', htoken, hasset⟩ :=
      h.entry _ (h.descends.inRoot r _ (hcell r _ c hc))
    obtain rfl := hinj ho ho' htoken
    rw [entryAt?, hc]
    exact hasset

/-- A picture is registered on a registry and then, with a source, on its sibling. -/
def siblings : List Action :=
  [.newChild 0, .register 1 "a.png" none, .newChild 0, .register 2 "a.png" (some ⟨"/site/a.png"⟩)]

theorem registries_record_siblings : ∃ s, after? (.newRoot :: siblings) = some s ∧
    s.tokens 0 = [.ofOrigin "a.png"] ∧ s.entryAt? 1 (.ofOrigin "a.png") = some
      { source := ⟨"/site/a.png"⟩, token := .ofOrigin "a.png", isMaster := true } := by
  have hsome : (after? (.newRoot :: siblings)).map (·.registries.size) = some 3 := by
    decide +kernel
  obtain ⟨s, hrun, hsize⟩ := Option.map_eq_some_iff.1 hsome
  change s.registries.size = 3 at hsize
  have hgrows : ∀ a ∈ siblings, a.Grows := by simp [siblings, Action.Grows]
  have hregs : registrations siblings =
      [⟨1, "a.png", none⟩, ⟨2, "a.png", some ⟨"/site/a.png"⟩⟩] := rfl
  have hinj : Set.InjOn Token.ofOrigin {o | o ∈ (registrations siblings).map (·.origin)} := by
    rw [hregs]
    simp [Set.InjOn]
  obtain ⟨hlisted, hroot, -, hentry⟩ := registries_record hgrows hrun hinj
  have hlast : lastSource (registrations siblings) "a.png" = some ⟨"/site/a.png"⟩ := rfl
  have hmem : .ofOrigin "a.png" ∈ s.tokens 1 := by
    have hlt : 1 < s.registries.size := by omega
    have hself := (reachable_of_after? hrun).rooted.self_mem hlt
    rw [(hlisted 1 hlt).2, hregs, tokensBelow, List.mem_eraseDups]
    simp [hself]
  refine ⟨s, hrun, ?_, ?_⟩
  · rw [hroot, hregs]
    simp [List.eraseDups_cons]
  · rw [hentry 1 "a.png" (by simp [hregs]) hmem, recordOf, hlast]
    rfl

end Run

end Bindery.Store
