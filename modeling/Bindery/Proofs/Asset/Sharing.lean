import Bindery.Proofs.Asset.Chains

/-! A registry and its masters share the cells of the tokens that both hold. Registrations keep it
so, since a token is looked up in the whole chain first. A registry that gets a master brings its
own cells along, and they take the place of the cells that the new chain holds: what stands aside
under that chain then shares no longer. -/

namespace Bindery.Store

def Shares (s : Store) : Prop :=
  ∀ r, ∀ m ∈ s.chain r, ∀ t c d, s.cellAt? r t = some c → s.cellAt? m t = some d → c = d

/-- A link of `r` under `master` is opposed by a registry that is not on the chain of `master` but
has a master there, and that holds a token of `r` with another cell. -/
def Opposed (s : Store) (r master : RegistryId) : Prop :=
  ∃ x m t c d, x ∉ s.chain master ∧ m ∈ s.chain x ∧ m ∈ s.chain master ∧
    s.cellAt? r t = some c ∧ s.cellAt? x t = some d ∧ c ≠ d

section Lookup

variable {s s' : Store} {r x m master : RegistryId} {t : Token} {c d : CellId}

theorem cellAt?_push_of_empty {registry : Registry} (hslots : registry.slots = [])
    {memos : Array (List String)} (r : RegistryId) (t : Token) :
    cellAt? { s with registries := s.registries.push registry, memos := memos } r t =
      s.cellAt? r t := by
  rw [cellAt?_eq_lookup, snapshot_push_of_empty hslots, cellAt?_eq_lookup]

theorem Rooted.cellAt?_insert (hs : s.Rooted) (hr : r < s.registries.size) (x : RegistryId)
    (u : Token) : (s.insert r t c).cellAt? x u =
      if x ∈ s.chain r ∧ u = t then some c else s.cellAt? x u := by
  rw [cellAt?_eq_lookup, snapshot_insert, cellAt?_eq_lookup]
  by_cases hx : x ∈ s.chain r
  · have hsome : (s.registry? x).isSome := by simpa [ registry?] using hs.chain_lt hr hx
    rw [if_pos ⟨hx, hsome⟩, lookup_putSlot]
    simp [hx]
  · simp [hx]

/-- Entries that are put into a chain go before those that were there. -/
theorem Rooted.cellAt?_replay (hs : s.Rooted) (hm : master < s.registries.size)
    {slots : List (Token × CellId)} (hnodup : (slots.map Prod.fst).Nodup) (x : RegistryId)
    (u : Token) : (s.replay master slots).cellAt? x u =
      if x ∈ s.chain master then (slots.lookup u).or (s.cellAt? x u) else s.cellAt? x u := by
  induction slots generalizing s with
  | nil =>
    rw [List.lookup_nil, Option.none_or, ite_self]
    rfl
  | cons slot slots ih =>
    obtain ⟨hfirst, hrest⟩ := List.nodup_cons.1 hnodup
    have hrun := ih (hs.insert master slot.1 slot.2) (by simpa using hm) hrest
    rw [chain_insert, hs.cellAt?_insert hm] at hrun
    refine hrun.trans ?_
    rw [lookup_cons_eq]
    by_cases hx : x ∈ s.chain master
    · by_cases hu : u = slot.1
      · have hnone : slots.lookup u = none := by
          rw [← Option.not_isSome_iff_eq_none, lookup_isSome, hu]
          exact hfirst
        rw [if_pos hx, if_pos hx, if_pos ⟨hx, hu⟩, if_pos hu, hnone]
        rfl
      · simp [hx, hu]
    · simp [hx]

theorem Rooted.cellAt?_setMaster? (hs : s.Rooted) (hsound : s.Sound) (hr : r < s.registries.size)
    (hm : master < s.registries.size) (hset : s.setMaster? r master = some s') (x : RegistryId)
    (u : Token) : s'.cellAt? x u =
      if x ∈ s.chain master then (s.cellAt? r u).or (s.cellAt? x u) else s.cellAt? x u := by
  obtain ⟨hopen, rfl⟩ := setMaster?_eq_some.1 hset
  have hlt : master < (s.link r master).registries.size := by simpa using hm
  have hlink : (s.link r master).cellAt? x u = s.cellAt? x u := by
    rw [cellAt?_eq_lookup, snapshot_link, cellAt?_eq_lookup]
  rw [(hs.link hr hm hopen).cellAt?_replay hlt (hsound.nodup_tokens r), chain_link hopen, hlink,
    cellAt?_eq_lookup s r]

end Lookup

section Step

variable {s s' : Store} {r x m master : RegistryId}

theorem Shares.push (h : s.Shares) (hs : s.Rooted) {registry : Registry}
    (hslots : registry.slots = []) (memos : Array (List String))
    (hnew : ∀ m, registry.master = some m → m < s.registries.size) :
    ({ s with registries := s.registries.push registry, memos := memos } : Store).Shares := by
  intro x m hm t c d hx hd
  rw [cellAt?_push_of_empty hslots] at hx hd
  rw [hs.chain_push hnew (lt_of_cellAt? hx)] at hm
  exact h x m hm t c d hx hd

theorem Shares.of_registries (h : s.Shares) (hsame : s'.registries = s.registries) :
    s'.Shares := by
  intro x m hm t c d hx hd
  rw [cellAt?_of_registries hsame] at hx hd
  rw [chain_of_registries hsame] at hm
  exact h x m hm t c d hx hd

/-- The cell that a chain gets must be the one of the registries that stand aside under it. -/
theorem Shares.insert (h : s.Shares) (hs : s.Rooted) (hr : r < s.registries.size) {t : Token}
    {c : CellId} (haside : ∀ x m d, x ∉ s.chain r → m ∈ s.chain x → m ∈ s.chain r →
      s.cellAt? x t = some d → d = c) : (s.insert r t c).Shares := by
  intro x m hm u e f hx hf
  rw [chain_insert] at hm
  rw [hs.cellAt?_insert hr] at hx hf
  by_cases hu : u = t
  · subst hu
    by_cases hchain : x ∈ s.chain r
    · rw [if_pos ⟨hchain, rfl⟩] at hx
      rw [if_pos ⟨hs.chain_trans hr hchain hm, rfl⟩] at hf
      exact Option.some.inj (hx.symm.trans hf)
    · rw [if_neg fun h => hchain h.1] at hx
      split at hf
      · next hmem =>
        obtain rfl := Option.some.inj hf
        exact haside x m e hchain hm hmem.1 hx
      · exact h x m hm u e f hx hf
  · rw [if_neg fun h => hu h.2] at hx hf
    exact h x m hm u e f hx hf

/-- On a chain, a token has one cell. -/
theorem Shares.cell_eq (h : s.Shares) (hs : s.Rooted) (hr : r < s.registries.size)
    (hx : x ∈ s.chain r) (hm : m ∈ s.chain r) {t : Token} {c d : CellId}
    (hc : s.cellAt? x t = some c) (hd : s.cellAt? m t = some d) : c = d := by
  rcases hs.chain_total hr hx hm with hmem | hmem
  · exact h x m hmem t c d hc hd
  · exact (h m x hmem t d c hd hc).symm

theorem Shares.register (h : s.Shares) (hs : s.Rooted) (hclosed : s.Closed)
    (hr : r < s.registries.size) (origin : String) (source : Option Path) :
    (s.register r origin source).1.Shares := by
  -- what stands aside and holds the token has a master on the chain that holds it too
  have hmaster : ∀ x m d, m ∈ s.chain x → s.cellAt? x (.ofOrigin origin) = some d →
      s.cellAt? m (.ofOrigin origin) = some d := by
    intro x m d hm hx
    obtain ⟨e, he⟩ := exists_cellAt?
      (hclosed.of_mem_chain hs (lt_of_cellAt? hx) hm (mem_tokens_of_cellAt? hx))
    rw [he, h x m hm _ d e hx he]
  obtain ⟨s₀, c, heq, hregistries, hcell⟩ := register_eq_insert s r origin source
  rw [heq]
  refine (h.of_registries hregistries).insert (hs.of_registries hregistries) (hregistries ▸ hr)
    fun x m d _ hm hmem hx => ?_
  rw [chain_of_registries hregistries] at hm hmem
  rw [cellAt?_of_registries hregistries] at hx
  rcases hcell with ⟨hfound, -⟩ | ⟨hnone, -⟩
  · obtain ⟨y, hy, hcy⟩ := List.exists_of_findSome?_eq_some hfound
    exact h.cell_eq hs hr hmem hy (hmaster x m d hm hx) hcy
  · have hm' := List.findSome?_eq_none_iff.1 hnone m hmem
    rw [hmaster x m d hm hx] at hm'
    cases hm'

/-- A link leaves the store sharing when nothing opposes it, and in no other case. -/
theorem Shares.setMaster?_iff (h : s.Shares) (hs : s.Rooted) (hclosed : s.Closed)
    (hsound : s.Sound) (hr : r < s.registries.size) (hm : master < s.registries.size)
    (hset : s.setMaster? r master = some s') : s'.Shares ↔ ¬ s.Opposed r master := by
  have hcell := hs.cellAt?_setMaster? hsound hr hm hset
  obtain ⟨hopen, hstore⟩ := setMaster?_eq_some.1 hset
  have hchain : ∀ x, s'.chain x = (s.link r master).chain x := by
    intro x
    rw [← hstore, chain_replay]
  constructor
  · rintro hshares ⟨x, m, t, c, d, hx, hmx, hmm, hc, hd, hne⟩
    by_cases hrx : r ∈ s.chain x
    · exact hne (h x r hrx t d c hd hc).symm
    · refine hne (hshares x m ?_ t d c ?_ ?_).symm
      · rwa [hchain, chain_link hrx]
      · rw [hcell, if_neg hx, hd]
      · rw [hcell, if_pos hmm, hc]
        rfl
  · intro hfree x m hmx t c d hc hd
    have hxlt : x < s.registries.size := by
      have hlt := lt_of_cellAt? hc
      rw [← hstore] at hlt
      simpa using hlt
    rw [hchain] at hmx
    rw [hcell] at hc hd
    have hmx := hs.mem_chain_link hr hm hopen hxlt hmx
    by_cases hx : x ∈ s.chain master
    · -- both are on the chain of the new master, which does not pass through `r`
      have hmx : m ∈ s.chain x := hmx.resolve_right fun h => hopen (hs.chain_trans hm hx h.1)
      rw [if_pos hx] at hc
      rw [if_pos (hs.chain_trans hm hx hmx)] at hd
      cases hrt : s.cellAt? r t with
      | some e =>
        rw [hrt] at hc hd
        exact Option.some.inj (hc.symm.trans hd)
      | none =>
        rw [hrt] at hc hd
        exact h x m hmx t c d hc hd
    · rw [if_neg hx] at hc
      by_cases hmm : m ∈ s.chain master
      · rw [if_pos hmm] at hd
        cases hrt : s.cellAt? r t with
        | some e =>
          rw [hrt] at hd
          obtain rfl := Option.some.inj hd
          rcases hmx with hmx | ⟨hrx, -⟩
          · by_contra hne
            exact hfree ⟨x, m, t, _, c, hx, hmx, hmm, hrt, hc, fun h => hne h.symm⟩
          · exact h x r hrx t c _ hc hrt
        | none =>
          rw [hrt] at hd
          rcases hmx with hmx | ⟨hrx, -⟩
          · exact h x m hmx t c d hc hd
          · obtain ⟨e, he⟩ := exists_cellAt?
              (hclosed.of_mem_chain hs hxlt hrx (mem_tokens_of_cellAt? hc))
            rw [hrt] at he
            cases he
      · rw [if_neg hmm] at hd
        exact h x m (hmx.resolve_right fun h => hmm h.2) t c d hc hd

theorem Shares.act?_iff (h : s.Shares) (hreach : s.Reachable) {a : Action}
    (hact : s.act? a = some s') :
    s'.Shares ↔ ∀ r master, a = .setMaster r master → ¬ s.Opposed r master := by
  have hs := hreach.rooted
  rcases act?_cases hact with ⟨r, master, rfl, hr, hm, hset⟩ | ⟨hother,
    ⟨registry, memos, hslots, hnew, rfl⟩ | ⟨r, origin, source, hr, rfl⟩ | hsame⟩
  · rw [h.setMaster?_iff hs hreach.closed hreach.sound hr hm hset]
    refine ⟨fun hfree x m heq => ?_, fun hfree => hfree r master rfl⟩
    obtain ⟨rfl, rfl⟩ := Action.setMaster.inj heq
    exact hfree
  · exact iff_of_true (h.push hs hslots memos hnew) fun r m heq => absurd heq (hother r m)
  · exact iff_of_true (h.register hs hreach.closed hr origin source)
      fun r m heq => absurd heq (hother r m)
  · exact iff_of_true (h.of_registries hsame) fun r m heq => absurd heq (hother r m)

end Step

/-! What is changed in an entry through one registry is seen through the others. -/

/-- The entry of a token is changed through a registry that holds it. -/
def updateAt (s : Store) (r : RegistryId) (t : Token) (f : Asset → Asset) : Store :=
  match s.cellAt? r t with
  | some c => s.modifyCell c f
  | none => s

section Entries

variable {s : Store} {r m : RegistryId} {t : Token} {c : CellId}

theorem entryAt?_updateAt (hr : s.cellAt? r t = some c) (hm : s.cellAt? m t = some c)
    (f : Asset → Asset) : (s.updateAt r t f).entryAt? m t = (s.entryAt? r t).map f := by
  unfold updateAt entryAt?
  rw [hr]
  change ((s.modifyCell c f).cellAt? m t).bind (s.modifyCell c f).asset? = _
  rw [cellAt?_modifyCell, hm, Option.bind_some, Option.bind_some, asset?_modifyCell, if_pos rfl]

theorem Shares.updateAt (h : s.Shares) (hs : s.Rooted) (hclosed : s.Closed) (hm : m ∈ s.chain r)
    (ht : t ∈ s.tokens r) : t ∈ s.tokens m ∧ ∀ f,
      (s.updateAt r t f).entryAt? m t = (s.entryAt? r t).map f ∧
      (s.updateAt m t f).entryAt? r t = (s.entryAt? m t).map f := by
  obtain ⟨c, hc⟩ := exists_cellAt? ht
  have htm := hclosed.of_mem_chain hs (lt_of_cellAt? hc) hm ht
  obtain ⟨d, hd⟩ := exists_cellAt? htm
  obtain rfl := h r m hm t c d hc hd
  exact ⟨htm, fun f => ⟨entryAt?_updateAt hc hd f, entryAt?_updateAt hd hc f⟩⟩

end Entries

/-! A whole run. -/

/-- No registry got a master while something stood aside under it with other cells. -/
def Unopposed (acts : List Action) : Prop :=
  ∀ before r master s, before ++ [.setMaster r master] <+: acts → after? before = some s →
    ¬ s.Opposed r master

section Run

variable {acts : List Action} {s : Store}

/-- In a run without opposed links, sharing is kept from the empty store on. -/
theorem shares_of_unopposed (hfree : Unopposed acts) (h : after? acts = some s) : s.Shares := by
  induction acts using List.reverseRecOn generalizing s with
  | nil =>
    obtain rfl := Option.some.inj h
    exact fun r m _ t c d hc => absurd (lt_of_cellAt? hc) (Nat.not_lt_zero r)
  | append_singleton acts a ih =>
    obtain ⟨s₀, hs₀, hact⟩ := after?_concat_eq_some h
    have hbefore : s₀.Shares := ih (fun before r master s' hpart =>
      hfree before r master s' (hpart.trans (List.prefix_append acts [a]))) hs₀
    refine (hbefore.act?_iff (reachable_of_after? hs₀) hact).2 fun r master ha => ?_
    exact hfree acts r master s₀ (ha ▸ List.prefix_refl _) hs₀

theorem unopposed_of_shares (h : after? acts = some s)
    (hshares : ∀ before s', before <+: acts → after? before = some s' → s'.Shares) :
    Unopposed acts := by
  intro before r master s₀ hpart hs₀
  obtain ⟨rest, rfl⟩ := hpart
  obtain ⟨s', hs'⟩ : ∃ s', after? (before ++ [.setMaster r master]) = some s' := by
    unfold after? at h
    rw [List.foldlM_append] at h
    obtain ⟨s', hs', -⟩ := Option.bind_eq_some_iff.1 h
    exact ⟨s', hs'⟩
  obtain ⟨s₁, hs₁, hact⟩ := after?_concat_eq_some hs'
  obtain rfl : s₀ = s₁ := Option.some.inj (hs₀.symm.trans hs₁)
  have hbefore : s₀.Shares := hshares before s₀ (by simp) hs₀
  exact (hbefore.act?_iff (reachable_of_after? hs₀) hact).1
    (hshares _ s' (List.prefix_append _ rest) hs') r master rfl

/-- All the stores of a run share exactly when no link of the run was opposed. The entry of a token
is then one and the same for a registry and all its masters, whichever of them it is changed
through. -/
theorem shares_throughout_iff (h : after? acts = some s) :
    ((∀ before s₀, before <+: acts → after? before = some s₀ → s₀.Shares) ↔ Unopposed acts) ∧
    (Unopposed acts → ∀ r, ∀ m ∈ s.chain r, ∀ t ∈ s.tokens r, t ∈ s.tokens m ∧ ∀ f,
      (s.updateAt r t f).entryAt? m t = (s.entryAt? r t).map f ∧
      (s.updateAt m t f).entryAt? r t = (s.entryAt? m t).map f) := by
  have hreach := reachable_of_after? h
  refine ⟨⟨unopposed_of_shares h, fun hfree before s₀ hpart hs₀ => ?_⟩,
    fun hfree r m hm t ht => ?_⟩
  · refine shares_of_unopposed (fun earlier r master s' hearlier => ?_) hs₀
    exact hfree earlier r master s' (hearlier.trans hpart)
  · exact (shares_of_unopposed hfree h).updateAt hreach.rooted hreach.closed hm ht

/-- A root, a registry below it that knows a picture, and another root that knows the picture under
a cell of its own. -/
def strangers : List Action :=
  [.newRoot, .newChild 0, .register 1 "a.png" none, .newRootLike 0, .register 2 "a.png" none]

def afterStrangers : Store := (after? strangers).getD {}

/-- The second root gets the first one as its master, and the registry below that one no longer
shares with it. -/
theorem shares_throughout_iff_strangers : ¬ Unopposed (strangers ++ [.setMaster 2 0]) ∧
    ¬ ∀ before s, before <+: strangers ++ [.setMaster 2 0] → after? before = some s → s.Shares := by
  have hafter : after? strangers = some afterStrangers := by decide +kernel
  have hsome : (after? (strangers ++ [.setMaster 2 0])).isSome := by decide +kernel
  obtain ⟨s, hlinked⟩ := Option.isSome_iff_exists.1 hsome
  have hopposed : afterStrangers.Opposed 2 0 :=
    ⟨1, 0, .ofOrigin "a.png", 1, 0, by decide +kernel, by decide +kernel, by decide +kernel,
      by decide +kernel, by decide +kernel, by decide⟩
  have hnot : ¬ Unopposed (strangers ++ [.setMaster 2 0]) := fun hfree =>
    hfree strangers 2 0 _ (List.prefix_refl _) hafter hopposed
  exact ⟨hnot, fun hshares => hnot ((shares_throughout_iff hlinked).1.1 hshares)⟩

end Run

end Bindery.Store
