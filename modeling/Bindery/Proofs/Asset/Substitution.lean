import Bindery.Asset.Relocation
import Bindery.Proofs.Asset.Reachable
import Bindery.Proofs.Asset.Token
import Bindery.Proofs.Text.Replace
import Mathlib.Data.List.Nodup

/-! Relocation replaces tokens one after another over the whole page. Where tokens stand apart in a
page and no path looks like a token, this is one simultaneous substitution: the page keeps its
gaps, and every token gives way to the path of its own asset. -/

namespace Bindery.Relocation

open Text Token

section Spell

variable {α : Type}

/-- A text of words with gaps around them: the first gap, then every word with the gap behind it. -/
def spell (word : α → String) (first : List Char) (rest : List (α × List Char)) : List Char :=
  first ++ rest.flatMap fun (a, gap) => (word a).toList ++ gap

/-- Gaps that keep tokens apart. None of them holds the mark of a token, those between two tokens
are not empty, and no character of a gap that touches a token can belong to one. -/
structure Spaced (first : List Char) (rest : List (α × List Char)) : Prop where
  markFree : ∀ gap ∈ first :: rest.map Prod.snd, ¬ mark.toList <:+: gap
  between : ∀ gap ∈ (rest.map Prod.snd).dropLast, gap ≠ []
  before : ∀ gap ∈ (first :: rest.map Prod.snd).dropLast, ∀ c ∈ gap.getLast?, isTokenChar c = false
  after : ∀ gap ∈ rest.map Prod.snd, ∀ c ∈ gap.head?, isTokenChar c = false

variable {word word' : α → String} {first : List Char} {rest : List (α × List Char)}

theorem spell_cons (p : α × List Char) :
    spell word first (p :: rest) = first ++ ((word p.1).toList ++ spell word p.2 rest) := by
  simp [spell]

theorem spell_congr (h : ∀ p ∈ rest, word p.1 = word' p.1) :
    spell word first rest = spell word' first rest := by
  induction rest generalizing first with
  | nil => rfl
  | cons p rest ih =>
    rw [spell_cons, spell_cons, h p List.mem_cons_self,
      ih fun q hq => h q (List.mem_cons_of_mem _ hq)]

theorem Spaced.tail {p : α × List Char} (h : Spaced first (p :: rest)) : Spaced p.2 rest := by
  constructor
  · exact fun gap hgap => h.markFree gap (List.mem_cons_of_mem _ hgap)
  · intro gap hgap
    refine h.between gap ?_
    cases rest with
    | nil => simp at hgap
    | cons q rest => exact List.mem_cons_of_mem _ hgap
  · exact fun gap hgap => h.before gap (List.mem_cons_of_mem _ hgap)
  · exact fun gap hgap => h.after gap (List.mem_cons_of_mem _ hgap)

/-- What stands behind a token begins with no character of tokens. -/
theorem Spaced.head {p : α × List Char} (h : Spaced first (p :: rest)) :
    ∀ c ∈ (spell word p.2 rest).head?, isTokenChar c = false := by
  obtain ⟨a, gap⟩ := p
  intro c hc
  cases gap with
  | cons d gap => exact h.after (d :: gap) List.mem_cons_self c hc
  | nil =>
    cases rest with
    | nil => simp [spell] at hc
    | cons q rest => exact absurd rfl (h.between [] List.mem_cons_self)

/-- A text like a token: it holds the mark, and no character that tokens are not written in. -/
structure TokenLike (w : List Char) : Prop where
  mark_infix : mark.toList <:+: w
  isTokenChar : ∀ c ∈ w, isTokenChar c = true

theorem tokenLike_mark : TokenLike mark.toList :=
  ⟨List.infix_refl _, List.all_eq_true.1 (by decide)⟩

theorem tokenLike_ofOrigin (origin : String) : TokenLike (ofOrigin origin).text.toList :=
  ⟨(mark_prefix_ofOrigin origin).isInfix, isTokenChar_ofOrigin origin⟩

variable {origin : String} {w : List Char}

theorem TokenLike.absent (hw : TokenLike w) {cs : List Char} (h : ¬ mark.toList <:+: cs) :
    ¬ w <:+: cs :=
  fun hword => h (hw.mark_infix.trans hword)

theorem TokenLike.not_mem (hw : TokenLike w) {c : Char} (h : Token.isTokenChar c = false) :
    c ∉ w := by
  intro hmem
  rw [hw.isTokenChar c hmem] at h
  cases h

theorem TokenLike.ne_nil (hw : TokenLike w) : w ≠ [] := by
  rintro rfl
  exact absurd (List.infix_nil.1 hw.mark_infix) (by decide)

theorem text_ofOrigin_ne_nil : (ofOrigin origin).text.toList ≠ [] :=
  (tokenLike_ofOrigin origin).ne_nil

theorem Spaced.gap_startsNowhere {p : α × List Char} (h : Spaced first (p :: rest))
    (hw : TokenLike w) (b : List Char) : StartsNowhere w first b := by
  apply startsNowhere_of_getLast
  · exact hw.absent (h.markFree first List.mem_cons_self)
  · exact fun c hc => hw.not_mem (h.before first List.mem_cons_self c hc)

theorem Spaced.word_startsNowhere {p : α × List Char} (h : Spaced first (p :: rest))
    (hw : TokenLike w) {piece : List Char} (hpiece : ¬ w <:+: piece) :
    StartsNowhere w piece (spell word p.2 rest) :=
  startsNowhere_of_head hpiece fun c hc => hw.not_mem (h.head c hc)

theorem Spaced.last_startsNowhere (h : Spaced first ([] : List (α × List Char)))
    (hw : TokenLike w) : StartsNowhere w first [] :=
  startsNowhere_of_head (hw.absent (h.markFree first List.mem_cons_self)) (by simp)

/-- What is like a token and no part of any word is no part of the text. -/
theorem Spaced.not_infix_spell (h : Spaced first rest) (hw : TokenLike w)
    (hword : ∀ p ∈ rest, ¬ w <:+: (word p.1).toList) : ¬ w <:+: spell word first rest := by
  apply not_infix_of_startsNowhere hw.ne_nil
  induction rest generalizing first with
  | nil => simpa [spell] using h.last_startsNowhere hw
  | cons p rest ih =>
    simp only [spell_cons, startsNowhere_append, List.append_nil]
    refine ⟨h.gap_startsNowhere hw _, h.word_startsNowhere hw (hword p List.mem_cons_self), ?_⟩
    exact ih h.tail fun q hq => hword q (List.mem_cons_of_mem _ hq)

/-- Replacing a token changes the words that are this token and nothing else. -/
theorem Spaced.replaceAll_spell {new : String} (h : Spaced first rest)
    (hword : ∀ p ∈ rest, (word p.1 = (ofOrigin origin).text ∧ word' p.1 = new) ∨
      (¬ (ofOrigin origin).text.toList <:+: (word p.1).toList ∧ word' p.1 = word p.1)) :
    replaceAll (ofOrigin origin).text.toList new.toList (spell word first rest) =
      spell word' first rest := by
  have hw := tokenLike_ofOrigin origin
  rw [replaceAll_eq_replaceFrom text_ofOrigin_ne_nil]
  induction rest generalizing first with
  | nil =>
    have hreplace : replaceFrom (ofOrigin origin).text.toList new.toList 0 (first ++ []) = first :=
      (replaceFrom_append (h.last_startsNowhere hw)).trans (List.append_nil first)
    simpa [spell] using hreplace
  | cons p rest ih =>
    have hrest := ih h.tail fun q hq => hword q (List.mem_cons_of_mem _ hq)
    rw [spell_cons, spell_cons, replaceFrom_append (h.gap_startsNowhere hw _)]
    rcases hword p List.mem_cons_self with ⟨htoken, hw'⟩ | ⟨hfree, hw'⟩
    · rw [htoken, hw', replaceFrom_self text_ofOrigin_ne_nil, hrest]
    · rw [hw', replaceFrom_append (h.word_startsNowhere hw hfree), hrest]

end Spell

/-- The path that stands for an entry in a page. -/
def pathOf (plan : Relocation) (e : Token × Asset) : String := plan.replacement (plan.place e.2)

/-- One token after another gives way to its path. -/
def substituteAll (plan : Relocation) (html : String) (entries : List (Token × Asset)) : String :=
  entries.foldl (fun html e => e.1.substitute html (plan.pathOf e)) html

end Bindery.Relocation

namespace Bindery.Store

/-- Slots with the assets in their cells. -/
def withAssets (s : Store) (slots : List (Token × CellId)) : List (Token × Asset) :=
  slots.filterMap fun slot => (s.asset? slot.2).map (slot.1, ·)

/-- The tokens of a registry with their assets, in order of first insertion. -/
def entries (s : Store) (r : RegistryId) : List (Token × Asset) := s.withAssets (s.snapshot r)

theorem withAssets_congr {s s' : Store} {slots : List (Token × CellId)}
    (h : ∀ slot ∈ slots, s'.asset? slot.2 = s.asset? slot.2) :
    s'.withAssets slots = s.withAssets slots :=
  List.filterMap_congr fun slot hslot => by rw [h slot hslot]

theorem withAssets_cons {s : Store} {slot : Token × CellId} {slots : List (Token × CellId)}
    {a : Asset} (ha : s.asset? slot.2 = some a) :
    s.withAssets (slot :: slots) = (slot.1, a) :: s.withAssets slots := by
  unfold withAssets
  rw [List.filterMap_cons, ha]
  rfl

theorem mem_withAssets {s : Store} {slots : List (Token × CellId)} {e : Token × Asset}
    (h : e ∈ s.withAssets slots) : ∃ c, (e.1, c) ∈ slots ∧ s.asset? c = some e.2 := by
  simp only [withAssets, List.mem_filterMap, Option.map_eq_some_iff] at h
  obtain ⟨⟨t, c⟩, hslot, a, ha, rfl⟩ := h
  exact ⟨c, hslot, ha⟩

theorem keys_withAssets {s : Store} {slots : List (Token × CellId)}
    (hcells : ∀ slot ∈ slots, slot.2 < s.cells.size) :
    (s.withAssets slots).map Prod.fst = slots.map Prod.fst := by
  induction slots with
  | nil => rfl
  | cons slot slots ih =>
    have hc := hcells slot List.mem_cons_self
    rw [← asset?_isSome, Option.isSome_iff_exists] at hc
    obtain ⟨a, ha⟩ := hc
    rw [withAssets_cons ha, List.map_cons, List.map_cons,
      ih fun slot' h => hcells slot' (List.mem_cons_of_mem _ h)]

theorem nodup_cells {slots : List (Token × CellId)} (hkeys : (slots.map Prod.fst).Nodup)
    (howner : ∀ t t' c, (t, c) ∈ slots → (t', c) ∈ slots → t = t') :
    (slots.map Prod.snd).Nodup := by
  induction slots with
  | nil => exact List.nodup_nil
  | cons slot slots ih =>
    rw [List.map_cons, List.nodup_cons] at hkeys ⊢
    refine ⟨fun hmem => hkeys.1 ?_, ih hkeys.2 fun t t' c h h' =>
      howner t t' c (List.mem_cons_of_mem _ h) (List.mem_cons_of_mem _ h')⟩
    obtain ⟨⟨t, c⟩, hslot, hc⟩ := List.mem_map.1 hmem
    have hslot' : (slot.1, c) ∈ slot :: slots := by
      rw [show c = slot.2 from hc]
      exact List.mem_cons_self
    have heq := howner t slot.1 c (List.mem_cons_of_mem _ hslot) hslot'
    exact List.mem_map.2 ⟨(t, c), hslot, heq⟩

theorem Sound.nodup_cells {s : Store} (hs : s.Sound) (r : RegistryId) :
    ((s.snapshot r).map Prod.snd).Nodup :=
  Store.nodup_cells (hs.nodup_tokens r) fun t t' c => hs.token_eq r r t t' c

theorem Sound.nodup_entries {s : Store} (hs : s.Sound) (r : RegistryId) :
    ((s.entries r).map Prod.fst).Nodup := by
  rw [entries, keys_withAssets (hs.cell_lt r)]
  exact hs.nodup_tokens r

theorem Sound.ofOrigin_of_mem_entries {s : Store} (hs : s.Sound) {r : RegistryId}
    {e : Token × Asset} (he : e ∈ s.entries r) : ∃ origin, e.1 = Token.ofOrigin origin := by
  obtain ⟨c, hslot, -⟩ := mem_withAssets he
  exact hs.ofOrigin r _ hslot

end Bindery.Store

namespace Bindery.Relocation

open Text Token

/-- Looking for a token before it is replaced changes nothing. -/
theorem html_step (plan : Relocation) (pass : Pass) {slot : Token × CellId}
    (ht : slot.1.text.toList ≠ []) {a : Asset} (ha : pass.store.asset? slot.2 = some a) :
    (plan.step pass slot).html = slot.1.substitute pass.html (plan.pathOf (slot.1, a)) := by
  have hplaced : (pass.store.modifyCell slot.2 plan.place).asset? slot.2 = some (plan.place a) := by
    rw [Store.asset?_modifyCell, if_pos rfl, ha]
    rfl
  unfold step
  simp only [hplaced]
  split
  · rfl
  · next hnone =>
    rw [hasInfix_iff] at hnone
    have hsame := replaceAll_of_not_infix ht (plan.pathOf (slot.1, a)).toList hnone
    unfold Token.substitute Bindery.substitute onChars
    rw [hsame, String.ofList_toList]

theorem store_step (plan : Relocation) (pass : Pass) (slot : Token × CellId) :
    (plan.step pass slot).store = pass.store.modifyCell slot.2 plan.place := by
  unfold step
  simp only
  split
  · rfl
  · split <;> rfl

theorem html_foldl_step (plan : Relocation) (slots : List (Token × CellId)) (pass : Pass)
    (htext : ∀ slot ∈ slots, slot.1.text.toList ≠ [])
    (hcells : ∀ slot ∈ slots, slot.2 < pass.store.cells.size)
    (hnodup : (slots.map Prod.snd).Nodup) :
    (slots.foldl plan.step pass).html =
      plan.substituteAll pass.html (pass.store.withAssets slots) := by
  induction slots generalizing pass with
  | nil => rfl
  | cons slot slots ih =>
    rw [List.map_cons, List.nodup_cons] at hnodup
    have hc := hcells slot List.mem_cons_self
    rw [← Store.asset?_isSome, Option.isSome_iff_exists] at hc
    obtain ⟨a, ha⟩ := hc
    -- The cells behind this one are others, so they still hold what they held.
    have hothers : ∀ slot' ∈ slots,
        (plan.step pass slot).store.asset? slot'.2 = pass.store.asset? slot'.2 := by
      intro slot' hslot
      have hne : slot.2 ≠ slot'.2 := fun heq => hnodup.1 (List.mem_map.2 ⟨slot', hslot, heq.symm⟩)
      rw [store_step, Store.asset?_modifyCell, if_neg hne]
    have hsize : (plan.step pass slot).store.cells.size = pass.store.cells.size := by
      rw [store_step, Store.size_cells_modifyCell]
    rw [List.foldl_cons, ih _ (fun slot' h => htext slot' (List.mem_cons_of_mem _ h))
      (fun slot' h => hsize ▸ hcells slot' (List.mem_cons_of_mem _ h)) hnodup.2,
      html_step plan pass (htext slot List.mem_cons_self) ha, Store.withAssets_congr hothers,
      Store.withAssets_cons ha]
    rfl

/-- Relocation is substitution along the entries of the registry. -/
theorem run_html_eq_substituteAll (plan : Relocation) (html : String) {s : Store} (hs : s.Sound)
    (r : RegistryId) : (plan.run html s r).html = plan.substituteAll html (s.entries r) := by
  refine html_foldl_step plan (s.snapshot r) { html, store := s } ?_ ?_ (hs.nodup_cells r)
  · intro slot hslot
    obtain ⟨origin, horigin⟩ := hs.ofOrigin r slot hslot
    rw [horigin]
    exact text_ofOrigin_ne_nil
  · exact hs.cell_lt r

section Simultaneous

variable {plan : Relocation} {first : List Char} {rest : List ((Token × Asset) × List Char)}

/-- The words of a page of which the tokens in `done` gave way to their paths. -/
def wordAfter (plan : Relocation) (done : List Token) (e : Token × Asset) : String :=
  if e.1 ∈ done then plan.pathOf e else e.1.text

/-- Paths that do not look like tokens are left alone, so the tokens give way to their paths one
after another. -/
theorem Spaced.substituteAll_spell (h : Spaced first rest) (entries : List (Token × Asset))
    (done : List Token) (horigin : ∀ e ∈ entries, ∃ origin, e.1 = ofOrigin origin)
    (hrest : ∀ p ∈ rest, ∃ origin, p.1.1 = ofOrigin origin)
    (hsame : ∀ p ∈ rest, ∀ e ∈ entries, p.1.1 = e.1 → p.1 = e)
    (hclean : ∀ p ∈ rest, ¬ mark.toList <:+: (plan.pathOf p.1).toList)
    (hnodup : (done ++ entries.map Prod.fst).Nodup) :
    plan.substituteAll (String.ofList (spell (plan.wordAfter done) first rest)) entries =
      String.ofList (spell (plan.wordAfter (done ++ entries.map Prod.fst)) first rest) := by
  induction entries generalizing done with
  | nil => simp [substituteAll]
  | cons e entries ih =>
    obtain ⟨origin, he⟩ := horigin e List.mem_cons_self
    have hfresh : e.1 ∉ done := by
      intro hmem
      rw [List.map_cons, List.nodup_append] at hnodup
      exact hnodup.2.2 e.1 hmem e.1 List.mem_cons_self rfl
    have hstep : e.1.substitute (String.ofList (spell (plan.wordAfter done) first rest))
          (plan.pathOf e) = String.ofList (spell (plan.wordAfter (done ++ [e.1])) first rest) := by
      unfold Token.substitute Bindery.substitute onChars
      rw [String.toList_ofList, he]
      refine congrArg String.ofList (h.replaceAll_spell fun p hp => ?_)
      by_cases heq : p.1.1 = e.1
      · obtain rfl := hsame p hp e List.mem_cons_self heq
        refine .inl ⟨?_, ?_⟩
        · rw [wordAfter, if_neg hfresh, he]
        · rw [wordAfter, if_pos (by simp [he])]
      · have hmem : p.1.1 ∈ done ++ [ofOrigin origin] ↔ p.1.1 ∈ done := by
          simp [he ▸ heq]
        refine .inr ⟨?_, by simp only [wordAfter, hmem]⟩
        obtain ⟨origin', hp'⟩ := hrest p hp
        unfold wordAfter
        split
        · exact (tokenLike_ofOrigin origin).absent (hclean p hp)
        · intro hinfix
          rw [hp'] at hinfix heq
          exact heq (he ▸ (ofOrigin_eq_of_part hinfix).symm)
    have hrest := ih (done ++ [e.1])
      (fun e' h => horigin e' (List.mem_cons_of_mem _ h))
      (fun p hp e' h => hsame p hp e' (List.mem_cons_of_mem _ h))
      (by simpa using hnodup)
    rw [substituteAll, List.foldl_cons, hstep]
    simpa [substituteAll] using hrest

theorem Spaced.html_run (h : Spaced first rest) {s : Store} (hs : s.Sound) (r : RegistryId)
    (hrest : ∀ p ∈ rest, p.1 ∈ s.entries r)
    (hclean : ∀ p ∈ rest, ¬ mark.toList <:+: (plan.pathOf p.1).toList) :
    (plan.run (String.ofList (spell (·.1.text) first rest)) s r).html =
      String.ofList (spell plan.pathOf first rest) := by
  have hsame : ∀ p ∈ rest, ∀ e ∈ s.entries r, p.1.1 = e.1 → p.1 = e := fun p hp e he heq =>
    List.inj_on_of_nodup_map (hs.nodup_entries r) (hrest p hp) he heq
  have hreplaced := h.substituteAll_spell (s.entries r) []
    (fun e he => hs.ofOrigin_of_mem_entries he)
    (fun p hp => hs.ofOrigin_of_mem_entries (hrest p hp)) hsame hclean (hs.nodup_entries r)
  have hbefore : spell (plan.wordAfter []) first rest = spell (·.1.text) first rest :=
    spell_congr fun p _ => if_neg List.not_mem_nil
  have hafter : spell (plan.wordAfter ([] ++ (s.entries r).map Prod.fst)) first rest =
      spell plan.pathOf first rest :=
    spell_congr fun p hp => if_pos (List.mem_map_of_mem (hrest p hp))
  rw [run_html_eq_substituteAll plan _ hs, ← hbefore, hreplaced, hafter]

/-- Relocation is simultaneous substitution. In a page of gaps and tokens, every token becomes the
path of its asset and the gaps stay. The order of registration does not count, and no token is
left. -/
theorem run_html_eq_spell {s : Store} (hs : s.Reachable) (r : RegistryId) (plan : Relocation)
    (hrest : ∀ p ∈ rest, p.1 ∈ s.entries r) (hspaced : Spaced first rest)
    (hclean : ∀ e ∈ s.entries r, ¬ mark.toList <:+: (plan.pathOf e).toList) :
    let page (word : Token × Asset → String) : String := String.ofList (spell word first rest)
    (plan.run (page (·.1.text)) s r).html = page plan.pathOf ∧
    (∀ s' r', s'.Reachable → (s'.entries r').Perm (s.entries r) →
      (plan.run (page (·.1.text)) s' r').html = page plan.pathOf) ∧
    ∀ e ∈ s.entries r, ¬ e.1.text.toList <:+: (page plan.pathOf).toList := by
  have hpaths : ∀ p ∈ rest, ¬ mark.toList <:+: (plan.pathOf p.1).toList :=
    fun p hp => hclean p.1 (hrest p hp)
  refine ⟨hspaced.html_run hs.sound r hrest hpaths, fun s' r' hs' hperm => ?_, fun e he => ?_⟩
  · exact hspaced.html_run hs'.sound r' (fun p hp => hperm.mem_iff.2 (hrest p hp)) hpaths
  · obtain ⟨origin, horigin⟩ := hs.sound.ofOrigin_of_mem_entries he
    rw [String.toList_ofList, horigin]
    have hlike := tokenLike_ofOrigin origin
    exact hspaced.not_infix_spell hlike fun p hp => hlike.absent (hpaths p hp)

/-- Two pictures in one registry. -/
def pictures : Store :=
  ((Store.newRoot {}).1.register 0 "/site/a.png" none).1.register 0 "/site/img/b.png" none |>.1

def picture (source token : String) : Token × Asset :=
  (⟨token⟩, { source := ⟨source⟩, token := ⟨token⟩, isMaster := true })

def pictureA : Token × Asset := picture "/site/a.png" "sitcom-asset-d0a0884655347e5a"

def pictureB : Token × Asset := picture "/site/img/b.png" "sitcom-asset-1d6a0c955d948ec8"

theorem run_html_eq_spell_gallery :
    let plan : Relocation := ⟨⟨"/site"⟩, ⟨"/site/out"⟩, none, some ⟨"/site/out/docs/x.html"⟩⟩
    let rest : List ((Token × Asset) × List Char) :=
      [(pictureB, "\"><img src='".toList), (pictureA, "'><img src=\"".toList),
        (pictureB, "\">".toList)]
    (plan.run (String.ofList (spell (·.1.text) "<img src=\"".toList rest)) pictures 0).html =
      "<img src=\"../img/b.png\"><img src='../a.png'><img src=\"../img/b.png\">" := by
  intro plan rest
  have hreach : pictures.Reachable :=
    ((Store.Reachable.empty.act .newRoot rfl).register 0 _ _ (by decide)).register 0 _ _
      (by decide +kernel)
  have hentries : pictures.entries 0 = [pictureA, pictureB] := by decide +kernel
  have hquiet : ∀ end? : Option Char, end?.all (!isTokenChar ·) = true →
      ∀ c ∈ end?, isTokenChar c = false := by
    rintro _ hall c rfl
    simpa using hall
  have hbefore : ∀ gap ∈ ("<img src=\"".toList :: rest.map Prod.snd).dropLast,
      gap.getLast?.all (!isTokenChar ·) = true := by decide +kernel
  have hafter : ∀ gap ∈ rest.map Prod.snd, gap.head?.all (!isTokenChar ·) = true := by
    decide +kernel
  have hspaced : Spaced "<img src=\"".toList rest :=
    ⟨by decide +kernel, by decide +kernel, fun gap hgap => hquiet _ (hbefore gap hgap),
      fun gap hgap => hquiet _ (hafter gap hgap)⟩
  have hmem : ∀ p ∈ rest, p.1 ∈ pictures.entries 0 := by
    rw [hentries]
    decide +kernel
  have hclean : ∀ e ∈ pictures.entries 0, ¬ mark.toList <:+: (plan.pathOf e).toList := by
    rw [hentries]
    decide +kernel
  exact (run_html_eq_spell hreach 0 plan hmem hspaced hclean).1.trans (by decide +kernel)

end Simultaneous

end Bindery.Relocation
