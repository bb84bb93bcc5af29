import Bindery.Proofs.Asset.Substitution

/-! Pages in which tokens stand apart. Such a page is a text of gaps and tokens, and relocation leaves
nothing in it that looks like a token. -/

namespace Bindery

theorem Text.exists_first {word cs : List Char} (h : word <:+: cs) :
    ∃ front back, cs = front ++ (word ++ back) ∧ (word ≠ [] → ¬ word <:+: front) := by
  induction cs with
  | nil => exact ⟨[], [], by simpa using h, fun hword => by simpa using hword⟩
  | cons c cs ih =>
    by_cases hhere : word <+: c :: cs
    · obtain ⟨back, hback⟩ := hhere
      exact ⟨[], back, hback.symm, fun hword hin => hword (List.infix_nil.1 hin)⟩
    · obtain ⟨front, back, rfl, hfront⟩ := ih ((List.infix_cons_iff.1 h).resolve_left hhere)
      refine ⟨c :: front, back, rfl, fun hword hin => ?_⟩
      rcases List.infix_cons_iff.1 hin with hbegin | hin
      · exact hhere (hbegin.trans (List.prefix_append (c :: front) _))
      · exact hfront hword hin

namespace Relocation

open Text Token

section Words

variable {α β : Type} {K : α → Prop} {word : α → String} {cs : List Char}

/-- Wherever the mark of tokens is in a text, one of the words begins, and no character of tokens
touches it. -/
def MarksApart (K : α → Prop) (word : α → String) (cs : List Char) : Prop :=
  ∀ front back, cs = front ++ (mark.toList ++ back) →
    ∃ a rest, K a ∧ mark.toList ++ back = (word a).toList ++ rest ∧
      (∀ c ∈ front.getLast?, isTokenChar c = false) ∧ ∀ c ∈ rest.head?, isTokenChar c = false

/-- Whether words stand apart is seen at the positions of the text. -/
theorem marksApart_iff {l : List α} : MarksApart (· ∈ l) word cs ↔
    ∀ i < cs.length, mark.toList <+: cs.drop i → ∃ a ∈ l, (word a).toList <+: cs.drop i ∧
      (cs.take i).getLast?.all (!isTokenChar ·) = true ∧
      (cs.drop (i + (word a).toList.length)).head?.all (!isTokenChar ·) = true := by
  simp only [Option.all_eq_true, Bool.not_eq_true']
  constructor
  · rintro h i - ⟨back, hback⟩
    obtain ⟨a, rest, ha, hword, hbefore, hafter⟩ := h (cs.take i) back
      (hback ▸ (List.take_append_drop i cs).symm)
    rw [hback] at hword
    refine ⟨a, ha, ⟨rest, hword.symm⟩, hbefore, ?_⟩
    rw [← List.drop_drop, hword, List.drop_left]
    exact hafter
  · rintro h front back rfl
    have hlt : front.length < (front ++ (mark.toList ++ back)).length := by
      have hpos : 0 < mark.toList.length := by decide
      rw [List.length_append, List.length_append]
      omega
    have hhere := h front.length hlt
    rw [List.drop_left, List.take_left] at hhere
    obtain ⟨a, ha, ⟨rest, hword⟩, hbefore, hafter⟩ := hhere (List.prefix_append _ _)
    refine ⟨a, rest, ha, hword.symm, hbefore, ?_⟩
    rw [← List.drop_drop, List.drop_left, ← hword, List.drop_left] at hafter
    exact hafter

instance (l : List α) (word : α → String) (cs : List Char) :
    Decidable (MarksApart (· ∈ l) word cs) :=
  decidable_of_iff _ marksApart_iff.symm

theorem MarksApart.imp {K' : β → Prop} {word' : β → String} (h : MarksApart K word cs)
    (hK : ∀ a, K a → ∃ b, K' b ∧ word' b = word a) : MarksApart K' word' cs := by
  intro front back hcs
  obtain ⟨a, rest, ha, hword, hbefore, hafter⟩ := h front back hcs
  obtain ⟨b, hb, hsame⟩ := hK a ha
  exact ⟨b, rest, hb, hsame ▸ hword, hbefore, hafter⟩

/-- What is behind a word in a text is such a text again. -/
theorem MarksApart.behind {front rest : List Char} (h : MarksApart K word (front ++ rest)) :
    MarksApart K word rest := by
  rintro front' back rfl
  obtain ⟨a, rest, ha, hword, hbefore, hafter⟩ := h (front ++ front') back
    (List.append_assoc front front' _).symm
  exact ⟨a, rest, ha, hword,
    fun c hc => hbefore c (List.mem_getLast?_append_of_mem_getLast? hc), hafter⟩

theorem Spaced.cons {a : α} {first gap : List Char} {rest : List (α × List Char)}
    (h : Spaced gap rest) (hfirst : ¬ mark.toList <:+: first)
    (hbefore : ∀ c ∈ first.getLast?, isTokenChar c = false)
    (hafter : ∀ c ∈ gap.head?, isTokenChar c = false) (hgap : rest ≠ [] → gap ≠ []) :
    Spaced first ((a, gap) :: rest) := by
  constructor
  · exact List.forall_mem_cons.2 ⟨hfirst, h.markFree⟩
  · cases rest with
    | nil => simp
    | cons p rest => exact List.forall_mem_cons.2 ⟨hgap (List.cons_ne_nil p rest), h.between⟩
  · exact List.forall_mem_cons.2 ⟨hbefore, h.before⟩
  · exact List.forall_mem_cons.2 ⟨hafter, h.after⟩

theorem infix_spell {first : List Char} {rest : List (α × List Char)} {p : α × List Char}
    (hp : p ∈ rest) : (word p.1).toList <:+: spell word first rest := by
  induction rest generalizing first with
  | nil => exact absurd hp List.not_mem_nil
  | cons q rest ih =>
    rw [spell_cons]
    refine List.IsInfix.trans ?_ (List.suffix_append first _).isInfix
    rcases List.mem_cons.1 hp with rfl | hp
    · exact (List.prefix_append _ _).isInfix
    · exact (ih hp).trans (List.suffix_append _ _).isInfix

/-- A text in which the words stand apart is made of gaps and words. -/
theorem MarksApart.exists_spell (h : MarksApart K word cs)
    (hword : ∀ a, K a → TokenLike (word a).toList) :
    ∃ first rest, cs = spell word first rest ∧ Spaced first rest ∧ ∀ p ∈ rest, K p.1 := by
  -- by induction on what is behind the first word
  induction hn : cs.length using Nat.strong_induction_on generalizing cs with
  | _ n ih =>
    by_cases hmark : mark.toList <:+: cs
    · obtain ⟨front, back, rfl, hfront⟩ := exists_first hmark
      obtain ⟨a, behind, ha, hback, hbefore, hafter⟩ := h front back rfl
      rw [hback] at h hn ⊢
      have hshort : behind.length < n := by
        have hpos := List.length_pos_iff.2 (hword a ha).ne_nil
        rw [← hn, List.length_append, List.length_append]
        omega
      obtain ⟨gap, rest, rfl, hspaced, hrest⟩ := ih _ hshort h.behind.behind rfl
      refine ⟨front, (a, gap) :: rest, (spell_cons (a, gap)).symm, ?_, List.forall_mem_cons.2 ⟨ha, hrest⟩⟩
      refine hspaced.cons (hfront tokenLike_mark.ne_nil) hbefore (fun c hc => hafter c ?_) ?_
      · cases gap with
        | nil => cases hc
        | cons d gap => exact hc
      · rintro hne rfl
        obtain ⟨p, rest, rfl⟩ := List.exists_cons_of_ne_nil hne
        have hp := hword p.1 (hrest p List.mem_cons_self)
        obtain ⟨c, w, hw⟩ := List.exists_cons_of_ne_nil hp.ne_nil
        have hc : isTokenChar c = false := by
          refine hafter c ?_
          rw [spell_cons, hw]
          rfl
        exact absurd (hw ▸ List.mem_cons_self) (hp.not_mem hc)
    · refine ⟨cs, [], by simp [spell], ⟨?_, ?_, ?_, ?_⟩, ?_⟩ <;> simp [hmark]

end Words

/-- Relocation leaves no mark of a token in a page in which its tokens stand apart, when none is in
the paths. -/
theorem not_infix_html_run {s : Store} (hs : s.Sound) (r : RegistryId) (plan : Relocation)
    {html : String} (h : MarksApart (· ∈ s.tokens r) (·.text) html.toList)
    (hclean : ∀ e ∈ s.entries r, e.1.text.toList <:+: html.toList →
      ¬ mark.toList <:+: (plan.pathOf e).toList) :
    ¬ mark.toList <:+: (plan.run html s r).html.toList := by
  have hentries : ∀ t ∈ s.tokens r, ∃ e, e ∈ s.entries r ∧ e.1.text = t.text := by
    intro t ht
    rw [Store.tokens, ← Store.keys_withAssets (hs.cell_lt r)] at ht
    obtain ⟨e, he, rfl⟩ := List.mem_map.1 ht
    exact ⟨e, he, rfl⟩
  have hlike : ∀ e : Token × Asset, e ∈ s.entries r → TokenLike e.1.text.toList := by
    intro e he
    obtain ⟨origin, horigin⟩ := hs.ofOrigin_of_mem_entries he
    exact horigin ▸ tokenLike_ofOrigin origin
  obtain ⟨first, rest, hhtml, hspaced, hrest⟩ := (h.imp hentries).exists_spell hlike
  have hpaths : ∀ p ∈ rest, ¬ mark.toList <:+: (plan.pathOf p.1).toList := by
    intro p hp
    have hin := @infix_spell _ (fun e : Token × Asset => e.1.text) first rest p hp
    exact hclean p.1 (hrest p hp) (hhtml ▸ hin)
  have hpage : html = String.ofList (spell (·.1.text) first rest) := by
    rw [← hhtml, String.ofList_toList]
  rw [hpage, hspaced.html_run hs r hrest hpaths, String.toList_ofList]
  exact hspaced.not_infix_spell tokenLike_mark hpaths

end Relocation
end Bindery
