import Bindery.Proofs.Html.Passage

/-! Which attribute of a well-formed tag the scan takes for the tag's reference. It is the first place
after a blank that begins like a reference attribute's name, be it inside a longer name or inside
another attribute's value. So a reference is found exactly when no attribute before it has such a
place. -/

namespace Bindery.Html.Reference

open Text (isBlank)

/-- A value in quotes with the equals sign before it. -/
structure Quoted where
  lead : List Char
  trail : List Char
  quote : Char
  text : List Char
  lead_blank : ∀ c ∈ lead, isBlank c = true
  trail_blank : ∀ c ∈ trail, isBlank c = true
  quote_mark : (quote = '\x22' || quote = '\x27') = true
  quote_inner : quote ∉ text
  close_inner : '>' ∉ text

/-- What stands between an attribute's name and its value. -/
def Quoted.opening (v : Quoted) : List Char := v.lead ++ '=' :: v.trail ++ [v.quote]

def Quoted.chars (v : Quoted) : List Char := v.opening ++ v.text ++ [v.quote]

/-- The characters of an attribute's name. -/
def isNameChar (c : Char) : Bool := !(isBlank c || "\x22'=/>".toList.contains c)

/-- An attribute as it is written, with the blanks before it. -/
structure Attribute where
  gap : List Char
  name : List Char
  value? : Option Quoted
  gap_ne : gap ≠ []
  gap_blank : ∀ c ∈ gap, isBlank c = true
  name_ne : name ≠ []
  name_plain : ∀ c ∈ name, isNameChar c = true

def Attribute.chars (a : Attribute) : List Char :=
  a.gap ++ a.name ++ (a.value?.map Quoted.chars).getD []

/-- The name of a reference attribute, in any case. -/
def IsReference (name : List Char) : Prop :=
  name.map foldCase = "href".toList ∨ name.map foldCase = "src".toList

/-- The text begins with the name of a reference attribute. -/
def Begins (cs : List Char) : Prop := ∃ name rest, cs = name ++ rest ∧ IsReference name

/-- The name begins like that of a reference attribute, or a word in the value does. -/
def Attribute.Mentions (a : Attribute) : Prop :=
  Begins a.name ∨ ∃ v ∈ a.value?, ∃ u b w, v.text = u ++ b :: w ∧ isBlank b = true ∧ Begins w

section Names

theorem named?_isSome_iff {cs : List Char} : (named? cs).isSome ↔ Begins cs := by
  constructor
  · intro h
    obtain ⟨⟨width, rest⟩, hnamed⟩ := Option.isSome_iff_exists.1 h
    obtain ⟨name, hcs, -, hname⟩ := exists_of_named? hnamed
    exact ⟨name, rest, hcs, hname⟩
  · rintro ⟨name, rest, rfl, hname⟩
    rw [named?_of_name hname]
    rfl

instance (cs : List Char) : Decidable (Begins cs) := decidable_of_iff _ named?_isSome_iff

theorem IsReference.letter {name : List Char} (h : IsReference name) {c : Char} (hc : c ∈ name) :
    'a' ≤ foldCase c ∧ foldCase c ≤ 'z' := by
  have hmem : foldCase c ∈ name.map foldCase := List.mem_map_of_mem hc
  have hall : ∀ d ∈ "href".toList ++ "src".toList, 'a' ≤ d ∧ d ≤ 'z' := by simp
  refine hall _ (List.mem_append.2 ?_)
  rcases h with h | h <;> rw [h] at hmem
  · exact .inl hmem
  · exact .inr hmem

theorem IsReference.ne_nil {name : List Char} (h : IsReference name) : name ≠ [] := by
  rintro rfl
  rcases h with h | h <;> cases h

/-- A name that begins in front of a character which is no letter ends in front of it. -/
theorem begins_append {u rest : List Char} {d : Char}
    (hd : ¬('a' ≤ foldCase d ∧ foldCase d ≤ 'z')) (h : Begins (u ++ d :: rest)) : Begins u := by
  obtain ⟨name, after, hcs, hname⟩ := h
  have hd : d ∉ name := fun hmem => hd (hname.letter hmem)
  rcases List.append_eq_append_iff.1 hcs with ⟨w, hname', hw⟩ | ⟨w, hu, -⟩
  · cases w with
    | nil => exact ⟨name, [], by rw [hname', List.append_nil, List.append_nil], hname⟩
    | cons e w =>
      rw [List.cons_append, List.cons.injEq] at hw
      exact absurd (by rw [hname', ← hw.1]; simp) hd
  · exact ⟨name, w, hu, hname⟩

theorem Begins.append {u : List Char} (h : Begins u) (rest : List Char) : Begins (u ++ rest) := by
  obtain ⟨name, after, rfl, hname⟩ := h
  exact ⟨name, after ++ rest, by simp, hname⟩

end Names

section Passing

variable {front rest u : List Char} {free : Bool}

theorem Begins.head {c : Char} {cs : List Char} (h : Begins (c :: cs)) :
    'a' ≤ foldCase c ∧ foldCase c ≤ 'z' := by
  obtain ⟨name, after, hcs, hname⟩ := h
  obtain ⟨d, name, rfl⟩ := List.exists_cons_of_ne_nil hname.ne_nil
  rw [List.cons_append, List.cons.injEq] at hcs
  exact hcs.1 ▸ hname.letter List.mem_cons_self

theorem findValue_step {c : Char} {cs : List Char} (h : free = true → ¬Begins (c :: cs)) :
    findValue front free (c :: cs) = findValue (c :: front) (isBlank c) cs := by
  rw [findValue_cons]
  cases free with
  | false => rfl
  | true =>
    have hnone : named? (c :: cs) = none :=
      Option.not_isSome_iff_eq_none.1 fun hsome => h rfl (named?_isSome_iff.1 hsome)
    rw [if_pos rfl, hnone]

theorem findValue_named {name : List Char} (h : IsReference name) (rest : List Char) :
    findValue front true (name ++ rest) =
      (valueAfter? rest).map fun found => (front.reverse ++ name ++ found.1, found.2) := by
  have hnamed := named?_of_name h rest
  obtain ⟨c, name, rfl⟩ := List.exists_cons_of_ne_nil h.ne_nil
  rw [List.cons_append] at hnamed ⊢
  rw [findValue_cons, if_pos rfl, hnamed, ← List.cons_append]
  simp only [List.take_left]

theorem findValue_plain (hu : ∀ c ∈ u, isBlank c = false) :
    findValue front false (u ++ rest) = findValue (u.reverse ++ front) false rest := by
  induction u generalizing front with
  | nil => rfl
  | cons c u ih =>
    rw [List.cons_append, findValue_step fun hfree => absurd hfree Bool.false_ne_true, hu c List.mem_cons_self,
      ih fun d hd => hu d (List.mem_cons_of_mem _ hd)]
    simp

theorem findValue_blanks (hne : u ≠ []) (hu : ∀ c ∈ u, isBlank c = true) :
    findValue front free (u ++ rest) = findValue (u.reverse ++ front) true rest := by
  induction u generalizing front free with
  | nil => exact absurd rfl hne
  | cons c u ih =>
    have hc := hu c List.mem_cons_self
    have hstep : ¬Begins (c :: (u ++ rest)) := fun h => by
      rw [isBlank_of_letter h.head.1 h.head.2] at hc
      cases hc
    rw [List.cons_append, findValue_step fun _ => hstep, hc]
    cases u with
    | nil => rfl
    | cons d u =>
      rw [ih (List.cons_ne_nil d u) fun e he => hu e (List.mem_cons_of_mem _ he)]
      simp

theorem findValue_word (hne : u ≠ []) (hu : ∀ c ∈ u, isBlank c = false) (h : ¬Begins (u ++ rest)) :
    findValue front true (u ++ rest) = findValue (u.reverse ++ front) false rest := by
  obtain ⟨c, u, rfl⟩ := List.exists_cons_of_ne_nil hne
  rw [List.cons_append] at h ⊢
  rw [findValue_step fun _ => h, hu c List.mem_cons_self,
    findValue_plain fun d hd => hu d (List.mem_cons_of_mem _ hd)]
  simp

/-- A mark that closes a text: no blank, no equals sign and no letter. -/
structure Closes (q : Char) : Prop where
  not_blank : isBlank q = false
  not_equals : q ≠ '='
  not_letter : ¬('a' ≤ foldCase q ∧ foldCase q ≤ 'z')

theorem Quoted.closes (v : Quoted) : Closes v.quote := by
  have h := v.quote_mark
  rw [Bool.or_eq_true, decide_eq_true_eq, decide_eq_true_eq] at h
  rcases h with h | h <;> rw [h] <;> exact ⟨by decide, by decide, by decide⟩

/-- A word in the text, or the text itself when it may, begins like a reference attribute. -/
def Speaks (free : Bool) (text : List Char) : Prop :=
  (free = true ∧ Begins text) ∨ ∃ u b w, text = u ++ b :: w ∧ isBlank b = true ∧ Begins w

theorem speaks_cons {c : Char} {text : List Char} :
    Speaks free (c :: text) ↔ (free = true ∧ Begins (c :: text)) ∨ Speaks (isBlank c) text := by
  refine or_congr_right ⟨?_, ?_⟩
  · rintro ⟨u, b, w, htext, hb, hw⟩
    cases u with
    | nil =>
      cases htext
      exact .inl ⟨hb, hw⟩
    | cons d u =>
      cases htext
      exact .inr ⟨u, b, w, rfl, hb, hw⟩
  · rintro (⟨hb, hw⟩ | ⟨u, b, w, rfl, hb, hw⟩)
    · exact ⟨[], c, text, rfl, hb, hw⟩
    · exact ⟨c :: u, b, w, rfl, hb, hw⟩

instance decidableSpeaks : (free : Bool) → (text : List Char) → Decidable (Speaks free text)
  | free, [] => isFalse <| by
    rintro (⟨-, name, after, hnil, hname⟩ | ⟨u, b, w, hnil, -⟩)
    · exact hname.ne_nil (List.append_eq_nil_iff.1 hnil.symm).1
    · exact absurd hnil (by simp)
  | free, c :: text =>
    have := decidableSpeaks (isBlank c) text
    decidable_of_iff _ speaks_cons.symm

instance (a : Attribute) : Decidable a.Mentions :=
  decidable_of_iff (Begins a.name ∨ ∃ v ∈ a.value?, Speaks false v.text) <|
    or_congr_right <| exists_congr fun _ => and_congr_right fun _ => by simp [Speaks]

variable {q : Char}

theorem findValue_text (hq : Closes q) {text : List Char} (h : ¬Speaks free text) :
    findValue front free (text ++ q :: rest) =
      findValue ((text ++ [q]).reverse ++ front) false rest := by
  induction text generalizing front free with
  | nil =>
    have hstep : ¬Begins (q :: rest) := fun h => hq.not_letter h.head
    rw [List.nil_append, findValue_step fun _ => hstep, hq.not_blank]
    rfl
  | cons c text ih =>
    rw [speaks_cons, not_or] at h
    have hstep : free = true → ¬Begins (c :: (text ++ q :: rest)) := fun hfree hbegins =>
      h.1 ⟨hfree, begins_append hq.not_letter hbegins⟩
    rw [List.cons_append, findValue_step hstep, ih h.2]
    simp

/-- A value that is found begins at a place or before it. -/
def Early (n : Nat) (found : Option (List Char × List Char)) : Prop :=
  ∀ before value, found = some (before, value) → before.length ≤ n

theorem length_quote_le {cs quote value : List Char} (h : valueAt? cs = some (quote, value)) :
    quote.length ≤ 1 := by
  cases cs with
  | nil => cases h
  | cons c cs =>
    rw [valueAt?_cons] at h
    split at h
    · obtain ⟨-, h⟩ := Option.ite_none_right_eq_some.1 h
      cases h
      rfl
    · obtain ⟨-, h⟩ := Option.ite_none_left_eq_some.1 h
      cases h
      exact Nat.zero_le 1

/-- What stands before a value goes one character past the text at most, where it is closed. -/
theorem length_gap_le (hq : Closes q) {w gap value : List Char}
    (h : valueAfter? (w ++ q :: rest) = some (gap, value)) : gap.length ≤ w.length + 1 := by
  obtain ⟨u, v, after, quote, hcs, hu, hv, hvalue, rfl⟩ := exists_of_valueAfter? h
  have hfront : q ∉ u ++ '=' :: v := by
    intro hmem
    rw [List.mem_append, List.mem_cons] at hmem
    rcases hmem with hmem | hmem | hmem
    · exact absurd (hu q hmem) (Bool.eq_false_iff.1 hq.not_blank)
    · exact hq.not_equals hmem
    · exact absurd (hv q hmem) (Bool.eq_false_iff.1 hq.not_blank)
  have hcs : w ++ q :: rest = (u ++ '=' :: v) ++ after := by simpa using hcs
  have hshort : (u ++ '=' :: v).length ≤ w.length := by
    rcases List.append_eq_append_iff.1 hcs with ⟨x, hx, hrest⟩ | ⟨x, hw, -⟩
    · cases x with
      | nil => rw [hx, List.append_nil]
      | cons d x =>
        rw [List.cons_append, List.cons.injEq] at hrest
        exact absurd (by rw [hx, hrest.1]; simp) hfront
    · rw [hw]
      exact (List.prefix_append _ _).length_le
  have hquote := length_quote_le hvalue
  rw [List.length_append]
  omega

theorem findValue_text_early (hq : Closes q) {text : List Char} (h : Speaks free text) :
    Early (front.length + text.length + 1) (findValue front free (text ++ q :: rest)) := by
  induction text generalizing front free with
  | nil =>
    rcases h with ⟨-, name, after, hnil, hname⟩ | ⟨u, b, w, hnil, -⟩
    · exact absurd (List.append_eq_nil_iff.1 hnil.symm).1 hname.ne_nil
    · exact absurd hnil (by simp)
  | cons c text ih =>
    by_cases hhere : free = true ∧ Begins (c :: text)
    · obtain ⟨rfl, name, w, hname, href⟩ := hhere
      rw [hname, List.append_assoc, findValue_named href]
      intro before value hfound
      obtain ⟨⟨gap, value'⟩, hvalue, heq⟩ := Option.map_eq_some_iff.1 hfound
      cases heq
      have hgap := length_gap_le hq hvalue
      simp only [List.length_append, List.length_reverse]
      omega
    · have hstep : free = true → ¬Begins (c :: (text ++ q :: rest)) := fun hfree hbegins =>
        hhere ⟨hfree, begins_append hq.not_letter hbegins⟩
      rw [List.cons_append, findValue_step hstep]
      have hrest : Early ((c :: front).length + text.length + 1)
          (findValue (c :: front) (isBlank c) (text ++ q :: rest)) :=
        ih ((speaks_cons.1 h).resolve_left hhere)
      rw [List.length_cons] at hrest ⊢
      rwa [Nat.add_right_comm front.length 1] at hrest

end Passing

section Attributes

theorem isNameChar_iff {c : Char} : isNameChar c = true ↔
    isBlank c = false ∧ c ≠ '\x22' ∧ c ≠ '\x27' ∧ c ≠ '=' ∧ c ≠ '/' ∧ c ≠ '>' := by
  simp [isNameChar]

/-- What can follow an attribute that is not the last one: blanks and the next name. -/
def Following (rest : List Char) : Prop :=
  ∃ gap d more, rest = gap ++ d :: more ∧ gap ≠ [] ∧ (∀ c ∈ gap, isBlank c = true) ∧
    isBlank d = false ∧ d ≠ '='

theorem Attribute.following (a : Attribute) (more : List Char) : Following (a.chars ++ more) := by
  obtain ⟨d, name, hname⟩ := List.exists_cons_of_ne_nil a.name_ne
  have hd := isNameChar_iff.1 (a.name_plain d (by rw [hname]; exact List.mem_cons_self))
  refine ⟨a.gap, d, name ++ ((a.value?.map Quoted.chars).getD [] ++ more), ?_, a.gap_ne,
    a.gap_blank, hd.1, hd.2.2.2.1⟩
  unfold Attribute.chars
  rw [hname]
  simp

theorem Following.chars (attrs : List Attribute) {rest : List Char} (h : Following rest) :
    Following (attrs.flatMap Attribute.chars ++ rest) := by
  cases attrs with
  | nil => exact h
  | cons a attrs =>
    rw [List.flatMap_cons, List.append_assoc]
    exact a.following _

theorem valueAfter?_none {u more : List Char} {d : Char} (hu : ∀ c ∈ u, isBlank c = true)
    (hblank : isBlank d = false) (hequals : d ≠ '=') : valueAfter? (u ++ d :: more) = none := by
  have hdrop : (u ++ d :: more).dropWhile isBlank = d :: more := by
    refine Text.dropWhile_append_of_stop hu ?_
    rintro c ⟨⟩
    exact hblank
  unfold valueAfter?
  simp [hdrop, hequals]

variable {front rest : List Char}

theorem Attribute.not_blank (a : Attribute) : ∀ c ∈ a.name, isBlank c = false := fun c hc =>
  (isNameChar_iff.1 (a.name_plain c hc)).1

theorem Quoted.opening_silent (v : Quoted) : ¬Speaks false (v.lead ++ '=' :: v.trail) := by
  rintro (⟨hfree, -⟩ | ⟨u, b, w, htext, -, hw⟩)
  · cases hfree
  · cases w with
    | nil =>
      obtain ⟨name, after, hnil, hname⟩ := hw
      exact hname.ne_nil (List.append_eq_nil_iff.1 hnil.symm).1
    | cons c w =>
      have hmem : c ∈ v.lead ++ '=' :: v.trail := by rw [htext]; simp
      rw [List.mem_append, List.mem_cons] at hmem
      have hplain := isBlank_of_letter hw.head.1 hw.head.2
      rcases hmem with hmem | rfl | hmem
      · exact absurd (v.lead_blank c hmem) (Bool.eq_false_iff.1 hplain)
      · exact absurd hw.head (by decide)
      · exact absurd (v.trail_blank c hmem) (Bool.eq_false_iff.1 hplain)

theorem findValue_opening (v : Quoted) :
    findValue front false (v.opening ++ rest) =
      findValue (v.opening.reverse ++ front) false rest := by
  have h : findValue front false ((v.lead ++ '=' :: v.trail) ++ v.quote :: rest) = _ :=
    findValue_text v.closes v.opening_silent
  simpa [Quoted.opening] using h

theorem not_letter_of_blank {c : Char} (h : isBlank c = true) :
    ¬('a' ≤ foldCase c ∧ foldCase c ≤ 'z') := fun hletter => by
  rw [isBlank_of_letter hletter.1 hletter.2] at h
  cases h

theorem Quoted.head (v : Quoted) (rest : List Char) :
    ∃ d more, v.opening ++ rest = d :: more ∧ ¬('a' ≤ foldCase d ∧ foldCase d ≤ 'z') := by
  have hlead := v.lead_blank
  unfold Quoted.opening
  cases hcases : v.lead with
  | nil => exact ⟨'=', _, rfl, by decide⟩
  | cons d u =>
    rw [hcases] at hlead
    exact ⟨d, _, rfl, not_letter_of_blank (hlead d List.mem_cons_self)⟩

/-- A reference attribute's name that begins where the attribute's does ends in it. -/
theorem Attribute.begins_name (a : Attribute) {rest : List Char} (hrest : Following rest)
    (h : Begins (a.name ++ ((a.value?.map Quoted.chars).getD [] ++ rest))) : Begins a.name := by
  obtain ⟨d, more, hhead, hd⟩ : ∃ d more, (a.value?.map Quoted.chars).getD [] ++ rest = d :: more ∧
      ¬('a' ≤ foldCase d ∧ foldCase d ≤ 'z') := by
    cases a.value? with
    | none =>
      obtain ⟨gap, d, more, rfl, hne, hblank, -⟩ := hrest
      obtain ⟨c, gap, rfl⟩ := List.exists_cons_of_ne_nil hne
      exact ⟨c, _, rfl, not_letter_of_blank (hblank c List.mem_cons_self)⟩
    | some v =>
      have h := v.head (v.text ++ ([v.quote] ++ rest))
      simpa [Quoted.chars] using h
  rw [hhead] at h
  exact begins_append hd h

theorem Attribute.skip (a : Attribute) (h : ¬a.Mentions) (hrest : Following rest) :
    findValue front false (a.chars ++ rest) = findValue (a.chars.reverse ++ front) false rest := by
  have hname : ¬Begins (a.name ++ ((a.value?.map Quoted.chars).getD [] ++ rest)) := fun hbegins =>
    h (.inl (a.begins_name hrest hbegins))
  unfold Attribute.chars
  rw [List.append_assoc, List.append_assoc, findValue_blanks a.gap_ne a.gap_blank,
    findValue_word a.name_ne a.not_blank hname]
  cases hvalue : a.value? with
  | none => simp
  | some v =>
    have hsilent : ¬Speaks false v.text := by
      rintro (⟨hfree, -⟩ | hword)
      · cases hfree
      · exact h (.inr ⟨v, hvalue, hword⟩)
    have hchars : (Option.map Quoted.chars (some v)).getD [] ++ rest =
        v.opening ++ (v.text ++ v.quote :: rest) := by simp [Quoted.chars]
    rw [hchars, findValue_opening, findValue_text v.closes hsilent]
    simp [Quoted.chars]

theorem Attribute.early (a : Attribute) (h : a.Mentions) (hrest : Following rest) :
    Early (front.length + a.chars.length) (findValue front false (a.chars ++ rest)) := by
  have hchars : a.chars ++ rest =
      a.gap ++ (a.name ++ ((a.value?.map Quoted.chars).getD [] ++ rest)) := by
    simp [Attribute.chars]
  rw [hchars, findValue_blanks a.gap_ne a.gap_blank]
  by_cases hname : Begins a.name
  · obtain ⟨name, w, hsplit, href⟩ := hname
    rw [hsplit, List.append_assoc, findValue_named href]
    intro before value hfound
    obtain ⟨⟨gap, value'⟩, hvalue, heq⟩ := Option.map_eq_some_iff.1 hfound
    cases heq
    cases w with
    | cons d w =>
      have hd := isNameChar_iff.1 (a.name_plain d (by rw [hsplit]; simp))
      have hnone : valueAfter? ([] ++ d :: (w ++ ((a.value?.map Quoted.chars).getD [] ++ rest))) =
          none := valueAfter?_none (by simp) hd.1 hd.2.2.2.1
      rw [List.nil_append] at hnone
      rw [List.cons_append, hnone] at hvalue
      cases hvalue
    | nil =>
      cases hv : a.value? with
      | none =>
        obtain ⟨gap', d, more, rfl, -, hblank, hd, hequals⟩ := hrest
        rw [hv] at hvalue
        have hnone : valueAfter? (gap' ++ d :: more) = none := valueAfter?_none hblank hd hequals
        simp [hnone] at hvalue
      | some v =>
        have hopening : (Option.map Quoted.chars a.value?).getD [] ++ rest =
            (v.lead ++ '=' :: v.trail) ++ v.quote :: (v.text ++ v.quote :: rest) := by
          simp [hv, Quoted.chars, Quoted.opening]
        rw [List.nil_append, hopening] at hvalue
        have hgap := length_gap_le v.closes hvalue
        have hlength : a.chars.length = a.gap.length + name.length +
            ((v.lead ++ '=' :: v.trail).length + 1 + v.text.length + 1) := by
          simp [Attribute.chars, hv, hsplit, Quoted.chars, Quoted.opening]
          omega
        simp only [List.length_append, List.length_reverse] at hlength hgap ⊢
        omega
  · obtain ⟨v, hv, hword⟩ := h.resolve_left hname
    rw [findValue_word a.name_ne a.not_blank fun hbegins => hname (a.begins_name hrest hbegins)]
    have hopening : (Option.map Quoted.chars a.value?).getD [] ++ rest =
        v.opening ++ (v.text ++ v.quote :: rest) := by
      rw [Option.mem_def.1 hv]
      simp [Quoted.chars]
    rw [hopening, findValue_opening]
    have h : Early _ (findValue (v.opening.reverse ++ (a.name.reverse ++ (a.gap.reverse ++ front)))
        false (v.text ++ v.quote :: rest)) := findValue_text_early v.closes (.inr hword)
    have hlength : (v.opening.reverse ++ (a.name.reverse ++ (a.gap.reverse ++ front))).length +
        v.text.length + 1 = front.length + a.chars.length := by
      unfold Attribute.chars
      rw [Option.mem_def.1 hv]
      simp [Quoted.chars]
      omega
    rwa [hlength] at h

theorem Quoted.close_not_mem (v : Quoted) : '>' ∉ v.chars := by
  have hlead : '>' ∉ v.lead := fun hmem => absurd (v.lead_blank _ hmem) (by decide)
  have htrail : '>' ∉ v.trail := fun hmem => absurd (v.trail_blank _ hmem) (by decide)
  have hquote : '>' ≠ v.quote := by
    intro heq
    have hmark := v.quote_mark
    rw [← heq] at hmark
    exact absurd hmark (by decide)
  simp [Quoted.chars, Quoted.opening, hlead, htrail, hquote, v.close_inner]

theorem Attribute.close_not_mem (a : Attribute) : '>' ∉ a.chars := by
  have hgap : '>' ∉ a.gap := fun hmem => absurd (a.gap_blank _ hmem) (by decide)
  have hname : '>' ∉ a.name := fun hmem => absurd (a.name_plain _ hmem) (by decide)
  have hvalue : '>' ∉ (a.value?.map Quoted.chars).getD [] := by
    cases a.value? with
    | none => simp
    | some v => exact v.close_not_mem
  simp [Attribute.chars, hgap, hname, hvalue]

theorem skip_attributes (attrs : List Attribute) (h : ∀ b ∈ attrs, ¬b.Mentions)
    (hrest : Following rest) :
    findValue front false (attrs.flatMap Attribute.chars ++ rest) =
      findValue ((attrs.flatMap Attribute.chars).reverse ++ front) false rest := by
  induction attrs generalizing front with
  | nil => rfl
  | cons b attrs ih =>
    rw [List.flatMap_cons, List.append_assoc,
      b.skip (h b List.mem_cons_self) (hrest.chars attrs),
      ih fun c hc => h c (List.mem_cons_of_mem _ hc)]
    simp

theorem Early.mono {n k : Nat} {found : Option (List Char × List Char)} (h : Early n found)
    (hnk : n ≤ k) : Early k found := fun before value hfound => (h before value hfound).trans hnk

theorem early_attributes (attrs : List Attribute) (h : ∃ b ∈ attrs, b.Mentions)
    (hrest : Following rest) :
    Early (front.length + (attrs.flatMap Attribute.chars).length)
      (findValue front false (attrs.flatMap Attribute.chars ++ rest)) := by
  induction attrs generalizing front with
  | nil =>
    obtain ⟨b, hb, -⟩ := h
    cases hb
  | cons b attrs ih =>
    rw [List.flatMap_cons, List.append_assoc, List.length_append]
    by_cases hb : b.Mentions
    · exact (b.early hb (hrest.chars attrs)).mono (by omega)
    · obtain ⟨c, hc, hmentions⟩ := h
      have hc : c ∈ attrs := (List.mem_cons.1 hc).resolve_left fun heq => hb (heq ▸ hmentions)
      have hlater : Early _ (findValue (b.chars.reverse ++ front) false
          (attrs.flatMap Attribute.chars ++ rest)) := ih ⟨c, hc, hmentions⟩
      rw [b.skip hb (hrest.chars attrs)]
      refine hlater.mono ?_
      rw [List.length_append, List.length_reverse]
      omega

end Attributes

/-- A carrier's tag with a reference attribute that has a value in quotes. -/
structure ReferenceTag where
  name : List Char
  attrs : List Attribute
  reference : Attribute
  value : Quoted
  tail : List Char
  carrier : IsCarrier name
  isReference : IsReference reference.name
  value_eq : reference.value? = some value
  tail_inner : '>' ∉ tail

namespace ReferenceTag

variable (t : ReferenceTag)

/-- What stands between the tag's name and the value. -/
def before : List Char :=
  t.attrs.flatMap Attribute.chars ++ t.reference.gap ++ t.reference.name ++ t.value.opening

/-- What stands between the name and the tag's end, with a text in the value's place. -/
def body (new : List Char) : List Char := t.before ++ new ++ t.value.quote :: t.tail

/-- The tag with a text in the value's place. -/
def holding (new : List Char) : List Char := '<' :: t.name ++ t.body new ++ ['>']

theorem body_eq : t.body t.value.text =
    t.attrs.flatMap Attribute.chars ++ (t.reference.chars ++ t.tail) := by
  simp [body, before, Attribute.chars, t.value_eq, Quoted.chars]

theorem following : Following (t.body t.value.text) := by
  rw [body_eq]
  exact (t.reference.following t.tail).chars t.attrs

theorem opens (rest : List Char) :
    Opens (t.name ++ (t.body t.value.text ++ '>' :: rest)) [] t.name (t.body t.value.text) rest := by
  refine ⟨rfl, by simp, t.carrier, ?_, ?_⟩
  · obtain ⟨gap, d, more, hbody, hne, hblank, -⟩ := t.following
    obtain ⟨b, gap, rfl⟩ := List.exists_cons_of_ne_nil hne
    exact ⟨b, gap ++ d :: more, hbody, hblank b List.mem_cons_self, by simp⟩
  · have hattrs : '>' ∉ t.attrs.flatMap Attribute.chars := by
      rw [List.mem_flatMap]
      rintro ⟨b, -, hmem⟩
      exact b.close_not_mem hmem
    rw [body_eq]
    simp [hattrs, t.reference.close_not_mem, t.tail_inner]

theorem findValue_silent (h : ∀ b ∈ t.attrs, ¬b.Mentions) :
    findValue [] false (t.body t.value.text) = some (t.before, t.value.text) := by
  have hquoted : valueAfter? (t.value.opening ++ (t.value.text ++ t.value.quote :: t.tail)) =
      some (t.value.opening, t.value.text) := by
    have hsplit : t.value.opening ++ (t.value.text ++ t.value.quote :: t.tail) = t.value.lead ++
        '=' :: (t.value.trail ++ (t.value.quote :: (t.value.text ++ t.value.quote :: t.tail))) := by
      simp [Quoted.opening]
    have hstop : ∀ c ∈ (t.value.quote :: (t.value.text ++ t.value.quote :: t.tail)).head?,
        isBlank c = false := by
      rintro c ⟨⟩
      exact t.value.closes.not_blank
    rw [hsplit, valueAfter?_eq t.value.lead_blank t.value.trail_blank hstop,
      valueAt?_quoted t.value.quote_mark t.value.quote_inner]
    rfl
  have hchars : t.reference.chars ++ t.tail = t.reference.gap ++ (t.reference.name ++
      (t.value.opening ++ (t.value.text ++ t.value.quote :: t.tail))) := by
    simp [Attribute.chars, t.value_eq, Quoted.chars]
  rw [body_eq, skip_attributes t.attrs h (t.reference.following t.tail), hchars,
    findValue_blanks t.reference.gap_ne t.reference.gap_blank, findValue_named t.isReference, hquoted]
  simp [before]

theorem splitBody_silent (h : ∀ b ∈ t.attrs, ¬b.Mentions) :
    splitBody (t.body t.value.text) =
      if (Text.trim t.value.text).isEmpty then none
      else some (t.before ++ t.value.text.takeWhile isBlank, Text.trim t.value.text) := by
  unfold splitBody
  rw [t.findValue_silent h]

/-- Blanks behind an early place end where the next word begins. -/
theorem length_le_of_blanks {front blanks rest place more : List Char} {d : Char}
    (hparts : front ++ blanks ++ rest = place ++ d :: more) (hfront : front.length ≤ place.length)
    (hblanks : ∀ c ∈ blanks, isBlank c = true) (hd : isBlank d = false) :
    (front ++ blanks).length ≤ place.length := by
  rcases List.append_eq_append_iff.1 hparts with ⟨w, hplace, -⟩ | ⟨w, hlonger, hw⟩
  · rw [hplace]
    exact (List.prefix_append _ _).length_le
  · cases w with
    | nil => rw [hlonger, List.append_nil]
    | cons e w =>
      rw [List.cons_append, List.cons.injEq] at hw
      have hmem : d ∈ blanks := by
        rcases List.append_eq_append_iff.1 hlonger with ⟨y, -, hy⟩ | ⟨y, hy, hblank⟩
        · rw [hy, hw.1]
          simp
        · have hnil : y = [] := by
            have hlength := congrArg List.length hy
            rw [List.length_append] at hlength
            exact List.length_eq_zero_iff.1 (by omega)
          rw [hnil, List.nil_append] at hblank
          rw [← hblank, hw.1]
          simp
      exact absurd (hblanks d hmem) (Bool.eq_false_iff.1 hd)

/-- A value that is found early begins before the reference attribute's name. -/
theorem splitBody_early (h : ∃ b ∈ t.attrs, b.Mentions) {front core : List Char}
    (hfound : splitBody (t.body t.value.text) = some (front, core)) :
    front.length ≤ (t.attrs.flatMap Attribute.chars ++ t.reference.gap).length := by
  have hearly : Early (([] : List Char).length + _) (findValue [] false
      (t.attrs.flatMap Attribute.chars ++ (t.reference.chars ++ t.tail))) :=
    early_attributes t.attrs h (t.reference.following t.tail)
  rw [← body_eq, List.length_nil, Nat.zero_add] at hearly
  unfold splitBody at hfound
  split at hfound
  · rename_i before value hvalue
    obtain ⟨-, hfound⟩ := Option.ite_none_left_eq_some.1 hfound
    cases hfound
    have hbefore := hearly before value hvalue
    obtain ⟨prior, rest, hparts, hprior, -⟩ := findValue_exchange hvalue
    obtain ⟨d, name, hname⟩ := List.exists_cons_of_ne_nil t.reference.name_ne
    have hd : isBlank d = false := t.reference.not_blank d (by rw [hname]; simp)
    obtain ⟨back, hcore, -⟩ := Text.exists_trim value
    have hsplit : before ++ value.takeWhile isBlank ++ (Text.trim value ++ back ++ rest) =
        (t.attrs.flatMap Attribute.chars ++ t.reference.gap) ++
          d :: (name ++ (t.value.chars ++ t.tail)) := by
      have hbody := t.body_eq.symm.trans hparts
      rw [List.reverse_nil, List.nil_append] at hprior
      rw [hcore, ← hprior] at hbody
      simp only [Attribute.chars, t.value_eq, hname] at hbody
      simpa using hbody.symm
    refine length_le_of_blanks hsplit ?_ (fun _ => List.mem_takeWhile_imp) hd
    rw [List.length_append]
    omega
  · cases hfound

variable {m : Type → Type} [Monad m] [LawfulMonad m] (handle : List Char → m (List Char))

theorem holding_append (rest : List Char) : t.holding t.value.text ++ rest =
    '<' :: (t.name ++ (t.body t.value.text ++ '>' :: rest)) := by
  simp [holding]

/-- The value of a reference attribute of a tag that stands outside of other tags is asked for and
its answer replaces it, with the blanks around it kept, when no attribute before it has a name that
begins like a reference attribute's or a word in its value that does. When one has, nothing in the
tag is replaced or something that begins before the reference attribute. -/
theorem redirect_holding {front : List Char} (hfront : Outside front) (rest : List Char) :
    ((∀ b ∈ t.attrs, ¬b.Mentions) → ∃ u v, t.value.text = u ++ Text.trim t.value.text ++ v ∧
      (∀ c ∈ u ++ v, isBlank c = true) ∧
      redirect handle (front ++ t.holding t.value.text ++ rest) = do
        let out ← redirect handle front
        let new ← ask handle (Text.trim t.value.text)
        let out' ← redirect handle rest
        return out ++ t.holding (u ++ new ++ v) ++ out') ∧
    ((∃ b ∈ t.attrs, b.Mentions) →
      (redirect handle (front ++ t.holding t.value.text ++ rest) = do
        let out ← redirect handle front
        let out' ← redirect handle rest
        return out ++ t.holding t.value.text ++ out') ∨
      ∃ before value after, t.holding t.value.text = before ++ value ++ after ∧ value ≠ [] ∧
        before.length ≤
          ('<' :: t.name ++ t.attrs.flatMap Attribute.chars ++ t.reference.gap).length ∧
        redirect handle (front ++ t.holding t.value.text ++ rest) = do
          let out ← redirect handle front
          let new ← ask handle value
          let out' ← redirect handle rest
          return out ++ (before ++ new ++ after) ++ out') := by
  have hpage : redirect handle (front ++ t.holding t.value.text ++ rest) =
      redirect handle front >>= fun out =>
        (out ++ ·) <$> redirect handle (t.holding t.value.text ++ rest) := by
    rw [List.append_assoc, holding_append]
    exact redirect_append handle hfront _
  have hpassed (h : splitBody (t.body t.value.text) = none) :
      redirect handle (t.holding t.value.text ++ rest) =
        (t.holding t.value.text ++ ·) <$> redirect handle rest := by
    rw [holding_append, redirect_passed handle (t.opens rest) h]
    simp [holding]
  refine ⟨fun h => ?_, fun h => ?_⟩
  · obtain ⟨v, htext, hv, -⟩ := Text.exists_trim t.value.text
    have hblank : ∀ c ∈ t.value.text.takeWhile isBlank ++ v, isBlank c = true := by
      intro c hc
      exact (List.mem_append.1 hc).elim List.mem_takeWhile_imp (hv c)
    refine ⟨_, v, htext, hblank, ?_⟩
    have hbody := t.splitBody_silent h
    rw [hpage]
    by_cases hcore : Text.trim t.value.text = []
    · rw [hcore] at hbody htext ⊢
      have hask : ask handle [] = pure [] := rfl
      simp only [hpassed hbody, hask, pure_bind, ← htext]
      simp
    · rw [List.isEmpty_eq_false_iff.2 hcore, if_neg Bool.false_ne_true] at hbody
      have hparts : t.body t.value.text = (t.before ++ t.value.text.takeWhile isBlank) ++
          (Text.trim t.value.text ++ (v ++ t.value.quote :: t.tail)) := by
        conv_lhs => rw [htext]
        simp [body]
      rw [holding_append, redirect_found handle (t.opens rest) hbody hparts]
      simp [holding, body]
  · cases hbody : splitBody (t.body t.value.text) with
    | none =>
      refine .inl ?_
      rw [hpage, hpassed hbody]
      simp
    | some cut =>
      obtain ⟨after, hparts, hne, -⟩ := splitBody_exchange hbody
      have hearly := t.splitBody_early h hbody
      refine .inr ⟨'<' :: t.name ++ cut.1, cut.2, after ++ ['>'], ?_, hne, ?_, ?_⟩
      · rw [holding, hparts]
        simp
      · simp only [List.length_append, List.length_cons] at hearly ⊢
        omega
      · rw [hpage, holding_append, redirect_found handle (t.opens rest) hbody hparts]
        simp

end ReferenceTag

/-- The tag `<img alt="an image" SRC="a.png" id='b'>`. -/
def portrait : ReferenceTag :=
  let text : Quoted :=
    ⟨[], [], '\x22', "an image".toList, nofun, nofun, rfl, by decide +kernel, by decide +kernel⟩
  let file : Quoted :=
    ⟨[], [], '\x22', "a.png".toList, nofun, nofun, rfl, by decide +kernel, by decide +kernel⟩
  { name := "img".toList
    attrs := [⟨[' '], "alt".toList, some text, by decide, List.all_eq_true.1 rfl, by decide,
      List.all_eq_true.1 rfl⟩]
    reference := ⟨[' '], "SRC".toList, some file, by decide, List.all_eq_true.1 rfl, by decide,
      List.all_eq_true.1 rfl⟩
    value := file
    tail := " id='b'".toList
    carrier := by decide +kernel
    isReference := .inr (by decide +kernel)
    value_eq := rfl
    tail_inner := by decide +kernel }

theorem redirect_holding_portrait : Outside "see ".toList ∧
    (∀ b ∈ portrait.attrs, ¬b.Mentions) ∧
    redirect (m := Id) (fun target => '[' :: target ++ [']'])
        ("see ".toList ++ portrait.holding portrait.value.text ++ "!".toList) =
      "see <img alt=\"an image\" SRC=\"[a.png]\" id='b'>!".toList := by
  have hfront : Outside "see ".toList := outside_of_not_mem (by decide +kernel)
  have hsilent : ∀ b ∈ portrait.attrs, ¬b.Mentions := by decide +kernel
  refine ⟨hfront, hsilent, ?_⟩
  obtain ⟨u, v, htext, -, hrun⟩ := (portrait.redirect_holding (m := Id)
    (fun target => '[' :: target ++ [']']) hfront "!".toList).1 hsilent
  have hcore : Text.trim portrait.value.text = portrait.value.text := by decide
  have hlength := congrArg List.length htext
  rw [hcore, List.length_append, List.length_append] at hlength
  have hu : u = [] := List.length_eq_zero_iff.1 (by omega)
  have hv : v = [] := List.length_eq_zero_iff.1 (by omega)
  rw [hrun, hu, hv, redirect_plain _ (by decide), redirect_plain _ (by decide)]
  rfl

end Bindery.Html.Reference
