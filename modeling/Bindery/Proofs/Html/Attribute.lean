import Bindery.Proofs.Asset.Token
import Bindery.Proofs.Html.Tag

/-! Where the scan finds the value of a tag's first reference attribute. The value may be exchanged
for a text that could stand in its place: the scan finds that text where the value was. -/

namespace Bindery.Html.Reference

open Text (isBlank)

/-- The characters of a value that stands without quotes. -/
def isBare (c : Char) : Bool := !(isBlank c || "\x22'=<>\x60".toList.contains c)

theorem isBare_iff {c : Char} : isBare c = true ↔ isBlank c = false ∧ c ≠ '\x22' ∧ c ≠ '\x27' ∧
    c ≠ '=' ∧ c ≠ '<' ∧ c ≠ '>' ∧ c ≠ '\x60' := by
  simp [isBare]

/-- The value at the front of a text and the quote that opens it. -/
def valueAt? : List Char → Option (List Char × List Char)
  | [] => none
  | q :: more =>
    if q = '\x22' || q = '\x27' then
      let value := more.takeWhile (· != q)
      if value.length < more.length then some ([q], value) else none
    else
      let value := (q :: more).takeWhile isBare
      if value.isEmpty then none else some ([], value)

theorem valueAt?_cons (q : Char) (more : List Char) : valueAt? (q :: more) =
    if q = '\x22' || q = '\x27' then
      if (more.takeWhile (· != q)).length < more.length then some ([q], more.takeWhile (· != q))
      else none
    else if ((q :: more).takeWhile isBare).isEmpty then none
    else some ([], (q :: more).takeWhile isBare) := rfl

theorem valueAfter?_eq {u v after : List Char} (hu : ∀ c ∈ u, isBlank c = true)
    (hv : ∀ c ∈ v, isBlank c = true) (hafter : ∀ c ∈ after.head?, isBlank c = false) :
    valueAfter? (u ++ '=' :: (v ++ after)) =
      (valueAt? after).map fun found => (u ++ '=' :: v ++ found.1, found.2) := by
  have hequals : ∀ c ∈ ('=' :: (v ++ after)).head?, isBlank c = false := by
    rintro c ⟨⟩
    decide
  have hgap := Text.takeWhile_append_of_stop hu hequals
  have hrest := Text.dropWhile_append_of_stop hu hequals
  have hgap' := Text.takeWhile_append_of_stop hv hafter
  have hrest' := Text.dropWhile_append_of_stop hv hafter
  unfold valueAfter? valueAt?
  simp only [hgap, hrest, hgap', hrest']
  cases after with
  | nil => rfl
  | cons q more =>
    simp only
    split
    · split <;> rfl
    · show (if ((q :: more).takeWhile isBare).isEmpty then none
        else some (u ++ '=' :: v, (q :: more).takeWhile isBare)) = _
      split <;> simp

theorem exists_of_valueAfter? {cs gap value : List Char} (h : valueAfter? cs = some (gap, value)) :
    ∃ u v after quote, cs = u ++ '=' :: (v ++ after) ∧ (∀ c ∈ u, isBlank c = true) ∧
      (∀ c ∈ v, isBlank c = true) ∧ valueAt? after = some (quote, value) ∧
      gap = u ++ '=' :: v ++ quote := by
  have hu : ∀ c ∈ cs.takeWhile isBlank, isBlank c = true := fun _ => List.mem_takeWhile_imp
  have hcs := List.takeWhile_append_dropWhile (p := isBlank) (l := cs)
  cases hequals : cs.dropWhile isBlank with
  | nil => simp [valueAfter?, hequals] at h
  | cons d rest =>
    have hd : d = '=' := by
      by_contra hd
      simp [valueAfter?, hequals, hd] at h
    have hv : ∀ c ∈ rest.takeWhile isBlank, isBlank c = true := fun _ => List.mem_takeWhile_imp
    have hafter : ∀ c ∈ (rest.dropWhile isBlank).head?, isBlank c = false := by
      intro c hc
      have hstop := List.head?_dropWhile_not isBlank rest
      rw [Option.mem_def.1 hc] at hstop
      simpa using hstop
    have hrest := List.takeWhile_append_dropWhile (p := isBlank) (l := rest)
    have hsplit : cs = cs.takeWhile isBlank ++
        '=' :: (rest.takeWhile isBlank ++ rest.dropWhile isBlank) := by
      rw [hrest, ← hd, ← hequals, hcs]
    rw [hsplit, valueAfter?_eq hu hv hafter] at h
    obtain ⟨⟨quote, value'⟩, hfound, heq⟩ := Option.map_eq_some_iff.1 h
    cases heq
    exact ⟨_, _, _, quote, hsplit, hu, hv, hfound, rfl⟩

theorem isBare_of_isTokenChar {c : Char} (h : Token.isTokenChar c = true) : isBare c = true := by
  have hcode : (97 ≤ c.toNat ∧ c.toNat ≤ 122) ∨ (48 ≤ c.toNat ∧ c.toNat ≤ 57) ∨ c.toNat = 45 := by
    simp only [Token.isTokenChar, Bool.or_eq_true, Bool.and_eq_true, decide_eq_true_eq,
      beq_iff_eq] at h
    rcases h with (h | h) | rfl
    · exact .inl h
    · exact .inr (.inl h)
    · exact .inr (.inr rfl)
  have hblank : isBlank c = false := by
    simp only [isBlank, Bool.or_eq_false_iff, Bool.and_eq_false_iff, decide_eq_false_iff_not,
      beq_eq_false_iff_ne]
    omega
  rw [isBare_iff]
  refine ⟨hblank, ?_, ?_, ?_, ?_, ?_, ?_⟩ <;> rintro rfl <;> exact absurd h (by decide)

theorem valueAt?_quoted {q : Char} (hq : (q = '\x22' || q = '\x27') = true) {value : List Char}
    (hvalue : q ∉ value) (rest : List Char) :
    valueAt? (q :: (value ++ q :: rest)) = some ([q], value) := by
  rw [valueAt?_cons, if_pos hq, Text.takeWhile_bne hvalue, if_pos (by simp)]

theorem valueAt?_bare {value rest : List Char} (hne : value ≠ [])
    (hvalue : ∀ c ∈ value, isBare c = true) (hrest : ∀ c ∈ rest.head?, isBare c = false) :
    valueAt? (value ++ rest) = some ([], value) := by
  obtain ⟨c, more, rfl⟩ := List.exists_cons_of_ne_nil hne
  have hc := isBare_iff.1 (hvalue c List.mem_cons_self)
  have htake := Text.takeWhile_append_of_stop hvalue hrest
  rw [List.cons_append] at htake ⊢
  rw [valueAt?_cons, if_neg (by simp [hc.2.1, hc.2.2.1]), htake]
  rfl

/-- A value may be exchanged for a text that is not empty and that brings no other characters than
those of tokens. -/
theorem valueAt?_exchange {cs quote value : List Char} (h : valueAt? cs = some (quote, value)) :
    ∃ rest, cs = quote ++ (value ++ rest) ∧ ∀ new, new ≠ [] →
      (∀ c ∈ new, c ∈ value ∨ Token.isTokenChar c = true) →
      valueAt? (quote ++ (new ++ rest)) = some (quote, new) := by
  cases cs with
  | nil => cases h
  | cons q more =>
    rw [valueAt?_cons] at h
    split at h
    · rename_i hq
      obtain ⟨hlength, h⟩ := Option.ite_none_right_eq_some.1 h
      cases h
      obtain ⟨rest, hrest⟩ := Text.exists_cut hlength
      refine ⟨q :: rest, congrArg (q :: ·) hrest, fun new _ hnew => valueAt?_quoted hq ?_ rest⟩
      intro hmem
      rcases hnew q hmem with hold | htoken
      · exact absurd (List.mem_takeWhile_imp hold) (by simp)
      · have hbare := isBare_iff.1 (isBare_of_isTokenChar htoken)
        simp [hbare.2.1, hbare.2.2.1] at hq
    · obtain ⟨-, h⟩ := Option.ite_none_left_eq_some.1 h
      cases h
      have hsplit := List.takeWhile_append_dropWhile (p := isBare) (l := q :: more)
      refine ⟨(q :: more).dropWhile isBare, hsplit.symm, fun new hne hnew => ?_⟩
      refine valueAt?_bare hne (fun c hc => ?_) (fun c hc => ?_)
      · exact (hnew c hc).elim List.mem_takeWhile_imp isBare_of_isTokenChar
      · have hstop := List.head?_dropWhile_not isBare (q :: more)
        rw [Option.mem_def.1 hc] at hstop
        simpa using hstop

theorem not_blank_of_valueAt? {cs : List Char} {found : List Char × List Char}
    (h : valueAt? cs = some found) : ∀ c ∈ cs.head?, isBlank c = false := by
  cases cs with
  | nil => cases h
  | cons q more =>
    rintro c ⟨⟩
    rw [valueAt?_cons] at h
    split at h
    · rename_i hq
      rw [Bool.or_eq_true, decide_eq_true_eq, decide_eq_true_eq] at hq
      rcases hq with rfl | rfl <;> decide
    · by_contra hblank
      rw [Bool.not_eq_false] at hblank
      have hbare : isBare q = false := by simp [isBare, hblank]
      simp [hbare] at h

theorem valueAfter?_exchange {cs gap value : List Char} (h : valueAfter? cs = some (gap, value)) :
    ∃ rest, cs = gap ++ (value ++ rest) ∧ gap ≠ [] ∧ ∀ new, new ≠ [] →
      (∀ c ∈ new, c ∈ value ∨ Token.isTokenChar c = true) →
      valueAfter? (gap ++ (new ++ rest)) = some (gap, new) := by
  obtain ⟨u, v, after, quote, rfl, hu, hv, hfound, rfl⟩ := exists_of_valueAfter? h
  obtain ⟨rest, rfl, hexchange⟩ := valueAt?_exchange hfound
  refine ⟨rest, by simp, by simp, fun new hne hnew => ?_⟩
  have hfound' := hexchange new hne hnew
  have hsplit : u ++ '=' :: v ++ quote ++ (new ++ rest) =
      u ++ '=' :: (v ++ (quote ++ (new ++ rest))) := by simp
  rw [hsplit, valueAfter?_eq hu hv (not_blank_of_valueAt? hfound'), hfound']
  rfl

/-- A reference attribute's name at the front of a text, as its length and what follows it. -/
def named? (cs : List Char) : Option (Nat × List Char) :=
  (afterFolded? "href".toList cs).map (("href".length, ·)) <|>
    (afterFolded? "src".toList cs).map (("src".length, ·))

theorem findValue_cons (front : List Char) (free : Bool) (c : Char) (cs : List Char) :
    findValue front free (c :: cs) =
      match (if free then named? (c :: cs) else none) with
      | some (width, rest) =>
        (valueAfter? rest).map fun found =>
          (front.reverse ++ (c :: cs).take width ++ found.1, found.2)
      | none => findValue (c :: front) (isBlank c) cs := rfl

theorem afterFolded?_append {word cs : List Char} (h : word.length ≤ cs.length)
    (rest : List Char) :
    afterFolded? word (cs ++ rest) = (afterFolded? word cs).map (· ++ rest) := by
  induction word generalizing cs with
  | nil => rfl
  | cons w word ih =>
    cases cs with
    | nil => exact absurd h (by simp)
    | cons c cs =>
      rw [List.cons_append]
      unfold afterFolded?
      split
      · exact ih (Nat.le_of_succ_le_succ h)
      · rfl

/-- A name is four characters at most, so what stands behind those does not decide. -/
theorem named?_append {cs : List Char} (h : 4 ≤ cs.length) (rest : List Char) :
    named? (cs ++ rest) = (named? cs).map fun found => (found.1, found.2 ++ rest) := by
  have hhref : "href".toList.length ≤ cs.length := h
  have hsrc : "src".toList.length ≤ cs.length := Nat.le_of_succ_le h
  unfold named?
  rw [afterFolded?_append hhref, afterFolded?_append hsrc]
  cases afterFolded? "href".toList cs <;> cases afterFolded? "src".toList cs <;> rfl

theorem exists_of_named? {cs rest : List Char} {width : Nat} (h : named? cs = some (width, rest)) :
    ∃ name, cs = name ++ rest ∧ name.length = width ∧
      (name.map foldCase = "href".toList ∨ name.map foldCase = "src".toList) := by
  unfold named? at h
  cases hhref : afterFolded? "href".toList cs with
  | some after =>
    rw [hhref] at h
    cases h
    obtain ⟨name, hname, hcs⟩ := afterFolded?_eq_some_iff.1 hhref
    exact ⟨name, hcs, by rw [← List.length_map foldCase, hname]; rfl, .inl hname⟩
  | none =>
    cases hsrc : afterFolded? "src".toList cs with
    | none =>
      rw [hhref, hsrc] at h
      cases h
    | some after =>
      rw [hhref, hsrc] at h
      cases h
      obtain ⟨name, hname, hcs⟩ := afterFolded?_eq_some_iff.1 hsrc
      exact ⟨name, hcs, by rw [← List.length_map foldCase, hname]; rfl, .inr hname⟩

theorem named?_of_name {name : List Char}
    (h : name.map foldCase = "href".toList ∨ name.map foldCase = "src".toList)
    (rest : List Char) : named? (name ++ rest) = some (name.length, rest) := by
  unfold named?
  rcases h with h | h
  · rw [afterFolded?_eq_some_iff.2 ⟨name, h, rfl⟩, ← List.length_map foldCase, h]
    rfl
  · have hhref : afterFolded? "href".toList (name ++ rest) = none := by
      obtain ⟨d, name, rfl, hd, -⟩ := List.map_eq_cons_iff.1 (show _ = 's' :: ['r', 'c'] from h)
      show (if 'h' = foldCase d then _ else none) = none
      rw [hd]
      rfl
    rw [hhref, afterFolded?_eq_some_iff.2 ⟨name, h, rfl⟩, ← List.length_map foldCase, h]
    rfl

theorem findValue_exchange {front cs before value : List Char} {free : Bool}
    (h : findValue front free cs = some (before, value)) :
    ∃ prior rest, cs = prior ++ (value ++ rest) ∧ before = front.reverse ++ prior ∧
      4 ≤ prior.length ∧ ∀ new, new ≠ [] →
      (∀ c ∈ new, c ∈ value ∨ Token.isTokenChar c = true) →
      findValue front free (prior ++ (new ++ rest)) = some (before, new) := by
  induction cs generalizing front free with
  | nil => cases h
  | cons c cs ih =>
    rw [findValue_cons] at h
    split at h
    · rename_i width after hnamed
      obtain ⟨hfree, hnamed⟩ := Option.ite_none_right_eq_some.1 hnamed
      obtain ⟨⟨gap, value'⟩, hvalue, heq⟩ := Option.map_eq_some_iff.1 h
      cases heq
      obtain ⟨name, hcs, rfl, hname⟩ := exists_of_named? hnamed
      obtain ⟨rest, rfl, hgap, hexchange⟩ := valueAfter?_exchange hvalue
      rw [hcs, List.take_left]
      refine ⟨name ++ gap, rest, by simp, by simp, ?_, fun new hne hnew => ?_⟩
      · have hwidth : 3 ≤ name.length := by
          rcases hname with hname | hname <;> rw [← List.length_map foldCase, hname] <;> decide
        have hpos := List.length_pos_of_ne_nil hgap
        rw [List.length_append]
        omega
      · obtain ⟨d, name, rfl⟩ : ∃ d name', name = d :: name' := by
          cases name with
          | nil => rcases hname with hname | hname <;> cases hname
          | cons d name => exact ⟨d, name, rfl⟩
        have hnamed' := named?_of_name hname (gap ++ (new ++ rest))
        rw [List.append_assoc, List.cons_append, findValue_cons, hfree, if_pos rfl,
          ← List.cons_append, hnamed']
        simp only [hexchange new hne hnew, Option.map_some, List.take_left]
    · rename_i hnamed
      obtain ⟨prior, rest, rfl, rfl, hlength, hexchange⟩ := ih h
      refine ⟨c :: prior, rest, rfl, by simp, Nat.le_succ_of_le hlength, fun new hne hnew => ?_⟩
      have hskip : (if free then named? (c :: prior ++ (new ++ rest)) else none) = none := by
        cases free with
        | false => rfl
        | true =>
          have hlong : 4 ≤ (c :: prior).length := Nat.le_succ_of_le hlength
          rw [← List.cons_append, if_pos rfl, named?_append hlong] at hnamed
          rw [if_pos rfl, named?_append hlong]
          rw [Option.map_eq_none_iff] at hnamed ⊢
          exact hnamed
      rw [List.cons_append, findValue_cons, ← List.cons_append, hskip]
      exact hexchange new hne hnew

/-- A tag's body is cut around the core of its value, and another text without blanks is found
where the core was. -/
theorem splitBody_exchange {body before core : List Char} (h : splitBody body = some (before, core)) :
    ∃ rest, body = before ++ (core ++ rest) ∧ core ≠ [] ∧ before ≠ [] ∧ ∀ new, new ≠ [] →
      (∀ c ∈ new, Token.isTokenChar c = true) →
      splitBody (before ++ (new ++ rest)) = some (before, new) := by
  unfold splitBody at h
  split at h
  · rename_i front value hfound
    obtain ⟨hcore, h⟩ := Option.ite_none_left_eq_some.1 h
    cases h
    rw [List.isEmpty_iff] at hcore
    obtain ⟨prior, rest, rfl, hprior, hlength, hexchange⟩ := findValue_exchange hfound
    rw [List.reverse_nil, List.nil_append] at hprior
    subst hprior
    obtain ⟨back, hvalue, hback, -⟩ := Text.exists_trim value
    have hblanks : ∀ c ∈ value.takeWhile isBlank, isBlank c = true := fun _ => List.mem_takeWhile_imp
    have hfront : front ≠ [] := by
      rintro rfl
      exact absurd hlength (by simp)
    refine ⟨back ++ rest, ?_, hcore, by simp [hfront], fun new hne hnew => ?_⟩
    · conv_lhs => rw [hvalue]
      simp
    · have hplain : ∀ c ∈ new, isBlank c = false := fun c hc =>
        (isBare_iff.1 (isBare_of_isTokenChar (hnew c hc))).1
      have hfound' := hexchange (value.takeWhile isBlank ++ new ++ back) (by simp [hne]) (by
        intro c hc
        rw [hvalue]
        simp only [List.mem_append] at hc ⊢
        rcases hc with (hc | hc) | hc
        · exact .inl (.inl (.inl hc))
        · exact .inr (hnew c hc)
        · exact .inl (.inr hc))
      have htake : (value.takeWhile isBlank ++ (new ++ back)).takeWhile isBlank =
          value.takeWhile isBlank := by
        refine Text.takeWhile_append_of_stop hblanks fun c hc => ?_
        obtain ⟨d, new, rfl⟩ := List.exists_cons_of_ne_nil hne
        cases hc
        exact hplain _ List.mem_cons_self
      have htrim := Text.trim_surrounded hblanks (Text.trimmed_of_forall hplain) hback
      have hbody : front ++ value.takeWhile isBlank ++ (new ++ (back ++ rest)) =
          front ++ (value.takeWhile isBlank ++ new ++ back ++ rest) := by simp
      unfold splitBody
      rw [hbody, hfound']
      simp only [htrim]
      rw [if_neg (by simp [hne]), List.append_assoc (value.takeWhile isBlank) new back, htake]
  · cases h

end Bindery.Html.Reference
