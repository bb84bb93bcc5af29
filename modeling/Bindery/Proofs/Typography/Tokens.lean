import Bindery.Proofs.Asset.Token
import Bindery.Proofs.Typography.Alignment

/-! Tokens in educated markup. No run begins in a token, whatever is written behind it, and none is cut
where one begins or ends, so a token stands as it is in every state of the walk and parts what is before
it from what is behind it. Read backwards, what is written can be cut only where what is read was cut: a
token that is found in it was there before. -/

namespace Bindery.Html.Typography

/-- No run begins in the text, whatever is written behind it. -/
inductive Steady : List Char → Prop where
  | nil : Steady []
  | cons {c : Char} {w : List Char} (hc : ∀ more, ¬Stirs (c :: (w ++ more))) (h : Steady w) :
    Steady (c :: w)

/-- No run reaches into the text or begins in it, and no sign of a run is in it. -/
structure Whole (w : List Char) : Prop where
  begins : ∃ c ∈ w.head?, c ∉ strokes
  steady : Steady w
  unmarked : ∀ c ∈ w, c ∉ marks

/-- The words that begin at each place of the text, from its first place on. -/
def sightings (words : List (List Char)) (cs : List Char) : List (List Char) :=
  cs.tails.flatMap fun v => words.filter (·.isPrefixOf v)

section Words

variable {c : Char} {u v w cs out : List Char} {words : List (List Char)}

theorem Steady.plain (hu : ∀ c ∈ u, c ∉ strokes) (h : Steady w) : Steady (u ++ w) := by
  induction u with
  | nil => exact h
  | cons c u ih =>
    have hc : c ∉ strokes := hu c List.mem_cons_self
    exact .cons (fun _ hstirs => hc hstirs.head) (ih fun d hd => hu d (List.mem_cons_of_mem c hd))

theorem Steady.hyphen (hc : c ∉ strokes) (h : Steady (c :: w)) : Steady ('-' :: c :: w) := by
  refine .cons (fun more => ?_) h
  rintro ⟨run, hrun, rest, hrest⟩
  simp only [runs, List.mem_cons, List.not_mem_nil, or_false] at hrun
  rcases hrun with rfl | rfl | rfl | rfl <;> cases hrest
  exact hc (by decide)

theorem Steady.walk (h : Steady w) (s : State) : walk 0 s w = w := by
  refine walk_eq_self_iff.2 ?_
  generalize s.place = p
  induction h generalizing p with
  | nil => exact Place.atRest_nil
  | @cons c w hc h ih =>
    refine Place.atRest_cons.2 ⟨fun _ => ?_, ih (p.step c)⟩
    simpa using hc []

/-- A dash or dot at the end would stir with what is written behind it. -/
theorem Steady.parted (h : Steady w) (v : List Char) : Parted w v := by
  have hends : ∀ c ∈ w.getLast?, c ≠ '-' ∧ c ≠ '.' := by
    induction h with
    | nil => simp
    | @cons c w hc h ih =>
      cases w with
      | nil =>
        intro d hd
        obtain rfl : c = d := by simpa using hd
        constructor
        · rintro rfl
          exact hc ['-'] (by decide)
        · rintro rfl
          exact hc ['.', '.'] (by decide)
      | cons d w => simpa using ih
  exact fun c hc _ => hends c hc

theorem Whole.parted (h : Whole w) (u v : List Char) : Parted u (w ++ v) := by
  obtain ⟨d, hd, hplain⟩ := h.begins
  intro c _ hc
  rw [List.head?_append, Option.mem_def.1 hd] at hc
  obtain rfl := Option.some.inj hc
  exact ⟨fun heq => hplain (heq ▸ by decide), fun heq => hplain (heq ▸ by decide)⟩

theorem Restyled.prefix_steady (h : Restyled cs out) (hw : Steady w) (hbegins : w <+: cs) :
    w <+: out := by
  induction h generalizing w with
  | nil => exact hbegins
  | keep c h ih =>
    cases hw with
    | nil => exact List.nil_prefix
    | cons hd hw =>
      obtain ⟨rfl, hrest⟩ := List.cons_prefix_cons.1 hbegins
      exact List.cons_prefix_cons.2 ⟨rfl, ih hw hrest⟩
  | @restyle run cs out mark hrun h ih =>
    cases hw with
    | nil => exact List.nil_prefix
    | @cons d w hd hw =>
      obtain ⟨more, hmore⟩ := hbegins
      refine absurd ?_ (hd more)
      rw [← List.cons_append, hmore]
      exact hrun.stirs cs

theorem Restyled.prefix_iff (h : Restyled cs out) (hw : Whole w) : w <+: out ↔ w <+: cs :=
  ⟨h.prefix_of hw.unmarked, h.prefix_steady hw.steady⟩

theorem sightings_cons (words : List (List Char)) (c : Char) (cs : List Char) :
    sightings words (c :: cs) = words.filter (·.isPrefixOf (c :: cs)) ++ sightings words cs := by
  simp [sightings]

theorem Whole.not_isPrefixOf (hw : Whole w) (hc : c ∈ strokes ∨ c ∈ marks) (cs : List Char) :
    w.isPrefixOf (c :: cs) = false := by
  obtain ⟨d, hd, hplain⟩ := hw.begins
  have hmem : d ∈ w := List.mem_of_mem_head? hd
  rw [← Bool.not_eq_true, List.isPrefixOf_iff_prefix]
  rintro ⟨more, hmore⟩
  have hsame : d = c := by
    have := congrArg List.head? hmore
    rw [List.head?_append, Option.mem_def.1 hd] at this
    exact Option.some.inj this
  exact hc.elim (hsame ▸ hplain) (hsame ▸ hw.unmarked d hmem)

theorem sightings_skip (hwords : ∀ w ∈ words, Whole w) (hu : ∀ c ∈ u, c ∈ strokes ∨ c ∈ marks)
    (cs : List Char) : sightings words (u ++ cs) = sightings words cs := by
  induction u with
  | nil => rfl
  | cons c u ih =>
    have hnone : words.filter (·.isPrefixOf (c :: (u ++ cs))) = [] :=
      List.filter_eq_nil_iff.2 fun w hw => by
        simp [(hwords w hw).not_isPrefixOf (hu c List.mem_cons_self)]
    rw [List.cons_append, sightings_cons, hnone, List.nil_append]
    exact ih fun d hd => hu d (List.mem_cons_of_mem c hd)

/-- Words that no run touches are seen in what is written where they were seen in what is read. -/
theorem Restyled.sightings_eq (h : Restyled cs out) (hwords : ∀ w ∈ words, Whole w) :
    sightings words out = sightings words cs := by
  induction h with
  | nil => rfl
  | @keep c cs out h ih =>
    have hsame : words.filter (·.isPrefixOf (c :: out)) = words.filter (·.isPrefixOf (c :: cs)) :=
      List.filter_congr fun w hw => by
        rw [Bool.eq_iff_iff, List.isPrefixOf_iff_prefix, List.isPrefixOf_iff_prefix]
        exact (Restyled.keep c h).prefix_iff (hwords w hw)
    rw [sightings_cons, sightings_cons, hsame, ih]
  | @restyle run cs out mark hrun h ih =>
    -- no word begins in the run, nor with its sign
    have hmark : ∀ c ∈ [mark], c ∈ strokes ∨ c ∈ marks := by
      intro c hc
      exact .inr (List.mem_singleton.1 hc ▸ hrun.mem_marks)
    rw [sightings_skip hwords fun c hc => .inl (hrun.mem_strokes c hc)]
    exact (sightings_skip hwords hmark out).trans ih

theorem length_sightings (w cs : List Char) :
    (sightings [w] cs).length = cs.tails.countP (w.isPrefixOf ·) := by
  rw [sightings, List.length_flatMap]
  induction cs.tails with
  | nil => rfl
  | cons v tails ih =>
    rw [List.map_cons, List.sum_cons, ih, List.countP_cons]
    cases hword : w.isPrefixOf v <;> simp [hword, Nat.add_comm]

end Words

section Cutting

variable {c : Char} {u v : List Char}

theorem educate_within (last : Option Char) (h : (educate last c (u ++ v)).2 ≤ u.length) :
    educate last c (u ++ v) = educate last c u := by
  match u with
  | [] =>
    unfold educate at h ⊢
    grind
  | [d] =>
    unfold educate at h ⊢
    grind
  | d :: e :: u => exact educate_cons_cons last c d e (u ++ v) u

theorem State.spell_within (s : State) (h : (s.spell c (u ++ v)).2 ≤ u.length) :
    s.spell c (u ++ v) = s.spell c u := by
  unfold spell at h ⊢
  split
  · next hopen =>
    rw [if_pos hopen] at h
    exact educate_within s.last h
  · rfl

theorem State.taken_le (s : State) (c : Char) (cs : List Char) : (s.spell c cs).2 ≤ cs.length := by
  rcases s.spell_cases c cs with ⟨hspell, -⟩ | ⟨run, mark, rest, -, -, hcs, hspell⟩
  · rw [hspell]
    exact Nat.zero_le _
  · have hlength := congrArg List.length hcs
    rw [List.length_cons, List.length_append] at hlength
    rw [hspell]
    show run.length - 1 ≤ cs.length
    omega

/-- What is written can be cut only where what is read can be cut. -/
theorem walk_eq_append {s : State} {cs a b : List Char} (h : walk 0 s cs = a ++ b) :
    ∃ u v, cs = u ++ v ∧ walk 0 s u = a ∧ walk 0 (s.after u) v = b := by
  induction s, cs using walk_induction generalizing a with
  | nil s =>
    obtain ⟨rfl, rfl⟩ := List.append_eq_nil_iff.1 h.symm
    exact ⟨[], [], rfl, rfl, rfl⟩
  | cons s c cs ih =>
    cases a with
    | nil => exact ⟨[], c :: cs, rfl, rfl, h⟩
    | cons d a =>
      rw [walk_eq] at h
      obtain ⟨hout, hrest⟩ := List.cons.inj h
      obtain ⟨u, v, hcs, hu, hv⟩ := ih hrest
      -- the characters that the first one takes in are on the near side of the cut
      have hread : cs = cs.take (s.spell c cs).2 ++ u ++ v := by
        rw [List.append_assoc, ← hcs, List.take_append_drop]
      have htaken : (cs.take (s.spell c cs).2).length = (s.spell c cs).2 := by
        rw [List.length_take, Nat.min_eq_left (s.taken_le c cs)]
      generalize cs.take (s.spell c cs).2 = taken at hread htaken
      have hspell : s.spell c cs = s.spell c (taken ++ u) := by
        have hwithin : (s.spell c (taken ++ u ++ v)).2 ≤ (taken ++ u).length := by
          rw [← hread, List.length_append, htaken]
          exact Nat.le_add_right _ _
        rw [hread]
        exact s.spell_within hwithin
      have hdrop : (taken ++ u).drop (s.spell c (taken ++ u)).2 = u := by
        rw [← hspell, ← htaken, List.drop_left]
      refine ⟨c :: (taken ++ u), v, congrArg (c :: ·) hread, ?_, ?_⟩
      · rw [walk_eq, hdrop, ← hspell, hu, hout]
      · rwa [← s.after_cons, hdrop, ← hspell]

theorem Whole.of_walk_eq {w : List Char} (hw : Whole w) {s : State} {cs a b : List Char}
    (h : walk 0 s cs = a ++ (w ++ b)) :
    ∃ u v, cs = u ++ (w ++ v) ∧ walk 0 s u = a ∧ walk 0 ((s.after u).after w) v = b := by
  obtain ⟨u, rest, rfl, hu, hrest⟩ := walk_eq_append h
  -- what is read behind the cut begins with the word, as it has no sign of a run
  have hread : w <+: rest :=
    (restyled_walk (s.after u) rest).prefix_of hw.unmarked (hrest ▸ List.prefix_append w b)
  obtain ⟨v, rfl⟩ := hread
  refine ⟨u, v, rfl, hu, ?_⟩
  rw [walk_append _ (hw.steady.parted v), hw.steady.walk] at hrest
  exact List.append_cancel_left hrest

theorem Whole.walk_eq {w : List Char} (hw : Whole w) (s : State) (u v : List Char) :
    walk 0 s (u ++ (w ++ v)) = walk 0 s u ++ (w ++ walk 0 ((s.after u).after w) v) := by
  rw [walk_append s (hw.parted u v), walk_append _ (hw.steady.parted v), hw.steady.walk]

end Cutting

section Token

open Token (isTokenChar)

theorem not_mem_strokes_of_isTokenChar {c : Char} (h : isTokenChar c = true) (hc : c ≠ '-') :
    c ∉ strokes := by
  intro hstroke
  rcases mem_strokes_iff.1 hstroke with rfl | rfl | rfl | rfl
  · exact hc rfl
  all_goals exact absurd h (by decide)

theorem not_mem_marks_of_isTokenChar {c : Char} (h : isTokenChar c = true) : c ∉ marks := by
  intro hmark
  have hall : marks.all (!isTokenChar ·) = true := by decide
  simpa [h] using List.all_eq_true.1 hall c hmark

/-- Three words with a hyphen between them. -/
theorem whole_of_words {u v w : List Char} (hu : '-' ∉ u) (hv : '-' ∉ v) (hw : '-' ∉ w)
    (hne : u ≠ [] ∧ v ≠ [] ∧ w ≠ [])
    (hchars : ∀ c ∈ u ++ '-' :: (v ++ '-' :: w), isTokenChar c = true) :
    Whole (u ++ '-' :: (v ++ '-' :: w)) := by
  have hplain : ∀ {x : List Char}, '-' ∉ x → (∀ c ∈ x, isTokenChar c = true) →
      ∀ c ∈ x, c ∉ strokes := by
    intro x hx hall c hc
    exact not_mem_strokes_of_isTokenChar (hall c hc) fun heq => hx (heq ▸ hc)
  have hfirst := hplain hu fun c hc => hchars c (by simp [hc])
  have hsecond := hplain hv fun c hc => hchars c (by simp [hc])
  have hthird := hplain hw fun c hc => hchars c (by simp [hc])
  refine ⟨?_, ?_, fun c hc => not_mem_marks_of_isTokenChar (hchars c hc)⟩
  · obtain ⟨c, u, rfl⟩ := List.exists_cons_of_ne_nil hne.1
    exact ⟨c, rfl, hfirst c List.mem_cons_self⟩
  · have hlast : Steady w := by
      rw [← List.append_nil w]
      exact .plain hthird .nil
    obtain ⟨d, v, rfl⟩ := List.exists_cons_of_ne_nil hne.2.1
    obtain ⟨e, w, rfl⟩ := List.exists_cons_of_ne_nil hne.2.2
    have hrest : Steady (d :: v ++ '-' :: e :: w) :=
      .plain hsecond (.hyphen (hthird e List.mem_cons_self) hlast)
    exact .plain hfirst (.hyphen (hsecond d List.mem_cons_self) hrest)

theorem whole_ofOrigin (origin : String) : Whole (Token.ofOrigin origin).text.toList := by
  have hchars := Token.isTokenChar_ofOrigin origin
  have hlength : ((Sha1.hex origin.toUTF8.toList).take Token.digits).length = 16 := by
    rw [List.length_take, Sha1.length_hex]
    rfl
  have hhyphen : '-' ∉ (Sha1.hex origin.toUTF8.toList).take Token.digits := fun hmem =>
    absurd (Sha1.mem_hex (List.mem_of_mem_take hmem)) (by decide)
  have hmark : Token.mark.toList = "sitcom".toList ++ '-' :: ("asset".toList ++ ['-']) := by decide
  rw [Token.toList_ofOrigin, hmark, List.append_assoc, List.cons_append, List.append_assoc] at hchars ⊢
  generalize (Sha1.hex origin.toUTF8.toList).take Token.digits = number at *
  have hne : number ≠ [] := by
    rintro rfl
    cases hlength
  exact whole_of_words (by decide) (by decide) hhyphen ⟨by decide, by decide, hne⟩ hchars

end Token

/-- A token is written as it is, apart from what is before and behind it, and it is found in educated
markup only where it was before: tokens are seen as often and in the same order. -/
theorem educateMarkup_tokens (html : List Char) :
    (∀ origins : List String,
      let words := origins.map fun origin => (Token.ofOrigin origin).text.toList
      sightings words (educateMarkup html) = sightings words html) ∧
    ∀ origin : String,
      let word := (Token.ofOrigin origin).text.toList
      let behind := fun front => (State.after {} front).after word
      (educateMarkup html).tails.countP (word.isPrefixOf ·) =
        html.tails.countP (word.isPrefixOf ·) ∧
      (∀ front back, html = front ++ (word ++ back) →
        educateMarkup html = educateMarkup front ++ (word ++ walk 0 (behind front) back)) ∧
      ∀ front back, educateMarkup html = front ++ (word ++ back) →
        ∃ front' back', html = front' ++ (word ++ back') ∧ educateMarkup front' = front ∧
          walk 0 (behind front') back' = back := by
  have hsightings : ∀ origins : List String,
      let words := origins.map fun origin => (Token.ofOrigin origin).text.toList
      sightings words (educateMarkup html) = sightings words html := by
    intro origins words
    have hwhole : ∀ w ∈ words, Whole w := by
      intro w hw
      obtain ⟨origin, -, rfl⟩ := List.mem_map.1 hw
      exact whole_ofOrigin origin
    rw [educateMarkup_eq_walk]
    exact (restyled_walk {} html).sightings_eq hwhole
  refine ⟨hsightings, fun origin => ?_⟩
  intro word behind
  have hword : Whole word := whole_ofOrigin origin
  refine ⟨?_, ?_, ?_⟩
  · rw [← length_sightings, ← length_sightings]
    exact congrArg List.length (hsightings [origin])
  · rintro front back rfl
    rw [educateMarkup_eq_walk, educateMarkup_eq_walk]
    exact hword.walk_eq {} front back
  · intro front back hout
    rw [educateMarkup_eq_walk] at hout
    obtain ⟨front', back', hhtml, hfront, hback⟩ := hword.of_walk_eq hout
    exact ⟨front', back', hhtml, (educateMarkup_eq_walk front').trans hfront, hback⟩

theorem educateMarkup_tokens_quoted :
    let word := "sitcom-asset-11f6ad8ec52a2984".toList
    let html := "\x22--".toList ++ (word ++ "...\x27".toList)
    let written := "\u201c\u2013".toList ++ (word ++ "\u2026\u2019".toList)
    (Token.ofOrigin "x").text.toList = word ∧
    html.tails.countP (word.isPrefixOf ·) = 1 ∧ educateMarkup html = written ∧
      ∃ front back, html = front ++ (word ++ back) ∧
        educateMarkup front = "\u201c\u2013".toList ∧
        walk 0 ((State.after {} front).after word) back = "\u2026\u2019".toList := by
  intro word html written
  have hword : (Token.ofOrigin "x").text.toList = word := by decide +kernel
  obtain ⟨-, hplaces, hfound⟩ := (educateMarkup_tokens html).2 "x"
  rw [hword] at hplaces hfound
  have hwritten : educateMarkup html = written :=
    (hplaces "\x22--".toList "...\x27".toList rfl).trans (by decide)
  exact ⟨hword, by decide, hwritten, hfound _ _ hwritten⟩

end Bindery.Html.Typography
