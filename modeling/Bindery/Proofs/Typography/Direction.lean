import Bindery.Proofs.Typography.Enclosed

/-! Which way a straight quote turns in inline markup. The walk looks at the character it wrote last, and
as quotes follow the quote before them, that comes down to the last character that is no straight quote.
Directly behind a tag this is the tag's own `>`, after which every quote opens, so a quote is turned
around by the tags exactly when it stands directly behind one and closes in the text alone. -/

namespace Bindery.Html.Typography

def isQuote (c : Char) : Bool := c == '\x22' || c == '\x27'

theorem isQuote_iff {c : Char} : isQuote c = true ↔ c = '\x22' ∨ c = '\x27' := by
  simp [isQuote]

/-- The curly form of a straight quote. -/
def curl (q : Char) (opens : Bool) : Char :=
  if q = '\x22' then (if opens then '\u201c' else '\u201d')
  else if opens then '\u2018' else '\u2019'

/-- A quote behind a curly one turns the same way. -/
theorem opensQuote_curl (q : Char) (opens : Bool) : opensQuote (some (curl q opens)) = opens := by
  unfold curl
  cases opens <;> split <;> decide

theorem curl_inj {q : Char} {opens opens' : Bool} : curl q opens = curl q opens' ↔ opens = opens' := by
  constructor
  · intro h
    rw [← opensQuote_curl q opens, h, opensQuote_curl]
  · rintro rfl
    rfl

theorem educate_quote {q : Char} (hq : isQuote q = true) (last : Option Char) (cs : List Char) :
    educate last q cs = (curl q (opensQuote last), 0) := by
  rcases isQuote_iff.1 hq with rfl | rfl <;> rfl

/-- The last character that is no straight quote. -/
def lead (cs : List Char) : Option Char := cs.reverse.find? (!isQuote ·)

section Leading

variable {c : Char} {u v : List Char}

theorem lead_append (u v : List Char) : lead (u ++ v) = (lead v).or (lead u) := by
  simp [lead, List.reverse_append, List.find?_append]

theorem lead_cons_quote (hc : isQuote c = true) (u : List Char) : lead (c :: u) = lead u := by
  have hnone : lead [c] = none := by simp [lead, hc]
  rw [← List.singleton_append, lead_append, hnone, Option.or_none]

theorem lead_cons (hc : isQuote c = false) (u : List Char) :
    lead (c :: u) = (lead u).or (some c) := by
  have hone : lead [c] = some c := by simp [lead, hc]
  rw [← List.singleton_append, lead_append, hone]

theorem lead_eq_none_iff : lead u = none ↔ ∀ c ∈ u, isQuote c = true := by
  simp [lead]

theorem lead_concat (hc : isQuote c = false) (u : List Char) : lead (u ++ [c]) = some c := by
  have hone : lead [c] = some c := by simp [lead, hc]
  rw [lead_append, hone, Option.some_or]

/-- No quote opens behind a dash or behind dots, whether they are respelled or not. -/
theorem Respells.opensQuote_lead {run : List Char} {mark : Char} (h : Respells (c :: run) mark)
    (hc : isQuote c = false) :
    ∃ d, lead (c :: run) = some d ∧ opensQuote (some mark) = opensQuote (some d) := by
  cases h with
  | dash | range | dots => exact ⟨_, rfl, by decide⟩
  | double | single => exact absurd hc (by decide)

end Leading

section Following

variable {s : State} {cs u v : List Char} {l : Option Char}

theorem State.after_append (s : State) (h : Parted u v) : s.after (u ++ v) = (s.after u).after v := by
  unfold after
  rw [walk_append s h, List.getLast?_append, Option.or_assoc]
  unfold place
  rw [Place.through_append]
  rfl

/-- In the open a quote turns as it is told by the last character that is no quote, or, where there is
none, by what was before. -/
theorem opensQuote_after_text (hs : s.place.Open) (hcs : '<' ∉ cs)
    (h : opensQuote s.last = opensQuote l) :
    opensQuote (s.after cs).last = opensQuote ((lead cs).or l) := by
  -- Only the direction told by the character written last is carried along, not the character: behind a
  -- quote they differ, since there the walk has its curly form.
  induction s, cs using walk_induction generalizing l with
  | nil s => exact h
  | cons s c cs ih =>
    obtain ⟨hc, hrest⟩ := not_or.1 (List.mem_cons.not.1 hcs)
    have hopen : (s.move (s.spell c cs).1 c).place.Open := by
      rw [State.place_move, Place.step_of_ne hs.tag (Ne.symm hc)]
      exact hs
    have hleft : '<' ∉ cs.drop (s.spell c cs).2 := fun hmem => hrest (List.mem_of_mem_drop hmem)
    rw [← State.after_cons]
    cases hq : isQuote c with
    | true =>
      have hspell : s.spell c cs = (curl c (opensQuote s.last), 0) :=
        (if_pos hs).trans (educate_quote hq s.last cs)
      rw [hspell] at ih hopen hleft ⊢
      rw [lead_cons_quote hq]
      exact ih hopen hleft ((opensQuote_curl c _).trans h)
    | false =>
      rcases s.spell_cases c cs with ⟨hspell, -⟩ | ⟨run, mark, rest, -, hrun, hrest, hspell⟩
      · rw [hspell] at ih hopen hleft ⊢
        rw [lead_cons hq, Option.or_assoc]
        exact ih hopen hleft rfl
      · obtain ⟨d, more, rfl⟩ := List.exists_cons_of_ne_nil hrun.ne_nil
        obtain ⟨rfl, rfl⟩ := List.cons.inj (hrest.trans (List.cons_append ..))
        obtain ⟨e, hlead, hmark⟩ := hrun.opensQuote_lead hq
        rw [hspell] at ih hopen hleft ⊢
        have hdrop : (more ++ rest).drop ((c :: more).length - 1) = rest := by simp
        rw [hdrop] at ih hleft ⊢
        rw [← List.cons_append, lead_append, hlead, Option.or_assoc]
        exact ih hopen hleft hmark

theorem walk_close (s : State) : walk 0 s ['>'] = ['>'] := by
  have hspell : s.spell '>' [] = ('>', 0) := by
    unfold State.spell
    split <;> rfl
  rw [walk_eq, hspell]
  rfl

theorem parted_of_stroke_free (u : List Char) {c : Char} (hdash : c ≠ '-') (hdot : c ≠ '.')
    (v : List Char) : Parted u (c :: v) := by
  rintro d - hd
  obtain rfl := Option.some.inj hd
  exact ⟨hdash, hdot⟩

/-- The walk remembers the end of a tag by its bracket. -/
theorem State.last_after_close (s : State) (u : List Char) : (s.after (u ++ ['>'])).last = some '>' := by
  have hparted : Parted u ['>'] := parted_of_stroke_free u (by decide) (by decide) []
  unfold after
  rw [walk_append s hparted, walk_close, List.getLast?_concat, Option.some_or]

end Following

/-- The elements of inline markup. -/
def inlineNames : List (List Char) := ["em".toList, "strong".toList, "del".toList, "a".toList]

/-- A tag of inline markup. Behind a `>` that stands in one of its values there is no `<`. -/
structure InlineTag where
  closing : Bool
  name : List Char
  attributes : List Char
  known : Text.asciiLower name ∈ inlineNames
  apart : ∀ c ∈ attributes.head?, Text.isBlank c = true ∨ c = '/'
  whole : '<' ∉ attributes.dropWhile (· != '>')

namespace InlineTag

def slash (t : InlineTag) : List Char := if t.closing then ['/'] else []

def inside (t : InlineTag) : List Char := t.slash ++ (t.name ++ t.attributes)

def chars (t : InlineTag) : List Char := '<' :: (t.inside ++ ['>'])

end InlineTag

/-- Where the name of a tag ends. -/
def endsName (c : Char) : Bool := Text.isBlank c || c == '>' || c == '/'

theorem toAsciiLower_of_endsName {c : Char} (h : endsName c = true) : Text.toAsciiLower c = c := by
  unfold Text.toAsciiLower
  refine if_neg fun hupper => ?_
  rw [Bool.and_eq_true, decide_eq_true_eq, decide_eq_true_eq] at hupper
  have hlow : 65 ≤ c.toNat := hupper.1
  have hhigh : c.toNat ≤ 90 := hupper.2
  simp only [endsName, Bool.or_eq_true, beq_iff_eq] at h
  rcases h with (h | rfl) | rfl
  · simp only [Text.isBlank, Bool.or_eq_true, Bool.and_eq_true, decide_eq_true_eq, beq_iff_eq] at h
    omega
  · exact absurd hlow (by decide)
  · exact absurd hlow (by decide)

/-- Inline markup leads into no verbatim element. -/
theorem depthAfter_of_inline (t : InlineTag) {rest : List Char}
    (hrest : ∀ c ∈ rest.head?, endsName c = true) (depth : Nat) :
    depthAfter depth (t.slash ++ (t.name ++ rest)) = depth := by
  have hlower : Text.asciiLower (t.slash ++ (t.name ++ rest)) =
      t.slash ++ (Text.asciiLower t.name ++ Text.asciiLower rest) := by
    have hslash : Text.asciiLower t.slash = t.slash := by
      unfold InlineTag.slash
      split <;> rfl
    simp only [Text.asciiLower, List.map_append] at hslash ⊢
    rw [hslash]
  have hnames : ∀ name ∈ inlineNames, name ≠ [] ∧ name.head? ≠ some '/' ∧ name ∉ verbatim ∧
      name.all (fun c => !endsName c) = true := by decide
  obtain ⟨hne, hhead, hverbatim, hplain⟩ := hnames _ t.known
  rw [List.all_eq_true] at hplain
  generalize Text.asciiLower t.name = name at hlower hne hhead hverbatim hplain
  have htake : (name ++ Text.asciiLower rest).takeWhile
      (fun c => !(Text.isBlank c || c == '>' || c == '/')) = name := by
    refine Text.takeWhile_append_of_stop hplain fun d hd => ?_
    rw [Text.asciiLower, List.head?_map] at hd
    obtain ⟨c, hc, rfl⟩ := Option.map_eq_some_iff.1 hd
    rw [toAsciiLower_of_endsName (hrest c hc)]
    exact congrArg not (hrest c hc)
  have hnone : verbatim.contains name = false := by simpa using hverbatim
  unfold depthAfter
  rw [hlower]
  unfold InlineTag.slash
  dsimp only
  split
  · next more heq =>
    have hmore : more = name ++ Text.asciiLower rest := by
      split at heq
      · exact (List.cons.inj heq).2.symm
      · have hfirst := congrArg List.head? heq
        rw [List.nil_append, List.head?_append_of_ne_nil name hne] at hfirst
        exact absurd hfirst hhead
    rw [hmore, htake, hnone]
    rfl
  · next hother =>
    split at hother
    · exact absurd rfl (hother _)
    · next hopening =>
      simp only [if_neg hopening, List.nil_append, htake, hnone]
      rfl

/-- The walk ends a tag at the first `>` behind its name. What is left of the tag then opens no other. -/
theorem InlineTag.exists_cut (t : InlineTag) : ∃ a b, t.attributes ++ ['>'] = a ++ '>' :: b ∧
    '>' ∉ a ∧ '<' ∉ b ∧ ∀ c ∈ (a ++ ['>']).head?, endsName c = true := by
  obtain ⟨a, b, hcut, ha⟩ : ∃ a b, t.attributes ++ ['>'] = a ++ '>' :: b ∧ '>' ∉ a :=
    List.eq_append_cons_of_mem (by simp)
  refine ⟨a, b, hcut, ha, fun hb => ?_, fun c hc => ?_⟩
  · have hdrop : (t.attributes ++ ['>']).dropWhile (· != '>') = '>' :: b := by
      rw [hcut]
      refine Text.dropWhile_append_of_stop (fun c hc => ?_) (by simp)
      rw [bne_iff_ne]
      rintro rfl
      exact ha hc
    have hmem : '<' ∈ (t.attributes ++ ['>']).dropWhile (· != '>') :=
      hdrop ▸ List.mem_cons_of_mem _ hb
    rw [List.dropWhile_append] at hmem
    split at hmem
    · exact absurd ((List.dropWhile_sublist _).subset hmem) (by decide)
    · exact t.whole ((List.mem_append.1 hmem).resolve_right (by decide))
  · have hsame : (a ++ ['>']).head? = (t.attributes ++ ['>']).head? := by
      have hne : a ++ ['>'] ≠ [] := by simp
      have hsplit : a ++ '>' :: b = (a ++ ['>']) ++ b := by simp
      rw [hcut, hsplit, List.head?_append_of_ne_nil _ hne]
    rw [hsame] at hc
    unfold endsName
    cases hattributes : t.attributes with
    | nil =>
      rw [hattributes] at hc
      obtain rfl := Option.some.inj hc
      decide
    | cons d more =>
      rw [hattributes] at hc
      rcases t.apart c (by rw [hattributes]; exact hc) with hblank | rfl
      · rw [hblank]
        rfl
      · decide

theorem InlineTag.not_mem_front (t : InlineTag) : '>' ∉ t.slash ++ t.name := by
  have hnames : ∀ name ∈ inlineNames, '>' ∉ name := by decide
  rw [List.mem_append]
  rintro (h | h)
  · unfold slash at h
    split at h
    · exact absurd h (by decide)
    · cases h
  · exact hnames _ t.known (List.mem_map.2 ⟨'>', h, rfl⟩)

/-- A tag is left at the depth where it was met. -/
theorem InlineTag.place_through (t : InlineTag) {p : Place} (hp : p.tag = none) :
    p.through t.chars = p := by
  obtain ⟨a, b, hcut, ha, hb, hhead⟩ := t.exists_cut
  have hchars : t.chars = '<' :: (t.slash ++ (t.name ++ a) ++ ['>']) ++ b := by
    simp [chars, inside, hcut]
  have hstep : p.step '<' = ⟨p.depth, some []⟩ := by
    unfold Place.step
    rw [hp]
    exact if_pos rfl
  have hfront : '>' ∉ t.slash ++ (t.name ++ a) := by
    rw [← List.append_assoc, List.mem_append]
    exact not_or.2 ⟨t.not_mem_front, ha⟩
  have hdepth := depthAfter_of_inline t hhead p.depth
  have hinside : t.slash ++ (t.name ++ a) ++ ['>'] = t.slash ++ (t.name ++ (a ++ ['>'])) := by
    simp
  have htag : p.through ('<' :: (t.slash ++ (t.name ++ a) ++ ['>'])) = p := by
    show (p.step '<').through _ = p
    rw [hstep, Place.through_of_tag rfl hfront, List.reverse_nil, List.nil_append, hinside, hdepth,
      ← hp]
  rw [hchars, Place.through_append, htag, Place.through_of_text hp hb]

/-- A stretch of text with the tag behind it. -/
structure Stretch where
  text : List Char
  plain : '<' ∉ text
  tag : InlineTag

/-- Texts and the tags between them. -/
def tagged (front : List Stretch) : List Char := front.flatMap fun x => x.text ++ x.tag.chars

/-- The texts without the tags. -/
def bare (front : List Stretch) : List Char := front.flatMap Stretch.text

theorem mem_bare {front : List Stretch} : '<' ∉ bare front := by
  simp only [bare, List.mem_flatMap, not_exists, not_and]
  exact fun x _ => x.plain

theorem tagged_concat (front : List Stretch) (x : Stretch) :
    tagged (front ++ [x]) = tagged front ++ (x.text ++ '<' :: x.tag.inside) ++ ['>'] := by
  simp [tagged, InlineTag.chars]

theorem lead_tagged {front : List Stretch} (h : front ≠ []) : lead (tagged front) = some '>' := by
  obtain ⟨front, x, rfl⟩ := (List.eq_nil_or_concat front).resolve_left h
  rw [List.concat_eq_append, tagged_concat]
  exact lead_concat (by decide) _

/-- Behind a tag the walk has the bracket for the last character. -/
theorem last_after_tagged {front : List Stretch} (h : front ≠ []) (s : State) :
    (s.after (tagged front)).last = some '>' := by
  obtain ⟨front, x, rfl⟩ := (List.eq_nil_or_concat front).resolve_left h
  rw [List.concat_eq_append, tagged_concat]
  exact s.last_after_close _

theorem place_through_tagged {p : Place} (hp : p.tag = none) (front : List Stretch) :
    p.through (tagged front) = p := by
  induction front with
  | nil => rfl
  | cons x front ih =>
    have hcons : tagged (x :: front) = x.text ++ (x.tag.chars ++ tagged front) := by
      simp [tagged]
    rw [hcons, Place.through_append, Place.through_of_text hp x.plain, Place.through_append,
      x.tag.place_through hp, ih]

theorem opensQuote_after_tagged (front : List Stretch) {u : List Char} (hu : '<' ∉ u) :
    opensQuote (State.after {} (tagged front ++ u)).last =
      opensQuote (lead (tagged front ++ u)) := by
  by_cases hfront : front = []
  · subst hfront
    show opensQuote (State.after {} u).last = opensQuote (lead u)
    rw [opensQuote_after_text (l := none) ⟨rfl, rfl⟩ hu rfl, Option.or_none]
  · have hparted : Parted (tagged front) u := by
      obtain ⟨front, x, rfl⟩ := (List.eq_nil_or_concat front).resolve_left hfront
      rw [List.concat_eq_append, tagged_concat]
      exact parted_of_ends _ u
    have hopen : (State.after {} (tagged front)).place.Open := by
      show (Place.through {} (tagged front)).Open
      rw [place_through_tagged rfl]
      exact ⟨rfl, rfl⟩
    have hlast := congrArg opensQuote (last_after_tagged hfront {})
    rw [State.after_append _ hparted, opensQuote_after_text hopen hu hlast, lead_append,
      lead_tagged hfront]

/-- In the open a quote is written as the last character before it tells. -/
theorem educateMarkup_quote {before : List Char} {q : Char} (hq : isQuote q = true)
    (hopen : (State.after {} before).place.Open) (back : List Char) :
    educateMarkup before ++ [curl q (opensQuote (State.after {} before).last)] <+:
      educateMarkup (before ++ q :: back) := by
  have hstroke : q ≠ '-' ∧ q ≠ '.' := by rcases isQuote_iff.1 hq with rfl | rfl <;> decide
  have hspell : (State.after {} before).spell q back =
      (curl q (opensQuote (State.after {} before).last), 0) :=
    (if_pos hopen).trans (educate_quote hq _ back)
  have hwalk := walk_append {} (parted_of_stroke_free before hstroke.1 hstroke.2 back)
  rw [walk_eq, hspell] at hwalk
  rw [educateMarkup_eq_walk, educateMarkup_eq_walk, hwalk]
  exact ⟨_, by rw [List.append_assoc]; rfl⟩

/-- A straight quote in the text opens or closes by the last character before it that is no straight
quote. The tags turn it around exactly when it stands directly behind one and, in the text without the
tags, closes. -/
theorem educateMarkup_turns_iff (front : List Stretch) {u : List Char} (hu : '<' ∉ u) {q : Char}
    (hq : isQuote q = true) :
    let form (before : List Char) : Char := curl q (opensQuote (lead before))
    (∀ back, educateMarkup (tagged front ++ u) ++ [form (tagged front ++ u)] <+:
      educateMarkup (tagged front ++ u ++ q :: back)) ∧
    (∀ back, educateMarkup (bare front ++ u) ++ [form (bare front ++ u)] <+:
      educateMarkup (bare front ++ u ++ q :: back)) ∧
    (form (tagged front ++ u) ≠ form (bare front ++ u) ↔
      front ≠ [] ∧ (∀ c ∈ u, isQuote c = true) ∧ opensQuote (lead (bare front)) = false) := by
  intro form
  have hstart : (State.place {}).Open := ⟨rfl, rfl⟩
  have hbare : '<' ∉ bare front ++ u := by
    rw [List.mem_append]
    exact not_or.2 ⟨mem_bare, hu⟩
  have hopen : (State.after {} (bare front ++ u)).place.Open := by
    show (Place.through {} (bare front ++ u)).Open
    rw [Place.through_of_text rfl hbare]
    exact hstart
  have hopen' : (State.after {} (tagged front ++ u)).place.Open := by
    show (Place.through {} (tagged front ++ u)).Open
    rw [Place.through_append, place_through_tagged rfl, Place.through_of_text rfl hu]
    exact hstart
  have hleads : opensQuote (State.after {} (bare front ++ u)).last =
      opensQuote (lead (bare front ++ u)) := by
    rw [opensQuote_after_text hstart hbare (l := none) rfl, Option.or_none]
  have hleads' : opensQuote (State.after {} (tagged front ++ u)).last =
      opensQuote (lead (tagged front ++ u)) := opensQuote_after_tagged front hu
  refine ⟨fun back => ?_, fun back => ?_, ?_⟩
  · have hwritten := educateMarkup_quote hq hopen' back
    rwa [hleads'] at hwritten
  · have hwritten := educateMarkup_quote hq hopen back
    rwa [hleads] at hwritten
  · rw [ne_eq, curl_inj, lead_append, lead_append]
    cases hlead : lead u with
    | some c =>
      -- The last character that is no quote stands behind the tags.
      have hsome : ¬∀ c ∈ u, isQuote c = true := by
        rw [← lead_eq_none_iff, hlead]
        exact nofun
      simp [hsome]
    | none =>
      have hall : ∀ c ∈ u, isQuote c = true := lead_eq_none_iff.1 hlead
      by_cases hfront : front = []
      · simp [hfront, tagged, bare]
      · have hopens : opensQuote (some '>') = true := by decide
        simpa [hfront, lead_tagged hfront, hopens] using fun _ => hall

def emphasis (closing : Bool) : InlineTag := ⟨closing, "em".toList, [], by decide, nofun, nofun⟩

/-- The quote behind an emphasized word opens, and without the tags it closes. One behind the opening
tag opens in both. -/
theorem educateMarkup_turns_iff_emphasized :
    let outer : List Stretch :=
      [⟨['\x22'], by decide, emphasis false⟩, ⟨"hi".toList, by decide, emphasis true⟩]
    let inner : List Stretch := [⟨[], by decide, emphasis false⟩]
    educateMarkup (tagged outer ++ ['\x22']) = "\u201c<em>hi</em>\u201c".toList ∧
      educateMarkup (bare outer ++ ['\x22']) = "\u201chi\u201d".toList ∧
      curl '\x22' (opensQuote (lead (tagged outer ++ []))) ≠
        curl '\x22' (opensQuote (lead (bare outer ++ []))) ∧
      curl '\x22' (opensQuote (lead (tagged inner ++ []))) =
        curl '\x22' (opensQuote (lead (bare inner ++ []))) := by
  intro outer inner
  have houter := (educateMarkup_turns_iff outer (u := []) (by decide) (q := '\x22') (by decide)).2.2
  have hinner := (educateMarkup_turns_iff inner (u := []) (by decide) (q := '\x22') (by decide)).2.2
  refine ⟨by decide +kernel, by decide +kernel, houter.2 ⟨by decide, by simp, by decide⟩, ?_⟩
  by_contra hturned
  exact absurd (hinner.1 hturned).2.2 (by decide)

end Bindery.Html.Typography
