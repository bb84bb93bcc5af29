import Bindery.Proofs.Html.Tag

/-! The file that a reference names. It is told from the part before the first query or fragment mark,
and what follows has no say in it, but that a lone slash is no file and a slash before a mark is one.
It is a trimmed part of the reference, and names no other host or scheme unless blanks in front of the
reference hide them. -/

namespace Bindery.Html.Reference

open Text (isBlank)

variable {p s href target : List Char} {c : Char}

/-- A query or a fragment, with its mark. -/
def IsSuffix (s : List Char) : Prop := ∃ c cs, s = c :: cs ∧ (c = '?' ∨ c = '#')

/-- Nothing of the text belongs to a query or a fragment. -/
def IsPlain (p : List Char) : Prop := ∀ c ∈ p, c ≠ '?' ∧ c ≠ '#'

instance (p : List Char) : Decidable (IsPlain p) :=
  List.decidableBAll (fun c => c ≠ '?' ∧ c ≠ '#') p

theorem stripSuffix_of_isPlain (hp : IsPlain p) : stripSuffix p = p :=
  List.takeWhile_eq_self_iff.2 fun c hc => by simp [hp c hc]

theorem stripSuffix_append (hp : IsPlain p) (hs : IsSuffix s) : stripSuffix (p ++ s) = p := by
  obtain ⟨c, cs, rfl, hc⟩ := hs
  refine Text.takeWhile_append_of_stop (fun d hd => by simp [hp d hd]) ?_
  rintro d ⟨⟩
  rcases hc with rfl | rfl <;> rfl

/-- A mark ends the search for the colon of a scheme. -/
theorem hasScheme_append (hs : IsSuffix s) : hasScheme (p ++ s) = hasScheme p := by
  obtain ⟨d, ds, rfl, hd⟩ := hs
  have hstop : isSchemeChar d = false := by rcases hd with rfl | rfl <;> decide
  have hcolon : d ≠ ':' := by rcases hd with rfl | rfl <;> decide
  cases p with
  | nil => rcases hd with rfl | rfl <;> rfl
  | cons c cs =>
    have hrest : (((cs ++ d :: ds).dropWhile isSchemeChar).head? == some ':') =
        ((cs.dropWhile isSchemeChar).head? == some ':') := by
      rw [List.dropWhile_append]
      split
      · -- All of the path could be a scheme, and the mark comes where its colon would.
        next hnone =>
        rw [List.dropWhile_cons_of_neg (by simp [hstop]), List.isEmpty_iff.1 hnone]
        simp [hcolon]
      · next hsome =>
        rw [List.head?_append_of_ne_nil _ (by simpa using hsome)]
    exact congrArg (_ && ·) hrest

/-- A reference is local when a slash in front of it has a name behind, and it has no scheme. -/
theorem isLocal_iff (hquery : c ≠ '?') (hfragment : c ≠ '#') {cs : List Char} :
    isLocal (c :: cs) = true ↔
      (c = '/' → ∃ d more, cs = d :: more ∧ d ≠ '/') ∧ hasScheme (c :: cs) = false := by
  by_cases hslash : c = '/'
  · subst hslash
    cases cs with
    | nil => simp [isLocal]
    | cons d more =>
      by_cases hd : d = '/'
      · subst hd
        simp [isLocal]
      · simp [isLocal, hd]
  · simp [isLocal, hquery, hfragment, hslash]

theorem isLocal_append (hp : IsPlain p) (hs : IsSuffix s) (hne : p ≠ []) (hslash : p ≠ ['/']) :
    isLocal (p ++ s) = isLocal p := by
  obtain ⟨c, cs, rfl⟩ := List.exists_cons_of_ne_nil hne
  obtain ⟨hquery, hfragment⟩ := hp c List.mem_cons_self
  have hname : (c = '/' → ∃ d more, cs ++ s = d :: more ∧ d ≠ '/') ↔
      (c = '/' → ∃ d more, cs = d :: more ∧ d ≠ '/') := by
    refine forall_congr' fun hc => ?_
    cases cs with
    | nil => exact absurd (congrArg (· :: []) hc) hslash
    | cons d more => simp
  have hscheme := hasScheme_append (p := c :: cs) hs
  rw [Bool.eq_iff_iff, List.cons_append, isLocal_iff hquery hfragment, isLocal_iff hquery hfragment,
    hname, ← List.cons_append, hscheme]

/-- A query or a fragment behind a path does not change the file that it names, unless the path is
the root of the file system. -/
theorem localTarget_append_iff (hp : IsPlain p) (hs : IsSuffix s) :
    localTarget (p ++ s) = localTarget p ↔ p ≠ ['/'] := by
  have hstrip := stripSuffix_append hp hs
  constructor
  · rintro h rfl
    obtain ⟨c, cs, rfl, hc⟩ := hs
    -- The mark stands where the name behind a slash is asked for, and passes for one.
    have hlocal : isLocal ('/' :: c :: cs) = true := by
      refine (isLocal_iff (by decide) (by decide)).2 ⟨fun _ => ⟨c, cs, rfl, ?_⟩, rfl⟩
      rcases hc with rfl | rfl <;> decide
    have hsome : localTarget (['/'] ++ c :: cs) = some ['/'] := by
      rw [localTarget, hstrip, List.singleton_append, hlocal]
      rfl
    rw [hsome] at h
    cases h
  · intro hslash
    unfold localTarget
    rw [hstrip, stripSuffix_of_isPlain hp]
    cases p with
    | nil => split <;> rfl
    | cons c cs => rw [isLocal_append hp hs (List.cons_ne_nil c cs) hslash]

/-- A style sheet is named with a query and without one, the root of the file system only with one. -/
theorem localTarget_append_iff_styles :
    IsPlain "../style.css".toList ∧ IsSuffix "?v=2#top".toList ∧
      localTarget ("../style.css".toList ++ "?v=2#top".toList) = some "../style.css".toList ∧
      localTarget ("/".toList ++ "?v=2#top".toList) ≠ localTarget "/".toList := by
  have hs : IsSuffix "?v=2#top".toList := ⟨'?', "v=2#top".toList, by decide, .inl rfl⟩
  have hp : IsPlain "../style.css".toList := by decide
  have hroot : IsPlain "/".toList := by decide
  have hsame := (localTarget_append_iff hp hs).2 (by decide)
  refine ⟨hp, hs, hsame.trans (by decide), fun heq => ?_⟩
  exact (localTarget_append_iff hroot hs).1 heq rfl

/-! What names another host or scheme. -/

/-- Two slashes, or a scheme and its colon. -/
inductive Opening : List Char → Prop
  | host : Opening ['/', '/']
  | scheme {c : Char} {name : List Char} (hc : c.isAlpha = true)
      (hname : ∀ d ∈ name, d.isAlphanum = true ∨ d = '+' ∨ d = '.' ∨ d = '-') :
      Opening (c :: name ++ [':'])

/-- The text opens with a host or a scheme. -/
def IsExternal (cs : List Char) : Prop := ∃ word, Opening word ∧ word <+: cs

theorem isBlank_of_printable (hlow : 33 ≤ c.toNat) (hhigh : c.toNat ≤ 126) : isBlank c = false := by
  simp only [isBlank, Bool.or_eq_false_iff, Bool.and_eq_false_iff, decide_eq_false_iff_not,
    beq_eq_false_iff_ne]
  omega

theorem toNat_of_isAlpha (h : c.isAlpha = true) :
    65 ≤ c.toNat ∧ c.toNat < 91 ∨ 97 ≤ c.toNat ∧ c.toNat < 123 := by
  have h : (c.isUpper || c.isLower) = true := h
  rw [Bool.or_eq_true] at h
  rcases h with hupper | hlower
  · have hrange : c.val ≥ 'A'.val ∧ c.val ≤ 'Z'.val := of_decide_eq_true hupper
    exact .inl ⟨hrange.1, Nat.lt_succ_of_le hrange.2⟩
  · have hrange : (decide (c.val ≥ 'a'.val) && decide (c.val ≤ 'z'.val)) = true := hlower
    rw [Bool.and_eq_true, decide_eq_true_eq, decide_eq_true_eq] at hrange
    exact .inr ⟨hrange.1, Nat.lt_succ_of_le hrange.2⟩

/-- A letter of either case folds to a small one. -/
theorem foldCase_of_isAlpha (h : c.isAlpha = true) : 'a' ≤ foldCase c ∧ foldCase c ≤ 'z' := by
  have hall : ((List.range' 65 26 ++ List.range' 97 26).map Char.ofNat).all
      (fun d => 'a' ≤ foldCase d && foldCase d ≤ 'z') = true := by decide
  suffices hc : c ∈ (List.range' 65 26 ++ List.range' 97 26).map Char.ofNat by
    simpa using List.all_eq_true.1 hall c hc
  refine List.mem_map.2 ⟨c.toNat, ?_, Char.ofNat_toNat c⟩
  rw [List.mem_append, List.mem_range'_1, List.mem_range'_1]
  exact toNat_of_isAlpha h

theorem isAlphanum_of_isAlpha (h : c.isAlpha = true) : c.isAlphanum = true :=
  Bool.or_eq_true_iff.2 (.inl h)

theorem plain_of_isAlphanum (h : c.isAlphanum = true) :
    (isBlank c = false ∧ c ≠ '?' ∧ c ≠ '#') ∧ isSchemeChar c = true := by
  have hmark : c ≠ '?' ∧ c ≠ '#' := by
    constructor <;> rintro rfl <;> exact absurd h (by decide)
  have h : (c.isAlpha || c.isDigit) = true := h
  rw [Bool.or_eq_true] at h
  rcases h with hletter | hdigit
  · obtain ⟨hlow, hhigh⟩ := foldCase_of_isAlpha hletter
    exact ⟨⟨isBlank_of_letter hlow hhigh, hmark⟩, by simp [isSchemeChar, hlow, hhigh]⟩
  · have hrange : (decide (c.val ≥ '0'.val) && decide (c.val ≤ '9'.val)) = true := hdigit
    rw [Bool.and_eq_true, decide_eq_true_eq, decide_eq_true_eq] at hrange
    have hlow : 48 ≤ c.toNat := hrange.1
    have hhigh : c.toNat ≤ 57 := hrange.2
    have hdigit : '0' ≤ c ∧ c ≤ '9' := hrange
    exact ⟨⟨isBlank_of_printable (by omega) (by omega), hmark⟩, by simp [isSchemeChar, hdigit]⟩

theorem plain_of_schemeChar (h : c.isAlphanum = true ∨ c = '+' ∨ c = '.' ∨ c = '-') :
    (isBlank c = false ∧ c ≠ '?' ∧ c ≠ '#') ∧ isSchemeChar c = true := by
  rcases h with h | rfl | rfl | rfl
  · exact plain_of_isAlphanum h
  all_goals decide

/-- Neither trimming nor the marks cut into what opens an external reference. -/
theorem Opening.plain {word : List Char} (h : Opening word) :
    ∀ c ∈ word, isBlank c = false ∧ c ≠ '?' ∧ c ≠ '#' := by
  cases h with
  | host =>
    intro d hd
    obtain rfl : d = '/' := by simpa using hd
    decide
  | scheme hc hname =>
    intro d hd
    rcases List.mem_append.1 hd with hd | hd
    · rcases List.mem_cons.1 hd with rfl | hd
      · exact (plain_of_isAlphanum (isAlphanum_of_isAlpha hc)).1
      · exact (plain_of_schemeChar (hname d hd)).1
    · rw [List.mem_singleton.1 hd]
      decide

theorem isExternal_stripSuffix : IsExternal (stripSuffix href) ↔ IsExternal href := by
  constructor
  · rintro ⟨word, hword, hprefix⟩
    exact ⟨word, hword, hprefix.trans (List.takeWhile_prefix _)⟩
  · rintro ⟨word, hword, rest, rfl⟩
    have hkept : ∀ c ∈ word, (!(c == '?' || c == '#')) = true := fun c hc => by
      simp [hword.plain c hc]
    refine ⟨word, hword, ?_⟩
    rw [stripSuffix, List.takeWhile_append_of_pos hkept]
    exact List.prefix_append _ _

theorem isExternal_trimEnd : IsExternal (Text.trimEnd href) ↔ IsExternal href := by
  constructor
  · rintro ⟨word, hword, hprefix⟩
    obtain ⟨v, hv, -⟩ := Text.exists_dropEndWhile isBlank href
    exact ⟨word, hword, hprefix.trans ⟨v, hv.symm⟩⟩
  · rintro ⟨word, hword, rest, rfl⟩
    obtain ⟨v, hrest, hv, hlast⟩ := Text.exists_dropEndWhile isBlank rest
    -- What is left ends with the rest, or with the opening where the rest is blank.
    have hend : ∀ c ∈ (word ++ Text.trimEnd rest).getLast?, isBlank c = false := by
      intro c hc
      rw [List.getLast?_append, Option.mem_def, Option.or_eq_some_iff] at hc
      rcases hc with hc | ⟨-, hc⟩
      · exact hlast c hc
      · exact (hword.plain c (List.mem_of_getLast? hc)).1
    have hcut : word ++ rest = word ++ Text.trimEnd rest ++ v := by
      conv_lhs => rw [hrest]
      exact (List.append_assoc _ _ _).symm
    refine ⟨word, hword, ?_⟩
    rw [hcut, Text.trimEnd, Text.dropEndWhile_append hv hend]
    exact List.prefix_append _ _

/-- No blank is a mark. -/
theorem trimStart_stripSuffix (href : List Char) :
    Text.trimStart (stripSuffix href) = stripSuffix (Text.trimStart href) := by
  induction href with
  | nil => rfl
  | cons c cs ih =>
    cases hblank : isBlank c with
    | true =>
      have hkept : (!(c == '?' || c == '#')) = true := by
        have hmark : c ≠ '?' ∧ c ≠ '#' := by
          constructor <;> rintro rfl <;> exact absurd hblank (by decide)
        simp [hmark]
      have hstrip : stripSuffix (c :: cs) = c :: stripSuffix cs := List.takeWhile_cons_of_pos hkept
      rw [hstrip, Text.trimStart, Text.trimStart, List.dropWhile_cons_of_pos hblank,
        List.dropWhile_cons_of_pos hblank]
      exact ih
    | false =>
      have hstay : Text.trimStart (c :: cs) = c :: cs :=
        List.dropWhile_cons_of_neg (by simp [hblank])
      rw [hstay, stripSuffix, List.takeWhile_cons]
      split
      · exact List.dropWhile_cons_of_neg (by simp [hblank])
      · rfl

theorem isExternal_trim_stripSuffix :
    IsExternal (Text.trim (stripSuffix href)) ↔ IsExternal (Text.trimStart href) := by
  rw [Text.trim, trimStart_stripSuffix]
  exact isExternal_trimEnd.trans isExternal_stripSuffix

theorem not_isLocal_of_isExternal (h : IsExternal href) : isLocal href = false := by
  obtain ⟨word, hword, rest, rfl⟩ := h
  cases hword with
  | host => rfl
  | @scheme c name hc hname =>
    have hletter := foldCase_of_isAlpha hc
    have hplain := (plain_of_isAlphanum (isAlphanum_of_isAlpha hc)).1
    have hcolon : (name ++ ':' :: rest).dropWhile isSchemeChar = ':' :: rest :=
      Text.dropWhile_append_of_stop (fun d hd => (plain_of_schemeChar (hname d hd)).2)
        (by rintro d ⟨⟩; rfl)
    have hscheme : hasScheme (c :: (name ++ ':' :: rest)) = true := by
      simp [hasScheme, hletter, hcolon]
    have htext : c :: name ++ [':'] ++ rest = c :: (name ++ ':' :: rest) := by simp
    rw [htext, Bool.eq_false_iff]
    intro hlocal
    have hnone := ((isLocal_iff hplain.2.1 hplain.2.2).1 hlocal).2
    exact absurd (hscheme.symm.trans hnone) nofun

theorem isLocal_of_isBlank (h : isBlank c = true) (cs : List Char) : isLocal (c :: cs) = true := by
  have hplain : c ≠ '?' ∧ c ≠ '#' ∧ c ≠ '/' := by
    refine ⟨?_, ?_, ?_⟩ <;> rintro rfl <;> exact absurd h (by decide)
  refine (isLocal_iff hplain.1 hplain.2.1).2 ⟨fun hslash => absurd hslash hplain.2.2, ?_⟩
  have hletter : ¬('a' ≤ foldCase c ∧ foldCase c ≤ 'z') := fun hletter =>
    absurd (h.symm.trans (isBlank_of_letter hletter.1 hletter.2)) nofun
  rw [hasScheme, Bool.and_eq_false_iff]
  exact .inl (by simpa using hletter)

theorem localTarget_eq_some_iff : localTarget href = some target ↔
    isLocal href = true ∧ Text.trim (stripSuffix href) = target ∧ target ≠ [] := by
  unfold localTarget
  cases isLocal href with
  | false => simp
  | true =>
    simp only [if_true, true_and]
    split
    · next hempty =>
      rw [List.isEmpty_iff] at hempty
      rw [hempty]
      exact iff_of_false nofun fun h => h.2 h.1.symm
    · next hsome =>
      rw [Option.some_inj]
      refine ⟨?_, And.left⟩
      rintro rfl
      exact ⟨rfl, fun hnil => hsome (List.isEmpty_iff.2 hnil)⟩

/-- The file that a reference names is a trimmed part of it without a query or a fragment. It names
another host or scheme exactly where the reference does so behind blanks. -/
theorem localTarget_isExternal_iff (href : List Char) :
    (∀ target, localTarget href = some target →
      target ≠ [] ∧ target <:+: href ∧ Text.Trimmed target ∧ IsPlain target) ∧
    ((∃ target, localTarget href = some target ∧ IsExternal target) ↔
      (∃ c ∈ href.head?, isBlank c = true) ∧ IsExternal (Text.trimStart href)) := by
  refine ⟨fun target h => ?_, ?_, ?_⟩
  · obtain ⟨-, rfl, hne⟩ := localTarget_eq_some_iff.1 h
    obtain ⟨v, hcut, -, htrimmed⟩ := Text.exists_trim (stripSuffix href)
    have hpart : Text.trim (stripSuffix href) <:+: stripSuffix href := ⟨_, v, hcut.symm⟩
    refine ⟨hne, hpart.trans (List.takeWhile_prefix _).isInfix, htrimmed, fun c hc => ?_⟩
    have hmem : c ∈ href.takeWhile fun d => !(d == '?' || d == '#') := hpart.subset hc
    simpa using List.mem_takeWhile_imp hmem
  · rintro ⟨target, h, hexternal⟩
    obtain ⟨hlocal, rfl, -⟩ := localTarget_eq_some_iff.1 h
    rw [isExternal_trim_stripSuffix] at hexternal
    refine ⟨?_, hexternal⟩
    -- Without a blank in front the reference itself would be external, and so not local.
    by_contra hstart
    have hstay : Text.trimStart href = href := by
      cases href with
      | nil => rfl
      | cons c cs => exact List.dropWhile_cons_of_neg fun hblank => hstart ⟨c, rfl, hblank⟩
    rw [hstay] at hexternal
    exact absurd (hlocal.symm.trans (not_isLocal_of_isExternal hexternal)) nofun
  · rintro ⟨⟨c, hc, hblank⟩, hexternal⟩
    obtain ⟨cs, rfl⟩ := List.head?_eq_some_iff.1 hc
    -- The blank passes the classification, and then it is trimmed.
    have htarget := isExternal_trim_stripSuffix.2 hexternal
    refine ⟨_, localTarget_eq_some_iff.2 ⟨isLocal_of_isBlank hblank cs, rfl, ?_⟩, htarget⟩
    intro hnil
    rw [hnil] at htarget
    obtain ⟨word, hword, hprefix⟩ := htarget
    rw [List.prefix_nil.1 hprefix] at hword
    cases hword

/-- A reference to a file names it, and a blank in front of one to the web hides its scheme. -/
theorem localTarget_isExternal_iff_web :
    localTarget "img/a.png ?v=1".toList = some "img/a.png".toList ∧
      Text.Trimmed "img/a.png".toList ∧ ¬ IsExternal "img/a.png".toList ∧
      ∃ target, localTarget " https://x.org/a.png#b".toList = some target ∧ IsExternal target := by
  have hfile : localTarget "img/a.png ?v=1".toList = some "img/a.png".toList := by decide
  obtain ⟨hparts, hexternal⟩ := localTarget_isExternal_iff "img/a.png ?v=1".toList
  have hname : "ttps".toList.all Char.isAlphanum = true := by decide
  have hword : Opening "https:".toList :=
    @Opening.scheme 'h' "ttps".toList (by decide) fun d hd => .inl (List.all_eq_true.1 hname d hd)
  have hweb : IsExternal "https://x.org/a.png#b".toList := ⟨_, hword, by decide⟩
  refine ⟨hfile, (hparts _ hfile).2.2.1, fun h => ?_, ?_⟩
  · obtain ⟨c, hc, hblank⟩ := (hexternal.1 ⟨_, hfile, h⟩).1
    obtain rfl : 'i' = c := Option.some.inj hc
    exact absurd hblank (by decide)
  · exact (localTarget_isExternal_iff " https://x.org/a.png#b".toList).2.2
      ⟨⟨' ', rfl, by decide⟩, hweb⟩

end Bindery.Html.Reference
