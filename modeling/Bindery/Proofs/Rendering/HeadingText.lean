import Bindery.Proofs.Marker
import Bindery.Proofs.Rendering.Inline
import Bindery.Proofs.Rendering.Styled

/-! What a heading shows against the title in its entry. The marker is found in the heading's plain
text, but it is cut off its markup by a search of its own. The two agree when the marker opens and
closes in text that stands right in the heading. -/

namespace Bindery

open Markdown (Node)
open Html (Flow Element Reading escapeText escapeTextChar shown betweenFrom decode readEscape)

namespace Html

variable {html text : List Char}

theorem Shows.text_eq_nil (h : Shows [] text) : text = [] := by
  generalize hhtml : [] = html at h
  cases h with
  | nil => rfl
  | char c _ =>
    obtain hc | ⟨-, front, hc⟩ := escapeTextChar_cases c <;> simp [hc] at hhtml
  | tag => cases hhtml

/-- No marker opens in markup when none opens in the text that it shows. -/
theorem Shows.splitMarker_eq_none (h : Shows html text) (hnone : Heading.splitMarker text = none) :
    Heading.splitMarker html = none := by
  cases hsplit : Heading.splitMarker html with
  | none => rfl
  | some found =>
    obtain ⟨hhtml, -⟩ := Heading.of_splitMarker hsplit
    obtain ⟨before, after, rfl, -, hafter⟩ := h.split (c := '{') rfl hhtml
    obtain ⟨front, after, rfl, hfront, -⟩ := hafter.split (c := '#') (u := []) rfl rfl
    obtain rfl := hfront.text_eq_nil
    exact absurd ⟨before, after, by simp⟩ (Heading.splitMarker_eq_none_iff.1 hnone)

theorem fit_headingId (level : Nat) (id : Option (List Char)) :
    Attribute.Fit ((id.toList.map fun id => ("id".toList, id)).map
      fun x => ⟨x.1, some (escapeAttr x.2)⟩) (Element.heading level).attributes := by
  refine fit_escaped ?_
  show List.Sublist _ ["id".toList]
  cases id <;> simp

theorem shown_headingTag (h : Shows html text) (level : Nat) (id : Option (List Char)) :
    shown (headingTag level id html ++ ['\n']) = Text.trim text := by
  have hbetween : betweenFrom false (headingTag level id html ++ ['\n']) =
      escapeText text ++ ['\n'] := by
    rw [headingTag_eq, List.append_assoc, List.append_assoc,
      betweenFrom_opening (fit_headingId level id), h.betweenFrom_append, betweenFrom_closing]
    rfl
  rw [shown, hbetween, decode_escapeText_append]
  exact Text.trim_append (List.forall_mem_singleton.2 rfl)

theorem not_flow_headingTag {k : Int} (hk : k ≠ 0)
    (h : ∀ n, (⟨.text, n⟩ : Reading).through html = ⟨.text, n + k⟩) (level : Nat)
    (id : Option (List Char)) : ¬Flow (headingTag level id html ++ ['\n']) := by
  rw [headingTag_eq]
  exact Reading.not_flow_of_open (fit_headingId level id) hk h flow_line

end Html

namespace Heading

variable {before inner after : List Char}

theorem splitMarker_concat_brace (h : splitMarker inner = none) :
    splitMarker (inner ++ ['}']) = none := by
  rw [splitMarker_eq_none_iff] at h ⊢
  rintro ⟨front, back, hinner⟩
  rcases List.eq_nil_or_concat back with rfl | ⟨back, c, rfl⟩
  · have hlast := congrArg List.getLast? hinner
    simp at hlast
  · rw [List.concat_eq_append, ← List.append_assoc] at hinner
    exact h ⟨front, back, (List.append_inj' hinner rfl).1⟩

/-- A marker that is taken off leaves the text before it. -/
theorem title_of_marker (hinner : splitMarker inner = none)
    (hafter : ∀ c ∈ after, Text.isBlank c = true)
    (h : (extractMarker (Text.trim (before ++ '{' :: '#' :: (inner ++ '}' :: after)))).2 ≠ none) :
    Text.trimEnd (extractMarker (Text.trim (before ++ '{' :: '#' :: (inner ++ '}' :: after)))).1 =
      Text.trim before := by
  have htext : Text.trim (before ++ '{' :: '#' :: (inner ++ '}' :: after)) =
      Text.trimStart before ++ '{' :: '#' :: (inner ++ ['}']) := by
    have hcut : Text.trimStart before ++ '{' :: '#' :: (inner ++ '}' :: after) =
        (Text.trimStart before ++ '{' :: '#' :: inner) ++ '}' :: after := by simp
    rw [Text.trim, Text.trimStart_append (by decide), hcut, Text.trimEnd_concat (by decide) _ hafter]
    simp
  obtain ⟨before', inner', hsplit, hinner', htitle⟩ := of_extractMarker h
  rw [htitle]
  have hsame := splitMarker_append hinner' before'
  rw [← hsplit, Text.trim, Text.trimEnd_trimEnd, ← Text.trim, htext,
    splitMarker_append (splitMarker_concat_brace hinner)] at hsame
  obtain ⟨rfl, -⟩ := Prod.mk.inj (Option.some.inj hsame)
  rw [Text.trimEnd_trimEnd]
  rfl

theorem stripMarker_eq (html : List Char) : stripMarker html =
    match splitMarker (Text.trimEnd html) with
    | some (before, _) =>
      if (Text.trimEnd html).getLast? = some '}' then Text.trimEnd before else html
    | none => html := rfl

theorem stripMarker_of_closed (hinner : splitMarker inner = none)
    (hafter : ∀ c ∈ after, Text.isBlank c = true) :
    stripMarker (before ++ '{' :: '#' :: (inner ++ '}' :: after)) = Text.trimEnd before := by
  have hcut : before ++ '{' :: '#' :: (inner ++ '}' :: after) =
      (before ++ '{' :: '#' :: inner) ++ '}' :: after := by simp
  have hcore : Text.trimEnd (before ++ '{' :: '#' :: (inner ++ '}' :: after)) =
      before ++ '{' :: '#' :: (inner ++ ['}']) := by
    rw [hcut, Text.trimEnd_concat (by decide) _ hafter]
    simp
  have hlast : (before ++ '{' :: '#' :: (inner ++ ['}'])).getLast? = some '}' := by
    have hend : before ++ '{' :: '#' :: (inner ++ ['}']) =
        (before ++ '{' :: '#' :: inner) ++ ['}'] := by simp
    rw [hend, List.getLast?_concat]
  rw [stripMarker_eq, hcore, splitMarker_append (splitMarker_concat_brace hinner)]
  exact if_pos hlast

/-- Markup is left as it is, or cut where a marker opens for the last time. -/
theorem stripMarker_cases (html : List Char) : stripMarker html = html ∨
    ∃ before inner after, html = before ++ '{' :: '#' :: (inner ++ '}' :: after) ∧
      (∀ c ∈ after, Text.isBlank c = true) ∧ stripMarker html = Text.trimEnd before := by
  rw [stripMarker_eq]
  cases hsplit : splitMarker (Text.trimEnd html) with
  | none => exact .inl rfl
  | some found =>
    obtain ⟨before, body⟩ := found
    dsimp only
    by_cases hlast : (Text.trimEnd html).getLast? = some '}'
    · obtain ⟨after, hhtml, hafter, -⟩ := Text.exists_dropEndWhile Text.isBlank html
      obtain ⟨hcore, -⟩ := of_splitMarker hsplit
      rw [if_pos hlast]
      rcases List.eq_nil_or_concat body with rfl | ⟨inner, c, rfl⟩
      · rw [hcore] at hlast
        simp at hlast
      · rw [List.concat_eq_append] at hcore
        obtain rfl : c = '}' := by
          have hend : before ++ '{' :: '#' :: (inner ++ [c]) =
              (before ++ '{' :: '#' :: inner) ++ [c] := by simp
          rw [hcore, hend, List.getLast?_concat] at hlast
          exact Option.some.inj hlast
        refine .inr ⟨before, inner, after, ?_, hafter, rfl⟩
        conv_lhs => rw [hhtml]
        show Text.trimEnd html ++ after = _
        rw [hcore]
        simp
    · rw [if_neg hlast]
      exact .inl rfl

/-- The title is shorter than the text that a marker is taken off. -/
theorem length_title_lt {text : List Char} (h : (extractMarker text).2 ≠ none) :
    (Text.trimEnd (extractMarker text).1).length < text.length := by
  obtain ⟨before, inner, hsplit, -, htitle⟩ := of_extractMarker h
  have htrim := Text.length_trimEnd_le text
  have hbefore := Text.length_trimEnd_le before
  rw [hsplit, List.length_append, List.length_cons] at htrim
  rw [htitle, Text.trimEnd_trimEnd]
  omega

end Heading

namespace Rendering

/-- A marker that opens and closes right among the nodes, with only blanks behind it and no other
that opens in the text between its ends. -/
def MarkerAmong (cs : List Node) : Prop :=
  ∃ front inner back, letters cs =
      front ++ letter '{' :: letter '#' :: (inner ++ letter '}' :: back) ∧
    (∀ n ∈ back, ∃ c, n = letter c ∧ Text.isBlank c = true) ∧ ¬"\x7b#".toList <:+: plainTexts inner

section

variable {s : Scene} {cs : List Node}

theorem escapes_brace {c : Char} (hbreaks : s.options.breaks = false) (hc : Html.isBrace c = true)
    (cs : List Node) : markup s (letter c :: cs) = c :: markup s cs := by
  rw [markup_letter hbreaks, Html.escapeTextChar_brace hc, List.singleton_append]

theorem markup_blanks (hbreaks : s.options.breaks = false)
    (h : ∀ n ∈ cs, ∃ c, n = letter c ∧ Text.isBlank c = true) :
    markup s cs = plainTexts cs ∧ ∀ c ∈ plainTexts cs, Text.isBlank c = true := by
  induction cs with
  | nil => exact ⟨rfl, by simp [plainTexts]⟩
  | cons n cs ih =>
    obtain ⟨⟨c, rfl, hc⟩, hcs⟩ := List.forall_mem_cons.1 h
    obtain ⟨hsame, hblank⟩ := ih hcs
    have hwritten : escapeTextChar c = [c] :=
      (Html.escapeTextChar_cases c).resolve_right fun hother => by simp [hc] at hother
    rw [markup_letter hbreaks, plainTexts_letter, hwritten, hsame]
    exact ⟨rfl, List.forall_mem_cons.2 ⟨hc, hblank⟩⟩

theorem shown_of_markerAmong (hcs : ∀ n ∈ cs, Styled n) (hbreaks : s.options.breaks = false)
    (h : MarkerAmong cs) (hmarker : (Heading.extractMarker (textOf cs)).2 ≠ none) :
    ∃ text, Sound (Heading.stripMarker (markup s cs)) text ∧
      Text.trim text = Text.trimEnd (Heading.extractMarker (textOf cs)).1 := by
  obtain ⟨front, inner, back, hletters, hback, hinner⟩ := h
  have hpieces := pieces_letters hcs
  rw [hletters] at hpieces
  simp only [List.forall_mem_append, List.forall_mem_cons] at hpieces
  obtain ⟨hfront, -, -, hinnerPieces, -, -⟩ := hpieces
  have hmarkup := markup_letters hbreaks hcs
  have htext := plainTexts_letters hcs
  rw [hletters, markup_append, escapes_brace hbreaks rfl, escapes_brace hbreaks rfl, markup_append,
    escapes_brace hbreaks rfl, (markup_blanks hbreaks hback).1] at hmarkup
  rw [hletters, plainTexts_append, plainTexts_letter, plainTexts_letter, plainTexts_append,
    plainTexts_letter] at htext
  have hblank := (markup_blanks hbreaks hback).2
  have hnone := Heading.splitMarker_eq_none_iff.2 hinner
  have hnoneMarkup := (sound_of_pieces hbreaks hinnerPieces).shows.splitMarker_eq_none hnone
  obtain ⟨kept, dropped, rfl, hdropped, htrim⟩ := trimEnd_markup hbreaks hfront
  have hkept := (List.forall_mem_append.1 hfront).1
  refine ⟨plainTexts kept, ?_, ?_⟩
  · rw [← hmarkup, Heading.stripMarker_of_closed hnoneMarkup hblank, htrim]
    exact sound_of_pieces hbreaks hkept
  · rw [textOf, ← htext] at hmarker ⊢
    rw [Heading.title_of_marker hnone hblank hmarker, plainTexts_append, Text.trim_append hdropped]

theorem eq_nil_of_markup (hcs : ∀ n ∈ cs, Piece n) (hbreaks : s.options.breaks = false)
    (h : markup s cs = []) : cs = [] := by
  cases cs with
  | nil => rfl
  | cons n cs =>
    have hfirst := (List.append_eq_nil_iff.1 h).1
    obtain ⟨c, rfl⟩ | ⟨e, -, html, text, -, hnode⟩ :=
      (hcs n List.mem_cons_self).cases_of_markup hbreaks
    · have hletter := (node_letter hbreaks c).symm.trans hfirst
      obtain hc | ⟨-, front, hc⟩ := Html.escapeTextChar_cases c <;> simp [hc] at hletter
    · have hempty := hnode.symm.trans hfirst
      simp [Element.opening] at hempty

/-- Where a marker is cut off, a style is open, or the marker stands right among the nodes. -/
theorem exists_marker (hcs : ∀ n ∈ cs, Piece n) (hbreaks : s.options.breaks = false)
    {before inner after : List Char}
    (h : markup s cs = before ++ '{' :: '#' :: (inner ++ '}' :: after))
    (hafter : ∀ c ∈ after, Text.isBlank c = true) :
    (∃ k : Int, 0 < k ∧ ∀ n, (⟨.text, n⟩ : Reading).through before = ⟨.text, n + k⟩) ∨
    ∃ front middle back, cs = front ++ letter '{' :: letter '#' :: (middle ++ letter '}' :: back) ∧
      before = markup s front ∧ ∀ n ∈ back, ∃ c, n = letter c ∧ Text.isBlank c = true := by
  obtain ⟨front, rest, rfl, hfront, hrest⟩ | hopen := split_markup hbreaks hcs h rfl
  swap
  · exact .inl hopen
  refine .inr ?_
  simp only [List.forall_mem_append, List.forall_mem_cons] at hcs
  -- Right behind the opening brace no style is open, so the next character is a node's own.
  obtain ⟨first, rest, rfl, hfirst, hbehind⟩ | ⟨k, hk, hthrough⟩ :=
    split_markup hbreaks hcs.2.2 (u := []) hrest.symm rfl
  swap
  · have hzero := congrArg Reading.styles (hthrough 0)
    simp only [Reading.through, List.foldl_nil] at hzero
    omega
  simp only [List.forall_mem_append, List.forall_mem_cons] at hcs
  obtain rfl := eq_nil_of_markup hcs.2.2.1 hbreaks hfirst.symm
  obtain ⟨middle, back, rfl, -, hback⟩ | ⟨k, hk, hthrough⟩ :=
    split_markup hbreaks hcs.2.2.2.2 hbehind.symm rfl
  · simp only [List.forall_mem_append, List.forall_mem_cons] at hcs
    exact ⟨front, middle, back, rfl, hfront,
      blank_of_markup hbreaks hcs.2.2.2.2.2.2 (hback ▸ hafter)⟩
  · -- What is open before the closing brace stays open to the end, as nothing but blanks follows.
    have hflow := Reading.through_flow (sound_of_pieces hbreaks hcs.2.2.2.2).flow 0
    rw [← hbehind, List.append_cons] at hflow
    have hzero := Reading.through_of_append_blank hafter hflow
    rw [Reading.through_append, hthrough] at hzero
    have hstyles := congrArg Reading.styles hzero
    simp only [Reading.through, Reading.step, List.foldl_cons, List.foldl_nil] at hstyles
    split at hstyles <;> dsimp only at hstyles <;> omega

theorem markerAmong_of_shown (hcs : ∀ n ∈ cs, Styled n) (hbreaks : s.options.breaks = false)
    (hmarker : (Heading.extractMarker (textOf cs)).2 ≠ none) (level : Nat) (id : Option (List Char))
    (hflow : Flow (Html.headingTag level id (Heading.stripMarker (markup s cs)) ++ ['\n']))
    (hshown : shown (Html.headingTag level id (Heading.stripMarker (markup s cs)) ++ ['\n']) =
      Text.trimEnd (Heading.extractMarker (textOf cs)).1) : MarkerAmong cs := by
  have hsound : Sound (markup s cs) (plainTexts cs) :=
    sound_of_forall fun n hn => (hcs n hn).sound hbreaks
  obtain hsame | ⟨before, inner, after, hhtml, hafter, hstrip⟩ :=
    Heading.stripMarker_cases (markup s cs)
  · rw [hsame, Html.shown_headingTag hsound.shows] at hshown
    have hlt := Heading.length_title_lt hmarker
    rw [← hshown] at hlt
    exact absurd hlt (Nat.lt_irrefl _)
  rw [hstrip] at hflow hshown
  have hpieces := pieces_letters hcs
  obtain ⟨k, hk, hthrough⟩ | ⟨front, middle, back, hletters, rfl, hback⟩ :=
    exists_marker hpieces hbreaks ((markup_letters hbreaks hcs).trans hhtml) hafter
  · refine absurd hflow (Html.not_flow_headingTag (Int.ne_of_gt hk) (fun n => ?_) level id)
    obtain ⟨blanks, hu, hblanks, -⟩ := Text.exists_dropEndWhile Text.isBlank before
    exact Reading.through_of_append_blank hblanks (hu ▸ hthrough n)
  refine ⟨front, middle, back, hletters, hback, ?_⟩
  rw [← Heading.splitMarker_eq_none_iff]
  cases hsplit : Heading.splitMarker (plainTexts middle) with
  | none => rfl
  | some found =>
    -- The title has all that stands before the last marker, and so more than is shown.
    obtain ⟨between, behind⟩ := found
    obtain ⟨hmiddle, hbehind⟩ := Heading.of_splitMarker hsplit
    rw [hletters] at hpieces
    obtain ⟨kept, dropped, rfl, hdropped, htrim⟩ :=
      trimEnd_markup hbreaks (List.forall_mem_append.1 hpieces).1
    have hkept := (List.forall_mem_append.1 (List.forall_mem_append.1 hpieces).1).1
    have htext : plainTexts cs = (plainTexts (kept ++ dropped) ++ '{' :: '#' :: between) ++
        '{' :: '#' :: (behind ++ '}' :: plainTexts back) := by
      rw [← plainTexts_letters hcs, hletters]
      simp only [plainTexts_append, plainTexts_letter, hmiddle, List.append_assoc, List.cons_append]
    rw [htrim, Html.shown_headingTag (sound_of_pieces hbreaks hkept).shows] at hshown
    rw [textOf, htext] at hmarker hshown
    have hlt := Text.length_trim_lt (c := '{') (by decide) (plainTexts (kept ++ dropped))
      ('#' :: between)
    rw [← Heading.title_of_marker hbehind (markup_blanks hbreaks hback).2 hmarker, ← hshown,
      plainTexts_append, Text.trim_append hdropped] at hlt
    exact absurd hlt (Nat.lt_irrefl _)

end

/-- A heading of styled text is nested as it should be and shows the title of its entry exactly when
no marker is taken off its text, or the marker stands right in the heading. -/
theorem heading_shows_title_iff {options : Markdown.Options} {r : RegistryId} {base : Path}
    {s : Scene} {cs : List Node} (hcs : ∀ n ∈ cs, Styled n) (hbreaks : s.options.breaks = false)
    (level : Nat) (recording : Productions.Recording) :
    ∃ html entry, (node (Productions.linking options r base) s (.heading level cs)).run.run recording =
        (.ok html, ⟨recording.store, recording.outline ++ [entry]⟩) ∧
      (Flow html ∧ shown html = entry.title.toList ↔
        (Heading.extractMarker (textOf cs)).2 = none ∨ MarkerAmong cs) := by
  have hrun : (node (Productions.linking options r base) s (.heading level cs)).run.run recording =
      (.ok (headingMarkup options level (markup s.inText cs)
        (Heading.extractMarker (textOf cs)) ++ ['\n']),
        ⟨recording.store, recording.outline ++ [Heading.ofText options level (textOf cs)]⟩) := by
    rw [node, nodes_styled hcs, pure_bind]
    rfl
  refine ⟨_, _, hrun, ?_⟩
  have hbreaks' : s.inText.options.breaks = false := hbreaks
  have htitle : (Heading.ofText options level (textOf cs)).title.toList =
      Text.trimEnd (Heading.extractMarker (textOf cs)).1 := String.toList_ofList
  rw [htitle, headingMarkup]
  constructor
  · rintro ⟨hflow, hshown⟩
    by_cases hmarker : (Heading.extractMarker (textOf cs)).2 = none
    · exact .inl hmarker
    · rw [if_pos (Option.isSome_iff_ne_none.2 hmarker)] at hflow hshown
      exact .inr (markerAmong_of_shown hcs hbreaks' hmarker level _ hflow hshown)
  · intro h
    obtain ⟨text, hsound, htext⟩ : ∃ text, Sound
        (if (Heading.extractMarker (textOf cs)).2.isSome
          then Heading.stripMarker (markup s.inText cs) else markup s.inText cs) text ∧
        Text.trim text = Text.trimEnd (Heading.extractMarker (textOf cs)).1 := by
      by_cases hmarker : (Heading.extractMarker (textOf cs)).2 = none
      · rw [hmarker, Heading.extractMarker_of_none hmarker]
        refine ⟨plainTexts cs, sound_of_forall fun n hn => (hcs n hn).sound hbreaks', ?_⟩
        exact (Text.trimEnd_trimEnd _).symm
      · rw [if_pos (Option.isSome_iff_ne_none.2 hmarker)]
        exact shown_of_markerAmong hcs hbreaks' (h.resolve_left hmarker) hmarker
    exact ⟨(Html.flow_headingTag level _ hsound.flow).append Html.flow_line,
      (Html.shown_headingTag hsound.shows level _).trans htext⟩

/-- A marker in emphasis is told from the title and stays in what is shown; one behind it is taken
off both. -/
theorem heading_shows_title_iff_emphasized :
    let within : List Node := [.emphasis [.text "a \x7b#b\x7d"]]
    let behind : List Node := [.emphasis [.text "a"], .text " \x7b#b\x7d"]
    let walk (cs : List Node) := (node (Productions.linking {} 0 ⟨"/site"⟩)
      ⟨{}, [], false, false⟩ (.heading 1 cs)).run.run ⟨{}, []⟩
    (∃ html entry, walk within = (.ok html, ⟨{}, [entry]⟩) ∧
      ¬(Flow html ∧ shown html = entry.title.toList)) ∧
    ∃ html entry, walk behind = (.ok html, ⟨{}, [entry]⟩) ∧
      Flow html ∧ shown html = entry.title.toList := by
  intro within behind walk
  have hwithin : ∀ n ∈ within, Styled n :=
    List.forall_mem_singleton.2 (.emphasis (List.forall_mem_singleton.2 (.text _)))
  have hbehind : ∀ n ∈ behind, Styled n := by
    refine List.forall_mem_cons.2 ⟨?_, List.forall_mem_singleton.2 (.text _)⟩
    exact .emphasis (List.forall_mem_singleton.2 (.text _))
  obtain ⟨html, entry, hrun, hiff⟩ := heading_shows_title_iff (r := 0)
    (s := ⟨{}, [], false, false⟩) hwithin rfl 1 ⟨{}, []⟩
  obtain ⟨html', entry', hrun', hiff'⟩ := heading_shows_title_iff (r := 0)
    (s := ⟨{}, [], false, false⟩) hbehind rfl 1 ⟨{}, []⟩
  refine ⟨⟨html, entry, hrun, fun hshows => ?_⟩, html', entry', hrun', hiff'.2 (.inr ?_)⟩
  · rcases hiff.1 hshows with hnone | ⟨front, middle, back, hletters, -⟩
    · exact absurd hnone (by decide)
    · have hmem : letter '{' ∈ letters within := hletters ▸ List.mem_append_right front List.mem_cons_self
      rcases List.mem_singleton.1 hmem with ⟨⟩
  · refine ⟨[.emphasis [.text "a"], letter ' '], [letter 'b'], [], rfl, by simp, by decide⟩

end Rendering

end Bindery
