import Bindery.Proofs.Html.Attribute

/-! What the scan for references does at each place of a text, and that scanning once more what was
put together from the pieces finds the same pieces, also when values were exchanged for texts like
tokens. -/

namespace Bindery.Html.Reference

/-- The file that a piece of markup names. -/
def Piece.target? : Piece → Option (List Char)
  | .text _ => none
  | .value cs => localTarget cs

/-- The files that markup names, in order. -/
def targets (html : List Char) : List (List Char) := (scan html).filterMap Piece.target?

section Steps

variable {kept cs blanks name body rest : List Char}

theorem scanFrom_nil : scanFrom kept [] = [.text kept.reverse] := by
  rw [scanFrom]

theorem scanFrom_cons {c : Char} (h : c ≠ '<') : scanFrom kept (c :: cs) = scanFrom (c :: kept) cs := by
  rw [scanFrom, if_neg h]

theorem scanFrom_closed (h : tag? cs = none) :
    scanFrom kept ('<' :: cs) = scanFrom ('<' :: kept) cs := by
  rw [scanFrom, if_pos rfl, h]

theorem Opens.tag? (h : Opens cs blanks name body rest) :
    tag? cs = some ((blanks ++ name).length, body) :=
  tag?_eq_some_iff.2 ⟨blanks, name, rest, h, List.length_append⟩

theorem Opens.replace {body' rest' : List Char} (h : Opens cs blanks name body rest)
    (hblank : ∃ b more, body' = b :: more ∧ Text.isBlank b = true ∧ more ≠ [])
    (hinner : '>' ∉ body') :
    Opens (blanks ++ (name ++ (body' ++ '>' :: rest'))) blanks name body' rest' :=
  ⟨rfl, h.blank, h.carrier, hblank, hinner⟩

theorem scanFrom_passed (h : Opens cs blanks name body rest) (hbody : splitBody body = none) :
    scanFrom kept ('<' :: cs) =
      scanFrom ((blanks ++ name ++ body).reverse ++ '<' :: kept) ('>' :: rest) := by
  have hcs : cs = blanks ++ name ++ body ++ '>' :: rest := by rw [h.parts]; simp
  have hlength : (blanks ++ name).length + body.length = (blanks ++ name ++ body).length :=
    List.length_append.symm
  rw [scanFrom, if_pos rfl, h.tag?]
  simp only [hbody, hlength]
  rw [hcs, List.take_left, List.drop_left]

theorem scanFrom_found {before value after : List Char} (h : Opens cs blanks name body rest)
    (hbody : splitBody body = some (before, value)) (hparts : body = before ++ (value ++ after)) :
    scanFrom kept ('<' :: cs) =
      .text (kept.reverse ++ '<' :: (blanks ++ name) ++ before) :: .value value ::
        scanFrom after.reverse ('>' :: rest) := by
  have hcs : cs = blanks ++ name ++ body ++ '>' :: rest := by rw [h.parts]; simp
  have hlength : (blanks ++ name).length + body.length = (blanks ++ name ++ body).length :=
    List.length_append.symm
  have htail : body.drop (before.length + value.length) = after := by
    rw [hparts, ← List.append_assoc, ← List.length_append, List.drop_left]
  rw [scanFrom, if_pos rfl, h.tag?]
  simp only [hbody, hlength, htail]
  rw [hcs, List.drop_left, List.append_assoc (blanks ++ name), List.take_left]

end Steps

/-- Induction on what the scan passes: a character, a `<` that opens no carrier's tag, a carrier's
tag without a value, and one with a value. -/
theorem scan_induction {motive : List Char → List Char → Prop}
    (nil : ∀ kept, motive kept [])
    (char : ∀ kept c cs, c ≠ '<' → motive (c :: kept) cs → motive kept (c :: cs))
    (closed : ∀ kept cs, tag? cs = none → motive ('<' :: kept) cs → motive kept ('<' :: cs))
    (passed : ∀ kept cs blanks name body rest, Opens cs blanks name body rest →
      splitBody body = none →
      motive ((blanks ++ name ++ body).reverse ++ '<' :: kept) ('>' :: rest) →
      motive kept ('<' :: cs))
    (found : ∀ kept cs blanks name body rest before value after, Opens cs blanks name body rest →
      splitBody body = some (before, value) → body = before ++ (value ++ after) →
      motive after.reverse ('>' :: rest) → motive kept ('<' :: cs))
    (kept html : List Char) : motive kept html := by
  match html with
  | [] => exact nil kept
  | c :: cs =>
    by_cases hc : c = '<'
    · subst hc
      cases htag : tag? cs with
      | none => exact closed kept cs htag (scan_induction nil char closed passed found _ _)
      | some opened =>
        obtain ⟨blanks, name, rest, hopens, -⟩ := tag?_eq_some_iff.1 htag
        have hshort : rest.length < cs.length := by
          rw [hopens.parts]
          simp only [List.length_append, List.length_cons]
          omega
        cases hbody : splitBody opened.2 with
        | none =>
          exact passed kept cs blanks name opened.2 rest hopens hbody
            (scan_induction nil char closed passed found _ _)
        | some cut =>
          obtain ⟨after, hparts, -⟩ := splitBody_exchange hbody
          exact found kept cs blanks name opened.2 rest cut.1 cut.2 after hopens hbody hparts
            (scan_induction nil char closed passed found _ _)
    · exact char kept c cs hc (scan_induction nil char closed passed found _ _)
termination_by html.length

/-- A piece that is as it was, or a value exchanged for a text like a token. -/
inductive Exchanged : Piece → Piece → Prop where
  | same (p : Piece) : Exchanged p p
  | value (old : List Char) {new : List Char} (hne : new ≠ [])
      (hnew : ∀ c ∈ new, Token.isTokenChar c = true) : Exchanged (.value old) (.value new)

/-- Two texts of which a tag before them cannot tell which one it runs into. -/
structure Alike (cs cs' : List Char) : Prop where
  lead : cs.takeWhile (· != '<') = cs'.takeWhile (· != '<')
  close : '>' ∈ cs ↔ '>' ∈ cs'

theorem Alike.cons {cs cs' : List Char} (h : Alike cs cs') (c : Char) : Alike (c :: cs) (c :: cs') where
  lead := by
    rw [List.takeWhile_cons, List.takeWhile_cons, h.lead]
  close := by rw [List.mem_cons, List.mem_cons, h.close]

theorem Alike.closed {cs cs' : List Char} (h : Alike cs cs') (hclosed : tag? cs = none) :
    tag? cs' = none := by
  rw [← Option.not_isSome_iff_eq_none] at hclosed ⊢
  exact fun hopen => hclosed (tag?_isSome_congr h.lead.symm h.close.symm hopen)

/-- Texts that both open a tag with what they begin with are alike when they end alike. -/
theorem Alike.of_end {rest rest' : List Char} (h : Alike ('>' :: rest) rest') :
    ∃ more, rest' = '>' :: more := by
  have hlead := h.lead
  cases rest' with
  | nil => simp at hlead
  | cons d more =>
    rw [List.takeWhile_cons, if_pos (by decide), List.takeWhile_cons] at hlead
    split at hlead
    · exact ⟨more, by rw [(List.cons.inj hlead).1]⟩
    · cases hlead

/-- Behind a `<` the texts may differ, as long as both hold a `>`. -/
theorem alike_of_tag {cs cs' : List Char} (h : '>' ∈ cs) (h' : '>' ∈ cs') :
    Alike ('<' :: cs) ('<' :: cs') where
  lead := by simp
  close := by simp [h, h']

theorem Opens.exchange {cs blanks name body rest before value after : List Char} {p : Piece}
    (h : Opens cs blanks name body rest) (hbody : splitBody body = some (before, value))
    (hparts : body = before ++ (value ++ after)) (hp : Exchanged (.value value) p)
    (more : List Char) : ∃ new, p = .value new ∧
      splitBody (before ++ (new ++ after)) = some (before, new) ∧
      Opens (blanks ++ (name ++ (before ++ (new ++ after) ++ '>' :: more)))
        blanks name (before ++ (new ++ after)) more := by
  cases hp with
  | same =>
    rw [hparts] at hbody
    exact ⟨value, rfl, hbody,
      h.replace (hparts ▸ h.body_blank) (hparts ▸ h.body_inner)⟩
  | @value _ new hne hnew =>
    obtain ⟨after', hparts', -, hbefore, hexchange⟩ := splitBody_exchange hbody
    obtain rfl : after = after' :=
      List.append_cancel_left (List.append_cancel_left (hparts.symm.trans hparts'))
    obtain ⟨b, front, rfl⟩ := List.exists_cons_of_ne_nil hbefore
    obtain ⟨b', more', hhead, hb, -⟩ := h.body_blank
    rw [hparts, List.cons_append, List.cons.injEq] at hhead
    refine ⟨new, rfl, hexchange new hne hnew, h.replace ⟨b, _, rfl, hhead.1 ▸ hb, by simp [hne]⟩ ?_⟩
    have hold := h.body_inner
    rw [hparts] at hold
    simp only [List.mem_append, not_or] at hold ⊢
    refine ⟨hold.1, fun hmem => ?_, hold.2.2⟩
    exact absurd (isBare_of_isTokenChar (hnew _ hmem)) (by decide)

/-- Pieces among which values were exchanged put together make a text with these pieces. -/
theorem scanFrom_exchanged {kept html : List Char} {pieces : List Piece}
    (h : List.Forall₂ Exchanged (scanFrom kept html) pieces) :
    ∃ html', pieces.flatMap Piece.chars = kept.reverse ++ html' ∧ scanFrom kept html' = pieces ∧
      Alike html html' := by
  induction kept, html using scan_induction generalizing pieces with
  | nil kept =>
    rw [scanFrom_nil] at h
    cases h with
    | cons hpiece hnil =>
      cases hnil
      cases hpiece
      exact ⟨[], by simp [Piece.chars], scanFrom_nil, rfl, Iff.rfl⟩
  | char kept c cs hc ih =>
    rw [scanFrom_cons hc] at h
    obtain ⟨cs', hchars, hscan, halike⟩ := ih h
    exact ⟨c :: cs', by simpa using hchars, by rw [scanFrom_cons hc, hscan], halike.cons c⟩
  | closed kept cs hclosed ih =>
    rw [scanFrom_closed hclosed] at h
    obtain ⟨cs', hchars, hscan, halike⟩ := ih h
    exact ⟨'<' :: cs', by simpa using hchars,
      by rw [scanFrom_closed (halike.closed hclosed), hscan], halike.cons '<'⟩
  | passed kept cs blanks name body rest hopens hbody ih =>
    rw [scanFrom_passed hopens hbody] at h
    obtain ⟨rest', hchars, hscan, halike⟩ := ih h
    obtain ⟨more, rfl⟩ := halike.of_end
    have hopens' : Opens (blanks ++ (name ++ (body ++ '>' :: more))) blanks name body more :=
      hopens.replace hopens.body_blank hopens.body_inner
    refine ⟨'<' :: (blanks ++ (name ++ (body ++ '>' :: more))), by simpa using hchars,
      by rw [scanFrom_passed hopens' hbody, hscan], alike_of_tag ?_ (by simp)⟩
    rw [hopens.parts]
    simp
  | found kept cs blanks name body rest before value after hopens hbody hparts ih =>
    rw [scanFrom_found hopens hbody hparts] at h
    cases h with
    | cons htext h =>
      cases htext
      cases h with
      | @cons _ p _ pieces hvalue h =>
        obtain ⟨rest', hchars, hscan, halike⟩ := ih h
        obtain ⟨more, rfl⟩ := halike.of_end
        obtain ⟨new, rfl, hbody', hopens'⟩ := hopens.exchange hbody hparts hvalue more
        refine ⟨'<' :: (blanks ++ (name ++ (before ++ (new ++ after) ++ '>' :: more))), ?_,
          by rw [scanFrom_found hopens' hbody' rfl, hscan], alike_of_tag ?_ (by simp)⟩
        · simp only [List.flatMap_cons, Piece.chars, hchars]
          simp
        · rw [hopens.parts]
          simp

end Bindery.Html.Reference
