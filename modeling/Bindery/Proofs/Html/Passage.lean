import Bindery.Proofs.Html.Scan

/-! Redirecting a text part by part. What stands before a `<` and what begins there are redirected
apart when no tag runs from one into the other, and a carrier's tag is redirected apart from what
follows it. -/

namespace Bindery.Html.Reference

open Text (isBlank)

/-- Pieces with more text before them. -/
def lead (u : List Char) : List Piece → List Piece
  | .text cs :: pieces => .text (u ++ cs) :: pieces
  | pieces => .text u :: pieces

theorem scanFrom_append (before kept html : List Char) :
    scanFrom (kept ++ before) html = lead before.reverse (scanFrom kept html) := by
  induction kept, html using scan_induction with
  | nil kept => simp [scanFrom_nil, lead]
  | char kept c cs hc ih => rw [scanFrom_cons hc, scanFrom_cons hc, ← ih, List.cons_append]
  | closed kept cs hclosed ih =>
    rw [scanFrom_closed hclosed, scanFrom_closed hclosed, ← ih, List.cons_append]
  | passed kept cs blanks name body rest hopens hbody ih =>
    rw [scanFrom_passed hopens hbody, scanFrom_passed hopens hbody, ← ih, List.append_assoc _ _ before,
      List.cons_append]
  | found kept cs blanks name body rest before' value after hopens hbody hparts ih =>
    rw [scanFrom_found hopens hbody hparts, scanFrom_found hopens hbody hparts]
    simp [lead]

section Handled

variable {m : Type → Type} [Monad m] [LawfulMonad m] (handle : List Char → m (List Char))

/-- The answer for a value: the handler's when it is local, else the value itself. -/
def ask (value : List Char) : m (List Char) :=
  match localTarget value with
  | some target => handle target
  | none => pure value

theorem redirectPieces_text (cs : List Char) (pieces : List Piece) :
    redirectPieces handle (.text cs :: pieces) =
      (cs ++ ·) <$> redirectPieces handle pieces := by
  rw [map_eq_pure_bind]
  rfl

theorem redirectPieces_value (value : List Char) (pieces : List Piece) :
    redirectPieces handle (.value value :: pieces) =
      ask handle value >>= fun new => (new ++ ·) <$> redirectPieces handle pieces := by
  rw [redirectPieces]
  unfold ask
  cases localTarget value with
  | none => simp
  | some target => simp

theorem redirectPieces_lead (u : List Char) (pieces : List Piece) :
    redirectPieces handle (lead u pieces) = (u ++ ·) <$> redirectPieces handle pieces := by
  unfold lead
  split
  · simp [redirectPieces_text, List.append_assoc]
  · exact redirectPieces_text handle u _

theorem redirectPieces_scanFrom (kept html : List Char) :
    redirectPieces handle (scanFrom kept html) = (kept.reverse ++ ·) <$> redirect handle html := by
  have h := scanFrom_append kept [] html
  rw [List.nil_append] at h
  rw [h, redirectPieces_lead]
  rfl

theorem redirect_end (rest : List Char) :
    redirect handle ('>' :: rest) = ('>' :: ·) <$> redirect handle rest := by
  show redirectPieces handle (scanFrom [] ('>' :: rest)) = _
  rw [scanFrom_cons (by decide), redirectPieces_scanFrom]
  rfl

variable {cs blanks name body rest : List Char}

theorem redirect_passed (h : Opens cs blanks name body rest) (hbody : splitBody body = none) :
    redirect handle ('<' :: cs) =
      ('<' :: (blanks ++ name ++ body) ++ '>' :: ·) <$> redirect handle rest := by
  show redirectPieces handle (scanFrom [] ('<' :: cs)) = _
  rw [scanFrom_passed h hbody, redirectPieces_scanFrom, redirect_end]
  simp

theorem redirect_found {before value after : List Char} (h : Opens cs blanks name body rest)
    (hbody : splitBody body = some (before, value)) (hparts : body = before ++ (value ++ after)) :
    redirect handle ('<' :: cs) = ask handle value >>= fun new =>
      ('<' :: (blanks ++ name ++ before ++ new ++ after) ++ '>' :: ·) <$> redirect handle rest := by
  show redirectPieces handle (scanFrom [] ('<' :: cs)) = _
  rw [scanFrom_found h hbody hparts, redirectPieces_text, redirectPieces_value]
  simp [redirectPieces_scanFrom, redirect_end]

/-- A text without a `<` stays as it is. -/
theorem redirect_plain {cs : List Char} (h : '<' ∉ cs) : redirect handle cs = pure cs := by
  suffices hfrom : ∀ kept, scanFrom kept cs = [.text (kept.reverse ++ cs)] by
    show redirectPieces handle (scanFrom [] cs) = _
    rw [hfrom [], redirectPieces_text]
    simp [redirectPieces]
  induction cs with
  | nil => intro kept; rw [scanFrom_nil, List.append_nil]
  | cons c cs ih =>
    intro kept
    rw [List.mem_cons, not_or] at h
    rw [scanFrom_cons (Ne.symm h.1), ih h.2]
    simp

end Handled

/-- No carrier's tag begins in the text and runs past its end. -/
def Outside (front : List Char) : Prop :=
  ∀ u v, front = u ++ '<' :: v → '>' ∉ v →
    ∀ blanks name b, (∀ c ∈ blanks, isBlank c = true) → IsCarrier name → isBlank b = true →
      ¬(blanks ++ name ++ [b]) <+: v

theorem outside_of_not_mem {front : List Char} (h : '<' ∉ front) : Outside front := by
  rintro u v rfl
  exact absurd (by simp) h

theorem Outside.of_append {u v : List Char} (h : Outside (u ++ v)) : Outside v := by
  rintro u' v' rfl
  exact h (u ++ u') v' (by simp)

theorem Outside.closed {v cs : List Char} (h : Outside ('<' :: v)) (hclosed : tag? v = none) :
    tag? (v ++ '<' :: cs) = none := by
  rw [← Option.not_isSome_iff_eq_none]
  intro hsome
  obtain ⟨⟨width, body⟩, htag⟩ := Option.isSome_iff_exists.1 hsome
  obtain ⟨blanks, name, rest, hopens, -⟩ := tag?_eq_some_iff.1 htag
  obtain ⟨b, more, rfl, hb, -⟩ := hopens.body_blank
  have hlt : '<' ∉ blanks ++ name ++ [b] := hopens.not_mem_front (by decide) (by decide)
  by_cases hend : '>' ∈ v
  · have hlead : (v ++ '<' :: cs).takeWhile (· != '<') = v.takeWhile (· != '<') := by
      rw [List.takeWhile_append]
      split
      · rename_i hall
        rw [List.takeWhile_cons, if_neg (by simp), List.append_nil]
        exact ((List.takeWhile_prefix _).eq_of_length hall).symm
      · rfl
    have hopen := tag?_isSome_congr hlead (by simp [hend]) hsome
    rw [hclosed] at hopen
    cases hopen
  · refine h [] v rfl hend blanks name b hopens.blank hopens.carrier hb ?_
    have hparts : v ++ '<' :: cs = (blanks ++ name ++ [b]) ++ (more ++ '>' :: rest) := by
      rw [hopens.parts]
      simp
    rcases List.append_eq_append_iff.1 hparts with ⟨w, hfront, hw⟩ | ⟨w, hv, -⟩
    · cases w with
      | nil => exact ⟨[], by rw [List.append_nil, hfront, List.append_nil]⟩
      | cons d w =>
        rw [List.cons_append, List.cons.injEq] at hw
        exact absurd (by rw [hfront, ← hw.1]; simp) hlt
    · exact ⟨w, hv.symm⟩

theorem Opens.append {cs blanks name body rest : List Char} (h : Opens cs blanks name body rest)
    (more : List Char) : Opens (cs ++ more) blanks name body (rest ++ more) :=
  ⟨by rw [h.parts]; simp, h.blank, h.carrier, h.body_blank, h.body_inner⟩

/-- A text and what begins with a `<` behind it are redirected one after the other. -/
theorem redirect_append {m : Type → Type} [Monad m] [LawfulMonad m]
    (handle : List Char → m (List Char)) {front : List Char} (h : Outside front)
    (cs : List Char) :
    redirect handle (front ++ '<' :: cs) =
      redirect handle front >>= fun out => (out ++ ·) <$> redirect handle ('<' :: cs) := by
  suffices hfrom : ∀ kept, redirectPieces handle (scanFrom kept (front ++ '<' :: cs)) =
      redirectPieces handle (scanFrom kept front) >>= fun out =>
        (out ++ ·) <$> redirect handle ('<' :: cs) from hfrom []
  intro kept
  induction kept, front using scan_induction with
  | nil kept => simp [scanFrom_nil, redirectPieces_scanFrom, redirectPieces]
  | char kept c front hc ih =>
    rw [List.cons_append, scanFrom_cons hc, scanFrom_cons hc]
    exact ih (h.of_append (u := [c]))
  | closed kept front hclosed ih =>
    rw [List.cons_append, scanFrom_closed (h.closed hclosed), scanFrom_closed hclosed]
    exact ih (h.of_append (u := ['<']))
  | passed kept front blanks name body rest hopens hbody ih =>
    rw [List.cons_append, scanFrom_passed (hopens.append _) hbody, scanFrom_passed hopens hbody]
    refine ih (Outside.of_append (u := '<' :: (blanks ++ (name ++ body))) ?_)
    rw [hopens.parts] at h
    simpa using h
  | found kept front blanks name body rest before value after hopens hbody hparts ih =>
    rw [List.cons_append, scanFrom_found (hopens.append _) hbody hparts,
      scanFrom_found hopens hbody hparts]
    have hrest : Outside ('>' :: rest) := by
      refine Outside.of_append (u := '<' :: (blanks ++ (name ++ body))) ?_
      rw [hopens.parts] at h
      simpa using h
    have ih := ih hrest
    rw [List.cons_append] at ih
    simp [redirectPieces_text, redirectPieces_value, ih]

end Bindery.Html.Reference
