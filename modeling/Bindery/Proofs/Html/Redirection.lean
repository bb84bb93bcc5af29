import Bindery.Proofs.Html.Scan

/-! Redirecting references as a change of byte ranges. The local values of a text stand at ranges
that follow each other; the answers take the place of these ranges and nothing else changes. Answers
that are tokens stand in the new text where the scan finds them again. -/

namespace Bindery.Html.Reference

section Pieces

def targetsOf (pieces : List Piece) : List (List Char) := pieces.filterMap Piece.target?

/-- The pieces with the answers in the places of the local values. -/
def refill : List Piece → List (List Char) → List Piece
  | [], _ => []
  | p :: pieces, answers =>
    match p.target?, answers with
    | some _, answer :: answers => .value answer :: refill pieces answers
    | _, _ => p :: refill pieces answers

theorem scanFrom_chars (kept html : List Char) :
    (scanFrom kept html).flatMap Piece.chars = kept.reverse ++ html := by
  induction kept, html using scan_induction with
  | nil kept => simp [scanFrom_nil, Piece.chars]
  | char kept c cs hc ih => simp [scanFrom_cons hc, ih]
  | closed kept cs hclosed ih => simp [scanFrom_closed hclosed, ih]
  | passed kept cs blanks name body rest hopens hbody ih =>
    rw [scanFrom_passed hopens hbody, ih, hopens.parts]
    simp
  | found kept cs blanks name body rest before value after hopens hbody hparts ih =>
    rw [scanFrom_found hopens hbody hparts, List.flatMap_cons, List.flatMap_cons, ih, hopens.parts,
      hparts]
    simp [Piece.chars]

theorem scan_chars (html : List Char) : (scan html).flatMap Piece.chars = html :=
  scanFrom_chars [] html

end Pieces

section Calls

variable {ε σ : Type} (handle : List Char → ExceptT ε (StateM σ) (List Char))

/-- All calls give an answer: the targets, the state before them, the answers and the state after. -/
inductive Answered : List (List Char) → σ → List (List Char) → σ → Prop where
  | nil (s : σ) : Answered [] s [] s
  | cons {target answer : List Char} {targets answers : List (List Char)} {s s₁ s₂ : σ}
      (hcall : (handle target).run.run s = (.ok answer, s₁))
      (hrest : Answered targets s₁ answers s₂) :
      Answered (target :: targets) s (answer :: answers) s₂

/-- One call fails after others that gave an answer. -/
def Failed (targets : List (List Char)) (s : σ) (e : ε) (s' : σ) : Prop :=
  ∃ before target after answers s₁, targets = before ++ target :: after ∧
    Answered handle before s answers s₁ ∧ (handle target).run.run s₁ = (.error e, s')

variable {handle}

theorem Answered.length_eq {targets answers : List (List Char)} {s s' : σ}
    (h : Answered handle targets s answers s') : answers.length = targets.length := by
  induction h with
  | nil => rfl
  | cons _ _ ih => exact congrArg Nat.succ ih

theorem Failed.cons {target answer : List Char} {targets : List (List Char)} {s s₁ s' : σ} {e : ε}
    (hcall : (handle target).run.run s = (.ok answer, s₁)) (h : Failed handle targets s₁ e s') :
    Failed handle (target :: targets) s e s' := by
  obtain ⟨before, failing, after, answers, s₂, rfl, hanswered, hfails⟩ := h
  exact ⟨target :: before, failing, after, answer :: answers, s₂, rfl, .cons hcall hanswered, hfails⟩

variable (handle)

theorem redirectPieces_kept {p : Piece} (h : p.target? = none) (pieces : List Piece) :
    redirectPieces handle (p :: pieces) = do
      let out ← redirectPieces handle pieces
      return p.chars ++ out := by
  cases p with
  | text cs => rfl
  | value cs =>
    have h : localTarget cs = none := h
    rw [redirectPieces, h]
    rfl

theorem redirectPieces_asked {p : Piece} {target : List Char} (h : p.target? = some target)
    (pieces : List Piece) :
    redirectPieces handle (p :: pieces) = do
      let new ← handle target
      let out ← redirectPieces handle pieces
      return new ++ out := by
  cases p with
  | text cs => cases h
  | value cs =>
    have h : localTarget cs = some target := h
    rw [redirectPieces, h]

theorem run_bind_ok {α β : Type} {x : ExceptT ε (StateM σ) α} {f : α → ExceptT ε (StateM σ) β}
    {a : α} {s s₁ : σ} (h : x.run.run s = (.ok a, s₁)) :
    (x >>= f).run.run s = (f a).run.run s₁ := by
  show (ExceptT.bindCont f (x.run.run s).1 : StateM σ _) (x.run.run s).2 = _
  rw [h]
  rfl

theorem run_bind_error {α β : Type} {x : ExceptT ε (StateM σ) α} {f : α → ExceptT ε (StateM σ) β}
    {e : ε} {s s₁ : σ} (h : x.run.run s = (.error e, s₁)) :
    (x >>= f).run.run s = (.error e, s₁) := by
  show (ExceptT.bindCont f (x.run.run s).1 : StateM σ _) (x.run.run s).2 = _
  rw [h]
  rfl

/-- Either every call gives an answer and the answers are put into the text, or the first call that
fails is the last one. -/
theorem redirectPieces_run (pieces : List Piece) (s : σ) :
    (∃ answers s', Answered handle (targetsOf pieces) s answers s' ∧
      (redirectPieces handle pieces).run.run s =
        (.ok ((refill pieces answers).flatMap Piece.chars), s')) ∨
    ∃ e s', Failed handle (targetsOf pieces) s e s' ∧
      (redirectPieces handle pieces).run.run s = (.error e, s') := by
  induction pieces generalizing s with
  | nil => exact .inl ⟨[], s, .nil s, rfl⟩
  | cons p pieces ih =>
    cases hp : p.target? with
    | none =>
      have htargets : targetsOf (p :: pieces) = targetsOf pieces := List.filterMap_cons_none hp
      rw [redirectPieces_kept handle hp, htargets]
      rcases ih s with ⟨answers, s', hanswered, hrun⟩ | ⟨e, s', hfailed, hrun⟩
      · refine .inl ⟨answers, s', hanswered, ?_⟩
        rw [run_bind_ok hrun]
        simp only [refill, hp, List.flatMap_cons]
        rfl
      · exact .inr ⟨e, s', hfailed, run_bind_error hrun⟩
    | some target =>
      have htargets : targetsOf (p :: pieces) = target :: targetsOf pieces :=
        List.filterMap_cons_some hp
      rw [redirectPieces_asked handle hp, htargets]
      rcases hcall : (handle target).run.run s with ⟨result, s₁⟩
      cases result with
      | error e =>
        exact .inr ⟨e, s₁, ⟨[], target, targetsOf pieces, [], s, rfl, .nil s, hcall⟩,
          run_bind_error hcall⟩
      | ok answer =>
        rw [run_bind_ok hcall]
        rcases ih s₁ with ⟨answers, s', hanswered, hrun⟩ | ⟨e, s', hfailed, hrun⟩
        · refine .inl ⟨answer :: answers, s', .cons hcall hanswered, ?_⟩
          rw [run_bind_ok hrun]
          simp only [refill, hp, List.flatMap_cons]
          rfl
        · exact .inr ⟨e, s', hfailed.cons hcall, run_bind_error hrun⟩

end Calls

section Ranges

/-- The bytes of a text. -/
def octets (cs : List Char) : List UInt8 := cs.flatMap String.utf8EncodeChar

theorem octets_append (u v : List Char) : octets (u ++ v) = octets u ++ octets v :=
  List.flatMap_append

theorem octets_ne_nil {cs : List Char} (h : cs ≠ []) : octets cs ≠ [] := by
  obtain ⟨c, cs, rfl⟩ := List.exists_cons_of_ne_nil h
  have hpos : 0 < (String.utf8EncodeChar c).length := by
    rw [String.length_utf8EncodeChar]
    exact c.utf8Size_pos
  simp [octets, List.ne_nil_of_length_pos hpos]

/-- A range of bytes: the first one and the one after the last. -/
structure Span where
  start : Nat
  stop : Nat
  deriving Repr, DecidableEq

/-- The ranges of the local values among pieces that begin at a byte. -/
def spansFrom (offset : Nat) : List Piece → List Span
  | [] => []
  | p :: pieces =>
    let stop := offset + (octets p.chars).length
    match p.target? with
    | some _ => ⟨offset, stop⟩ :: spansFrom stop pieces
    | none => spansFrom stop pieces

/-- The byte ranges of the local values of a text. -/
def spans (html : List Char) : List Span := spansFrom 0 (scan html)

/-- The bytes from `last` on, with other bytes in the place of some ranges. -/
def splice (whole : List UInt8) (last : Nat) : List (Span × List UInt8) → List UInt8
  | [] => whole.drop last
  | (span, new) :: changes =>
    (whole.take span.start).drop last ++ new ++ splice whole span.stop changes

/-- Ranges of a text that hold what names the targets, one after the other. -/
structure Laid (whole : List UInt8) (spans : List Span) (targets : List (List Char)) : Prop where
  increasing : spans.Pairwise fun a b => a.stop ≤ b.start
  inside : ∀ span ∈ spans, span.start < span.stop ∧ span.stop ≤ whole.length
  named : List.Forall₂ (fun span target => ∃ value,
    octets value = (whole.take span.stop).drop span.start ∧ localTarget value = some target)
    spans targets

theorem ne_nil_of_localTarget {cs target : List Char} (h : localTarget cs = some target) :
    cs ≠ [] := by
  rintro rfl
  cases h

theorem Piece.chars_of_target? {p : Piece} {target : List Char} (h : p.target? = some target) :
    localTarget p.chars = some target := by
  cases p with
  | text cs => cases h
  | value cs => exact h

theorem le_start_of_mem_spansFrom {pieces : List Piece} {offset : Nat} {span : Span}
    (h : span ∈ spansFrom offset pieces) : offset ≤ span.start := by
  induction pieces generalizing offset with
  | nil => cases h
  | cons p pieces ih =>
    unfold spansFrom at h
    split at h
    · rcases List.mem_cons.1 h with rfl | h
      · exact le_rfl
      · exact (Nat.le_add_right _ _).trans (ih h)
    · exact (Nat.le_add_right _ _).trans (ih h)

theorem laid_spansFrom (pieces : List Piece) (front : List UInt8) :
    Laid (front ++ octets (pieces.flatMap Piece.chars)) (spansFrom front.length pieces)
      (targetsOf pieces) := by
  induction pieces generalizing front with
  | nil => exact ⟨.nil, by simp [spansFrom], .nil⟩
  | cons p pieces ih =>
    have hrest := ih (front ++ octets p.chars)
    rw [List.append_assoc, ← octets_append, ← List.flatMap_cons, List.length_append] at hrest
    unfold spansFrom
    cases hp : p.target? with
    | none =>
      have htargets : targetsOf (p :: pieces) = targetsOf pieces := List.filterMap_cons_none hp
      rw [htargets]
      exact hrest
    | some target =>
      have htargets : targetsOf (p :: pieces) = target :: targetsOf pieces :=
        List.filterMap_cons_some hp
      have hvalue := p.chars_of_target? hp
      have hpos := List.length_pos_of_ne_nil (octets_ne_nil (ne_nil_of_localTarget hvalue))
      rw [htargets]
      refine ⟨List.pairwise_cons.2 ⟨fun span h => le_start_of_mem_spansFrom h, hrest.increasing⟩,
        ?_, .cons ⟨p.chars, ?_, hvalue⟩ hrest.named⟩
      · intro span hspan
        rcases List.mem_cons.1 hspan with rfl | hspan
        · refine ⟨Nat.lt_add_of_pos_right hpos, ?_⟩
          rw [List.flatMap_cons, octets_append, ← List.append_assoc, List.length_append,
            List.length_append]
          exact Nat.le_add_right _ _
        · exact hrest.inside span hspan
      · rw [List.flatMap_cons, octets_append, ← List.append_assoc, ← List.length_append,
          List.take_left, List.drop_left]

theorem laid_spans (html : List Char) : Laid (octets html) (spans html) (targets html) := by
  have h := laid_spansFrom (scan html) []
  rw [List.nil_append, scan_chars] at h
  exact h

theorem splice_spansFrom {pieces : List Piece} {answers : List (List Char)}
    (h : answers.length = (targetsOf pieces).length) (front : List UInt8) {last : Nat}
    (hlast : last ≤ front.length) :
    splice (front ++ octets (pieces.flatMap Piece.chars)) last
        ((spansFrom front.length pieces).zip (answers.map octets)) =
      front.drop last ++ octets ((refill pieces answers).flatMap Piece.chars) := by
  induction pieces generalizing front answers last with
  | nil => simp [spansFrom, splice, refill, octets]
  | cons p pieces ih =>
    unfold spansFrom
    have hwhole : front ++ octets ((p :: pieces).flatMap Piece.chars) =
        (front ++ octets p.chars) ++ octets (pieces.flatMap Piece.chars) := by
      rw [List.flatMap_cons, octets_append, List.append_assoc]
    rw [hwhole, ← List.length_append]
    cases hp : p.target? with
    | none =>
      have htargets : targetsOf (p :: pieces) = targetsOf pieces := List.filterMap_cons_none hp
      rw [htargets] at h
      have hlast' : last ≤ (front ++ octets p.chars).length := by
        rw [List.length_append]
        omega
      simp only [refill, hp]
      rw [ih h (front ++ octets p.chars) hlast', List.drop_append_of_le_length hlast,
        List.flatMap_cons, octets_append, List.append_assoc]
    | some target =>
      have htargets : targetsOf (p :: pieces) = target :: targetsOf pieces :=
        List.filterMap_cons_some hp
      rw [htargets] at h
      cases answers with
      | nil => exact absurd h (by simp)
      | cons answer answers =>
        have hrest := ih (Nat.succ.inj h) (front ++ octets p.chars) le_rfl
        rw [List.drop_length, List.nil_append] at hrest
        simp only [refill, hp, List.map_cons, List.zip_cons_cons, splice]
        rw [hrest, List.append_assoc front, List.take_left, List.flatMap_cons, octets_append,
          List.append_assoc]
        rfl

end Ranges

section Tokens

variable {new : List Char}

theorem foldCase_lower {c : Char} (hlow : 'a' ≤ c) (hhigh : c ≤ 'z') : foldCase c = c := by
  have hlow : 97 ≤ c.toNat := hlow
  have hhigh : c.toNat ≤ 122 := hhigh
  have hlong : c ≠ '\u017F' := by
    rintro rfl
    exact absurd hhigh (by decide)
  have hkelvin : c ≠ '\u212A' := by
    rintro rfl
    exact absurd hhigh (by decide)
  have hupper : ¬c ≤ 'Z' := by
    intro h
    have h : c.toNat ≤ 90 := h
    omega
  simp [foldCase, Text.toAsciiLower, hlong, hkelvin, hupper]

theorem isSchemeChar_of_isTokenChar {c : Char} (h : Token.isTokenChar c = true) :
    isSchemeChar c = true := by
  simp only [Token.isTokenChar, Bool.or_eq_true, Bool.and_eq_true, decide_eq_true_eq,
    beq_iff_eq] at h
  rcases h with (⟨hlow, hhigh⟩ | ⟨hlow, hhigh⟩) | rfl
  · simp [isSchemeChar, foldCase_lower hlow hhigh, hlow, hhigh]
  · simp [isSchemeChar, hlow, hhigh]
  · rfl

/-- A text like a token names itself. -/
theorem localTarget_token (hne : new ≠ []) (hnew : ∀ c ∈ new, Token.isTokenChar c = true) :
    localTarget new = some new := by
  have hmark : ∀ c ∈ new, c ≠ '/' ∧ c ≠ '?' ∧ c ≠ '#' := by
    intro c hc
    refine ⟨?_, ?_, ?_⟩ <;> rintro rfl <;> exact absurd (hnew _ hc) (by decide)
  have hlocal : isLocal new = true := by
    obtain ⟨c, cs, rfl⟩ := List.exists_cons_of_ne_nil hne
    have hscheme : hasScheme (c :: cs) = false := by
      have hdrop : cs.dropWhile isSchemeChar = [] := List.dropWhile_eq_nil_iff.2 fun d hd =>
        isSchemeChar_of_isTokenChar (hnew d (List.mem_cons_of_mem _ hd))
      simp [hasScheme, hdrop]
    have hc := hmark c List.mem_cons_self
    simp [isLocal, hc, hscheme]
  have hstrip : stripSuffix new = new := List.takeWhile_eq_self_iff.2 fun c hc => by
    simp [hmark c hc]
  have htrimmed := Text.trimmed_of_forall fun c hc =>
    (isBare_iff.1 (isBare_of_isTokenChar (hnew c hc))).1
  have htrim := Text.trim_surrounded (u := []) (v := []) (by simp) htrimmed (by simp)
  rw [List.nil_append, List.append_nil] at htrim
  simp [localTarget, hlocal, hstrip, htrim, hne]

theorem exchanged_refill {answers : List (List Char)}
    (h : ∀ answer ∈ answers, answer ≠ [] ∧ ∀ c ∈ answer, Token.isTokenChar c = true)
    (pieces : List Piece) : List.Forall₂ Exchanged pieces (refill pieces answers) := by
  induction pieces generalizing answers with
  | nil => exact .nil
  | cons p pieces ih =>
    unfold refill
    split
    · rename_i target answer answers hp
      have hanswer := h answer List.mem_cons_self
      obtain ⟨cs, rfl⟩ : ∃ cs, p = .value cs := by
        cases p with
        | text cs => cases hp
        | value cs => exact ⟨cs, rfl⟩
      exact .cons (.value cs hanswer.1 hanswer.2)
        (ih fun other hother => h other (List.mem_cons_of_mem _ hother))
    · exact .cons (.same p) (ih h)

theorem targetsOf_refill {pieces : List Piece} {answers : List (List Char)}
    (hlength : answers.length = (targetsOf pieces).length)
    (h : ∀ answer ∈ answers, answer ≠ [] ∧ ∀ c ∈ answer, Token.isTokenChar c = true) :
    targetsOf (refill pieces answers) = answers := by
  induction pieces generalizing answers with
  | nil => exact (List.length_eq_zero_iff.1 hlength).symm
  | cons p pieces ih =>
    cases hp : p.target? with
    | none =>
      have htargets : targetsOf (p :: pieces) = targetsOf pieces := List.filterMap_cons_none hp
      rw [htargets] at hlength
      simp only [refill, hp]
      exact (List.filterMap_cons_none hp).trans (ih hlength h)
    | some target =>
      have htargets : targetsOf (p :: pieces) = target :: targetsOf pieces :=
        List.filterMap_cons_some hp
      rw [htargets] at hlength
      cases answers with
      | nil => exact absurd hlength (by simp)
      | cons answer answers =>
        have hanswer := h answer List.mem_cons_self
        have hvalue : (Piece.value answer).target? = some answer :=
          localTarget_token hanswer.1 hanswer.2
        have hrest := ih (Nat.succ.inj hlength) fun other hother =>
          h other (List.mem_cons_of_mem _ hother)
        simp only [refill, hp]
        exact (List.filterMap_cons_some hvalue).trans (congrArg (answer :: ·) hrest)

end Tokens

/-- Redirecting the local references of a text, for a handler that keeps a state and may fail. The
references stand at byte ranges one after the other. Either the handler answers for each in turn, and
the result is the text with the answers in these ranges; when the answers are tokens, another scan
finds them as its targets and the same pieces around them. Or a call fails, and its fault and the
state it leaves are the result. -/
theorem redirect_splices {ε σ : Type} (handle : List Char → ExceptT ε (StateM σ) (List Char))
    (html : List Char) (s : σ) :
    Laid (octets html) (spans html) (targets html) ∧
    ((∃ answers s' out, Answered handle (targets html) s answers s' ∧
        (redirect handle html).run.run s = (.ok out, s') ∧
        octets out = splice (octets html) 0 ((spans html).zip (answers.map octets)) ∧
        ((∀ answer ∈ answers, ∃ origin, answer = (Token.ofOrigin origin).text.toList) →
          targets out = answers ∧ scan out = refill (scan html) answers)) ∨
      ∃ e s', Failed handle (targets html) s e s' ∧
        (redirect handle html).run.run s = (.error e, s')) := by
  refine ⟨laid_spans html, ?_⟩
  rcases redirectPieces_run handle (scan html) s with
    ⟨answers, s', hanswered, hrun⟩ | ⟨e, s', hfailed, hrun⟩
  · have hlength := hanswered.length_eq
    refine .inl ⟨answers, s', _, hanswered, hrun, ?_, fun htokens => ?_⟩
    · have h := splice_spansFrom hlength [] le_rfl
      rw [List.nil_append, scan_chars] at h
      exact h.symm
    · have hlike : ∀ answer ∈ answers,
          answer ≠ [] ∧ ∀ c ∈ answer, Token.isTokenChar c = true := by
        intro answer hanswer
        obtain ⟨origin, rfl⟩ := htokens answer hanswer
        refine ⟨List.ne_nil_of_length_pos ?_, Token.isTokenChar_ofOrigin origin⟩
        rw [Token.length_ofOrigin]
        decide
      obtain ⟨out, hout, hscan, -⟩ := scanFrom_exchanged (exchanged_refill hlike (scan html))
      rw [hout, List.reverse_nil, List.nil_append]
      have hscan : scan out = refill (scan html) answers := hscan
      exact ⟨(congrArg targetsOf hscan).trans (targetsOf_refill hlength hlike), hscan⟩
  · exact .inr ⟨e, s', hfailed, hrun⟩

end Bindery.Html.Reference
