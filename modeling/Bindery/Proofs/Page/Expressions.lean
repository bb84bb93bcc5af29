import Bindery.Proofs.Html.LocalTarget
import Bindery.Proofs.Html.Redirection
import Bindery.Proofs.Project.Tracking

/-! The references of a page's template that hold an expression. The scan for files comes before the
template is filled in, and goes by the front of a reference: an expression is evaluated when a scheme,
a host, a query or a fragment comes before it, and is taken for the name of a file otherwise. -/

namespace Bindery

namespace Html.Reference

/-- What a reference is not a file for: a scheme or a host, or no path before a query or fragment. -/
inductive Remote : List Char → Prop where
  | scheme {href : List Char} (h : hasScheme href = true) : Remote href
  | host (cs : List Char) : Remote ('/' :: '/' :: cs)
  | suffix {href : List Char} (h : IsSuffix href) : Remote href

theorem head_splitBody {body before value : List Char} (h : splitBody body = some (before, value)) :
    ∃ c cs, value = c :: cs ∧ Text.isBlank c = false := by
  unfold splitBody at h
  split at h
  · next found core hfound =>
    obtain ⟨-, -, -, htrimmed⟩ := Text.exists_trim core
    dsimp only at h
    cases hcore : Text.trim core with
    | nil =>
      rw [hcore] at h
      cases h
    | cons c cs =>
      rw [hcore] at h htrimmed
      cases h
      exact ⟨c, cs, rfl, htrimmed.head c rfl⟩
  · cases h

/-- No value in markup begins with a blank. -/
theorem head_of_mem_scanFrom {kept html value : List Char}
    (h : Piece.value value ∈ scanFrom kept html) : ∃ c cs, value = c :: cs ∧ Text.isBlank c = false := by
  induction kept, html using scan_induction with
  | nil kept =>
    rw [scanFrom_nil] at h
    cases List.mem_singleton.1 h
  | char kept c cs hc ih =>
    rw [scanFrom_cons hc] at h
    exact ih h
  | closed kept cs htag ih =>
    rw [scanFrom_closed htag] at h
    exact ih h
  | passed kept cs blanks name body rest hopens hbody ih =>
    rw [scanFrom_passed hopens hbody] at h
    exact ih h
  | found kept cs blanks name body rest before first after hopens hbody hparts ih =>
    rw [scanFrom_found hopens hbody hparts] at h
    rcases List.mem_cons.1 h with heq | h
    · cases heq
    · rcases List.mem_cons.1 h with heq | h
      · cases heq
        exact head_splitBody hbody
      · exact ih h

/-- A reference that does not begin with a blank is no file exactly when it is remote. -/
theorem localTarget_eq_none_iff {c : Char} {cs : List Char} (hc : Text.isBlank c = false)
    (hlone : c :: cs ≠ ['/']) : localTarget (c :: cs) = none ↔ Remote (c :: cs) := by
  by_cases hmark : c = '?' ∨ c = '#'
  · have hnone : localTarget (c :: cs) = none := by
      have hstrip : stripSuffix (c :: cs) = [] := by
        rcases hmark with rfl | rfl <;> rfl
      unfold localTarget
      rw [hstrip]
      split <;> rfl
    exact iff_of_true hnone (.suffix ⟨c, cs, rfl, hmark⟩)
  · rw [not_or] at hmark
    have hlocal : isLocal (c :: cs) = true ↔
        (c = '/' → ∃ d more, cs = d :: more ∧ d ≠ '/') ∧ hasScheme (c :: cs) = false :=
      isLocal_iff hmark.1 hmark.2
    constructor
    · intro hnone
      by_contra hremote
      have hfile : isLocal (c :: cs) = true := by
        refine hlocal.2 ⟨?_, Bool.eq_false_iff.2 fun h => hremote (.scheme h)⟩
        rintro rfl
        cases cs with
        | nil => exact absurd rfl hlone
        | cons d more =>
          refine ⟨d, more, rfl, ?_⟩
          rintro rfl
          exact hremote (.host more)
      have hstrip : stripSuffix (c :: cs) = c :: stripSuffix cs :=
        List.takeWhile_cons_of_pos (by simp [hmark])
      obtain ⟨v, hcut, hv, -⟩ := Text.exists_trim (c :: stripSuffix cs)
      rw [List.takeWhile_cons_of_neg (by simp [hc]), List.nil_append] at hcut
      have hne : Text.trim (c :: stripSuffix cs) ≠ [] := by
        intro hempty
        rw [hempty, List.nil_append] at hcut
        have hblank := hv c (hcut ▸ List.mem_cons_self)
        rw [hc] at hblank
        cases hblank
      rw [localTarget_eq_some_iff.2 ⟨hfile, rfl, by rw [hstrip]; exact hne⟩] at hnone
      cases hnone
    · intro hremote
      have hfile : isLocal (c :: cs) = false := by
        rw [Bool.eq_false_iff, Ne, hlocal]
        rintro ⟨hslash, hscheme⟩
        cases hremote with
        | scheme h => exact absurd (hscheme.symm.trans h) nofun
        | host more =>
          obtain ⟨d, more', heq, hd⟩ := hslash rfl
          cases heq
          exact hd rfl
        | suffix h =>
          obtain ⟨d, more, heq, hd⟩ := h
          cases heq
          exact hd.elim hmark.1 hmark.2
      unfold localTarget
      rw [hfile]
      rfl

end Html.Reference

namespace Layout

open Html.Reference Template

/-- An expression opens in a text and closes. -/
def HoldsExpression (cs : List Char) : Prop :=
  ∃ front inner back, cs = front ++ (Marks.outputOpen ++ (inner ++ (Marks.outputClose ++ back)))

theorem holdsExpression_iff {cs : List Char} : HoldsExpression cs ↔
    ∃ rest ∈ cs.tails, Marks.outputOpen <+: rest ∧ Marks.outputClose <:+: rest.drop 2 := by
  constructor
  · rintro ⟨front, inner, back, rfl⟩
    refine ⟨_, (List.mem_tails _ _).2 (List.suffix_append front _), List.prefix_append _ _, ?_⟩
    exact ⟨inner, back, List.append_assoc _ _ _⟩
  · rintro ⟨rest, hrest, ⟨more, rfl⟩, ⟨inner, back, hmore⟩⟩
    obtain ⟨front, rfl⟩ := (List.mem_tails _ _).1 hrest
    have hmore : inner ++ (Marks.outputClose ++ back) = more :=
      (List.append_assoc _ _ _).symm.trans hmore
    exact ⟨front, inner, back, by rw [hmore]⟩

instance (cs : List Char) : Decidable (HoldsExpression cs) :=
  decidable_of_iff _ holdsExpression_iff.symm

/-- The file that a piece of a template names when its expressions are left to the template. -/
def asset? : Piece → Option (List Char)
  | .text _ => none
  | .value cs => if HoldsExpression cs then none else localTarget cs

/-- A piece of a template, with a token in the place of the file it names. -/
def tokened (base : Path) (found : Piece → Option (List Char)) (p : Piece) : List Char :=
  match found p with
  | some target => (Token.ofOrigin (base.resolve ⟨String.ofList target⟩).text).text.toList
  | none => p.chars

/-- The template with tokens for what is found in it. -/
def templateOf (l : Layout) (root : Path) (found : Piece → Option (List Char)) : List Char :=
  (scan l.template.toList).flatMap (tokened (l.dir.getD root) found)

/-- The origins of what is found in the template. -/
def originsOf (l : Layout) (root : Path) (found : Piece → Option (List Char)) : List String :=
  ((scan l.template.toList).filterMap found).map fun target =>
    ((l.dir.getD root).resolve ⟨String.ofList target⟩).text

/-- The page is the template filled in, with tokens for what is found in it, and that is registered. -/
def Renders (l : Layout) (root : Path) (found : Piece → Option (List Char)) : Prop :=
  ∀ content headings data r s, ∃ events,
    (l.render content headings data r root).run.run s =
      (((fill (l.templateOf root found) content.toList headings data).map String.ofList).mapError
        Failure.template, { s with session := { s.session with
          store := s.session.store.registerAll r (l.originsOf root found)
          events := events } })

theorem run_redirectPieces_eq (base : Path) (pieces : List Piece) (r : RegistryId) (store : Store) :
    (redirectPieces (tokenFor base r) pieces).run store =
      (pieces.flatMap (tokened base Piece.target?),
        store.registerAll r ((pieces.filterMap Piece.target?).map fun target =>
          (base.resolve ⟨String.ofList target⟩).text)) := by
  induction pieces generalizing store with
  | nil => rfl
  | cons p pieces ih =>
    have hkept : ∀ cs : List Char, (do
          let out ← redirectPieces (tokenFor base r) pieces
          return cs ++ out : StateM Store (List Char)).run store =
        (cs ++ pieces.flatMap (tokened base Piece.target?),
          store.registerAll r ((pieces.filterMap Piece.target?).map fun target =>
            (base.resolve ⟨String.ofList target⟩).text)) := fun cs =>
      congrArg (fun q : List Char × Store => (cs ++ q.1, q.2)) (ih store)
    cases p with
    | text cs => exact hkept cs
    | value cs =>
      simp only [redirectPieces, List.filterMap_cons, List.flatMap_cons, tokened, Piece.target?]
      cases localTarget cs with
      | none => exact hkept cs
      | some target =>
        have htoken := store.token_register r (base.resolve ⟨String.ofList target⟩).text none
        have hrest := ih (store.register r (base.resolve ⟨String.ofList target⟩).text none).1
        dsimp only
        rw [← htoken]
        exact congrArg (fun q : List Char × Store => (_ ++ q.1, q.2)) hrest

theorem renders_target? (l : Layout) (root : Path) : l.Renders root Piece.target? := by
  intro content headings data r s
  obtain ⟨new, hregister⟩ := Work.run_register (l.withTokens r root).run s
  have htokens : (l.withTokens r root).run s.session.store =
      (l.templateOf root Piece.target?,
        s.session.store.registerAll r (l.originsOf root Piece.target?)) :=
    run_redirectPieces_eq _ _ r _
  rw [htokens] at hregister
  refine ⟨s.session.events ++ new.map fun asset =>
    .logged .debug ("register " ++ asset.source.text ++ " as " ++ asset.token.text), ?_⟩
  unfold render
  rw [run_bind_ok hregister]
  cases fill (l.templateOf root Piece.target?) content.toList headings data <;> rfl

theorem count_eq_of_flatMap_eq {α : Type} {f g : α → List Char} {l : List α} {c : Char}
    (hle : ∀ a ∈ l, (f a).count c ≤ (g a).count c) (h : l.flatMap f = l.flatMap g) :
    ∀ a ∈ l, (f a).count c = (g a).count c := by
  have hsum : ∀ l : List α, (∀ a ∈ l, (f a).count c ≤ (g a).count c) →
      (l.flatMap f).count c ≤ (l.flatMap g).count c := by
    intro l hl
    induction l with
    | nil => exact Nat.le_refl _
    | cons a l ih =>
      rw [List.flatMap_cons, List.flatMap_cons, List.count_append, List.count_append]
      exact Nat.add_le_add (hl a List.mem_cons_self) (ih fun b hb => hl b (List.mem_cons_of_mem a hb))
  have htotal := congrArg (List.count c) h
  intro a ha
  obtain ⟨before, after, rfl⟩ := List.append_of_mem ha
  simp only [List.flatMap_append, List.flatMap_cons, List.count_append] at htotal
  have hbefore := hsum before fun b hb => hle b (List.mem_append_left _ hb)
  have hafter := hsum after fun b hb => hle b (List.mem_append_right _ (List.mem_cons_of_mem a hb))
  have hmiddle := hle a ha
  omega

/-- No brace stands in a token. -/
theorem count_tokened {base : Path} {found : Piece → Option (List Char)} {p : Piece}
    {target : List Char} (h : found p = some target) :
    (tokened base found p).count '\x7b' = 0 := by
  rw [tokened, h]
  refine List.count_eq_zero.2 fun hmem => ?_
  exact absurd (Token.isTokenChar_ofOrigin _ _ hmem) (by decide)

theorem HoldsExpression.count_pos {cs : List Char} (h : HoldsExpression cs) :
    0 < cs.count '\x7b' := by
  obtain ⟨front, inner, back, rfl⟩ := h
  refine List.count_pos_iff.2 (List.mem_append_right front ?_)
  exact List.mem_append_left _ List.mem_cons_self

theorem asset?_eq_target? {p : Piece} (h : ∀ cs, p = .value cs → HoldsExpression cs →
    localTarget cs = none) : asset? p = p.target? := by
  cases p with
  | text cs => rfl
  | value cs =>
    by_cases hexpression : HoldsExpression cs
    · exact (if_pos hexpression).trans (h cs rfl hexpression).symm
    · exact if_neg hexpression

/-- The expressions of a template that stand in references are evaluated, and no asset is registered for
them, exactly when each of these references is remote by what comes before the expression. -/
theorem render_evaluates_iff (l : Layout) (root : Path) :
    l.Renders root Piece.target? ∧
      (l.templateOf root Piece.target? = l.templateOf root asset? ∧
          l.originsOf root Piece.target? = l.originsOf root asset? ↔
        ∀ cs, Piece.value cs ∈ scan l.template.toList → HoldsExpression cs → Remote cs) := by
  refine ⟨l.renders_target? root, ?_⟩
  have hremote : ∀ cs, Piece.value cs ∈ scan l.template.toList → HoldsExpression cs →
      (localTarget cs = none ↔ Remote cs) := by
    intro cs hcs hexpression
    obtain ⟨c, cs, rfl, hc⟩ := head_of_mem_scanFrom hcs
    refine localTarget_eq_none_iff hc ?_
    intro hlone
    rw [hlone] at hexpression
    exact absurd hexpression.count_pos (by decide)
  constructor
  · rintro ⟨htemplate, -⟩ cs hcs hexpression
    refine (hremote cs hcs hexpression).1 ?_
    -- A token for the reference would have taken its braces away, and nothing else adds any.
    by_contra hlocal
    obtain ⟨target, htarget⟩ := Option.ne_none_iff_exists'.1 hlocal
    have hle : ∀ p ∈ scan l.template.toList,
        (tokened (l.dir.getD root) Piece.target? p).count '\x7b' ≤
          (tokened (l.dir.getD root) asset? p).count '\x7b' := by
      intro p _
      cases hp : p.target? with
      | some target' =>
        rw [count_tokened hp]
        exact Nat.zero_le _
      | none =>
        have hasset : asset? p = none := by
          rw [asset?_eq_target? fun cs heq _ => by rw [heq] at hp; exact hp, hp]
        rw [tokened, tokened, hp, hasset]
    have hcount := count_eq_of_flatMap_eq hle htemplate (.value cs) hcs
    have hnone : asset? (.value cs) = none := if_pos hexpression
    rw [count_tokened (p := .value cs) htarget, tokened, hnone] at hcount
    exact hexpression.count_pos.ne hcount
  · intro h
    have hsame : ∀ p ∈ scan l.template.toList, Piece.target? p = asset? p := by
      intro p hp
      refine (asset?_eq_target? fun cs heq hexpression => ?_).symm
      rw [heq] at hp
      exact (hremote cs hp hexpression).2 (h cs hp hexpression)
    unfold templateOf originsOf
    rw [List.filterMap_congr hsame]
    refine ⟨?_, rfl⟩
    refine List.flatMap_congr fun p hp => ?_
    rw [tokened, tokened, hsame p hp]

example : localTarget "\x7b\x7b url \x7d\x7d".toList = some "\x7b\x7b url \x7d\x7d".toList ∧
    asset? (.value "\x7b\x7b url \x7d\x7d".toList) = none := by decide

end Layout
end Bindery
