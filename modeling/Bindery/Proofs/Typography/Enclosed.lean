import Bindery.Proofs.Text.Trim
import Bindery.Proofs.Typography.Alignment

/-! Typographic punctuation in tags and comments. The walk takes a tag to end at the next `>`, also where
that one stands in a quoted value or in a comment, and goes on behind it as in text. So a tag or comment
keeps what it says exactly when nothing stirs in the open of what is left of it, and that is, where no
further `<` is in it, when it holds no `>` or its content is verbatim. -/

namespace Bindery.Html.Typography

/-- The inside of a tag with quoted values: no quote and no angle bracket stands outside of the values,
and anything but its own quotes in a value. -/
inductive TagBody : List Char → Prop where
  | nil : TagBody []
  | char {c : Char} {rest : List Char} (hc : c ∉ ['\x22', '\x27', '<', '>']) (hrest : TagBody rest) :
    TagBody (c :: rest)
  | value {q : Char} {text rest : List Char} (hq : q = '\x22' ∨ q = '\x27') (htext : q ∉ text)
    (hrest : TagBody rest) : TagBody (q :: (text ++ q :: rest))

inductive Enclosure where
  | tag (body : List Char) (hbody : TagBody body)
  | comment (body : List Char) (hbody : ¬"-->".toList <:+: body)

namespace Enclosure

/-- What stands between the outer angle brackets. -/
def inside : Enclosure → List Char
  | tag body _ => body
  | comment body _ => "!--".toList ++ body ++ "--".toList

def chars (e : Enclosure) : List Char := '<' :: e.inside ++ ['>']

end Enclosure

/-- Markup is made of text, tags and comments. -/
inductive Piece where
  | text (cs : List Char) (hcs : '<' ∉ cs)
  | enclosed (e : Enclosure)

def Piece.chars : Piece → List Char
  | text cs _ => cs
  | enclosed e => e.chars

def markup (pieces : List Piece) : List Char := pieces.flatMap Piece.chars

theorem TagBody.chars {u rest : List Char} (hu : ∀ c ∈ u, c ∉ ['\x22', '\x27', '<', '>'])
    (hrest : TagBody rest) : TagBody (u ++ rest) := by
  induction u with
  | nil => exact hrest
  | cons c u ih => exact .char (hu c List.mem_cons_self) (ih fun d hd => hu d (List.mem_cons_of_mem _ hd))

section Stirring

variable {c : Char} {u v w : List Char}

/-- A value that holds the end of a tag is closed by a quote behind it. -/
theorem TagBody.exists_quote (h : TagBody (u ++ '>' :: v)) :
    ∃ x q y, (q = '\x22' ∨ q = '\x27') ∧ v = x ++ q :: y := by
  generalize hcs : u ++ '>' :: v = cs at h
  induction h generalizing u with
  | nil => simp at hcs
  | char hc _ ih =>
    cases u with
    | nil =>
      obtain ⟨rfl, -⟩ := List.cons.inj hcs
      exact absurd hc (by decide)
    | cons d u => exact ih (List.cons.inj hcs).2
  | @value q text rest hq htext _ ih =>
    have hend : q ≠ '>' := by rcases hq with rfl | rfl <;> decide
    cases u with
    | nil => exact absurd (List.cons.inj hcs).1.symm hend
    | cons d u =>
      -- the bracket is in this value, or behind its end
      rcases List.append_eq_append_iff.1 (List.cons.inj hcs).2 with ⟨x, htext, hx⟩ | ⟨x, hu, hx⟩
      · cases x with
        | nil => exact absurd (List.cons.inj hx).1.symm hend
        | cons e x => exact ⟨x, q, rest, hq, (List.cons.inj hx).2⟩
      · cases x with
        | nil => exact absurd (List.cons.inj hx).1 hend
        | cons e x => exact ih (List.cons.inj hx).2.symm

theorem suffix_of_not_mem (h : w <:+ u ++ c :: v) (hc : c ∉ w) : w <:+ v := by
  obtain ⟨x, hx⟩ := h
  rcases List.append_eq_append_iff.1 hx with ⟨y, -, rfl⟩ | ⟨y, -, hy⟩
  · exact absurd (by simp) hc
  · cases y with
    | nil => exact absurd (by rw [← List.nil_append w, ← hy]; exact List.mem_cons_self) hc
    | cons d y => exact ⟨y, (List.cons.inj hy).2.symm⟩

/-- Something stirs behind each `>` that stands inside. -/
theorem Enclosure.exists_stirs (e : Enclosure) (h : e.inside = u ++ '>' :: v) :
    ∃ x y, v = x ++ y ∧ Stirs y := by
  cases e with
  | tag body hbody =>
    have hbody : TagBody (u ++ '>' :: v) := h ▸ hbody
    obtain ⟨x, q, y, hq, rfl⟩ := hbody.exists_quote
    refine ⟨x, q :: y, rfl, [q], ?_, ⟨y, rfl⟩⟩
    rcases hq with rfl | rfl <;> decide
  | comment body hbody =>
    -- the dashes that end the comment
    have hsuffix : "--".toList <:+ u ++ '>' :: v := ⟨"!--".toList ++ body, h⟩
    obtain ⟨x, rfl⟩ := suffix_of_not_mem hsuffix (by decide)
    exact ⟨x, "--".toList, rfl, by decide⟩

end Stirring

section Placing

variable {p : Place} {cs inner rest : List Char}

theorem Place.atRest_of_tag {tag : List Char} (hp : p.tag = some tag) (h : '>' ∉ inner)
    (rest : List Char) : p.AtRest (inner ++ '>' :: rest) ↔
      (p.through (inner ++ ['>'])).AtRest rest := by
  have hclosed : ∀ {p : Place} {tag : List Char}, p.tag = some tag → ¬p.Open := by
    intro p tag hp hopen
    rw [hopen.tag] at hp
    cases hp
  induction inner generalizing p tag with
  | nil =>
    rw [List.nil_append, atRest_cons]
    exact and_iff_right fun hopen => absurd hopen (hclosed hp)
  | cons c inner ih =>
    rw [List.mem_cons, not_or] at h
    have hstep : (p.step c).tag = some (c :: tag) := by
      unfold step
      rw [hp]
      exact congrArg Place.tag (if_neg (Ne.symm h.1))
    rw [List.cons_append, atRest_cons]
    exact (and_iff_right fun hopen => absurd hopen (hclosed hp)).trans (ih hstep h.2)

theorem Place.atRest_whole (hp : p.tag = none) (h : '>' ∉ inner) (rest : List Char) :
    p.AtRest ('<' :: (inner ++ '>' :: rest)) ↔
      (⟨depthAfter p.depth (inner ++ ['>']), none⟩ : Place).AtRest rest := by
  have hstep : p.step '<' = ⟨p.depth, some []⟩ := by
    unfold step
    rw [hp]
    exact if_pos rfl
  have hstill : ¬Stirs ('<' :: (inner ++ '>' :: rest)) := fun hstirs =>
    absurd (Stirs.head hstirs) (by decide)
  rw [atRest_cons, hstep, atRest_of_tag rfl h, through_of_tag rfl h]
  exact and_iff_right fun _ => hstill

theorem Place.atRest_text (hp : p.tag = none) (hcs : '<' ∉ cs) :
    p.AtRest cs ↔ 0 < p.depth ∨ ∀ u v, cs = u ++ v → ¬Stirs v := by
  have hthrough : ∀ u v, cs = u ++ v → p.through u = p := by
    rintro u v rfl
    exact through_of_text hp fun hmem => hcs (List.mem_append_left v hmem)
  by_cases hdepth : 0 < p.depth
  · refine iff_of_true (fun u v h hopen => ?_) (.inl hdepth)
    rw [hthrough u v h] at hopen
    exact absurd hopen.depth (Nat.ne_of_gt hdepth)
  · have hopen : p.Open := ⟨hp, Nat.eq_zero_of_not_pos hdepth⟩
    simp only [hdepth, false_or]
    refine ⟨fun h u v heq => h u v heq ?_, fun h u v heq _ => h u v heq⟩
    rwa [hthrough u v heq]

theorem tag_through_markup (pieces : List Piece) (hp : p.tag = none) :
    (p.through (markup pieces)).tag = none := by
  induction pieces generalizing p with
  | nil => exact hp
  | cons piece pieces ih =>
    rw [markup, List.flatMap_cons, Place.through_append]
    apply ih
    cases piece with
    | text cs hcs => rw [Piece.chars, Place.through_of_text hp hcs, hp]
    | enclosed e => exact Place.tag_through_close ('<' :: e.inside)

/-- Whether a tag or comment is at rest is told by what is behind the first `>` in it. -/
theorem Enclosure.atRest_iff (e : Enclosure) (hp : p.tag = none) (hopen : '<' ∉ e.inside) :
    p.AtRest e.chars ↔ '>' ∉ e.inside ∨
      0 < depthAfter p.depth (e.inside.takeWhile (· != '>') ++ ['>']) := by
  by_cases hclose : '>' ∈ e.inside
  · obtain ⟨u, v, hinside, hu⟩ := List.eq_append_cons_of_mem hclose
    have hchars : e.chars = '<' :: (u ++ '>' :: (v ++ ['>'])) := by simp [chars, hinside]
    have htake : e.inside.takeWhile (· != '>') = u := by
      rw [hinside, Text.takeWhile_bne hu]
    have hv : '<' ∉ v ++ ['>'] := by
      rw [hinside] at hopen
      simp only [List.mem_append, List.mem_cons, not_or] at hopen
      simp [hopen.2.2]
    obtain ⟨x, y, rfl, hstirs⟩ := e.exists_stirs hinside
    have hmoves : ¬∀ u v, x ++ y ++ ['>'] = u ++ v → ¬Stirs v := fun h =>
      h x (y ++ ['>']) (List.append_assoc ..) (hstirs.append ['>'])
    rw [hchars, Place.atRest_whole hp hu, Place.atRest_text rfl hv, htake]
    exact (or_iff_left hmoves).trans (or_iff_right (not_not_intro hclose)).symm
  · have hchars : e.chars = '<' :: (e.inside ++ '>' :: []) := rfl
    rw [hchars, Place.atRest_whole hp hclose]
    exact iff_of_true Place.atRest_nil (.inl hclose)

end Placing

theorem parted_of_begins (u : List Char) {v : List Char} (h : ∀ c ∈ v.head?, c = '<') : Parted u v := by
  intro c _ hc
  obtain rfl := h c hc
  decide

theorem parted_of_ends (u v : List Char) : Parted (u ++ ['>']) v := by
  intro c hc _
  rw [List.getLast?_concat] at hc
  obtain rfl := Option.mem_some.1 hc
  decide

/-- In markup each tag and comment is written on its own, and as it is exactly when nothing in it stirs
in the open: where it holds no `<`, when it holds no `>` or what is behind that is verbatim. -/
theorem educateMarkup_enclosed (front : List Piece) (e : Enclosure) (back : List Piece) :
    let s := State.after {} (markup front)
    let written := walk 0 s e.chars
    educateMarkup (markup (front ++ .enclosed e :: back)) =
      educateMarkup (markup front) ++ (written ++ walk 0 (s.after e.chars) (markup back)) ∧
    (written = e.chars ↔ s.place.AtRest e.chars) ∧
    ('<' ∉ e.inside → (written = e.chars ↔
      '>' ∉ e.inside ∨ 0 < depthAfter s.depth (e.inside.takeWhile (· != '>') ++ ['>']))) := by
  intro s written
  have hmarkup : markup (front ++ .enclosed e :: back) =
      markup front ++ (e.chars ++ markup back) := by
    simp [markup, Piece.chars]
  have htag : s.place.tag = none := tag_through_markup front rfl
  refine ⟨?_, walk_eq_self_iff, fun hopen => ?_⟩
  · have hself : walk 0 s (e.chars ++ markup back) =
        written ++ walk 0 (s.after e.chars) (markup back) :=
      walk_append s (parted_of_ends ('<' :: e.inside) _)
    rw [hmarkup, educateMarkup_eq_walk, educateMarkup_eq_walk, ← hself]
    exact walk_append _ (parted_of_begins _ (by rintro c ⟨⟩; rfl))
  · rw [walk_eq_self_iff]
    exact e.atRest_iff htag hopen

/-- An anchor with a title in which a `>` stands. -/
def captioned : Enclosure :=
  .tag ("a title=".toList ++ '\x22' :: ("x > -- y".toList ++ ['\x22']))
    (.chars (by simp) (.value (.inl rfl) (by simp) .nil))

def remark : Enclosure := .comment " a > b ".toList (by
  rw [← Text.hasInfix_iff]
  decide)

/-- Dashes and quotes behind a `>` are respelled in a value, and a comment loses its end. -/
theorem educateMarkup_enclosed_captioned :
    walk 0 (State.after {} (markup [])) captioned.chars ≠ captioned.chars ∧
    walk 0 (State.after {} (markup [])) remark.chars ≠ remark.chars := by
  have hcaptioned := (educateMarkup_enclosed [] captioned []).2.2 (by decide)
  have hremark := (educateMarkup_enclosed [] remark []).2.2 (by decide)
  exact ⟨hcaptioned.not.2 (by decide), hremark.not.2 (by decide)⟩

end Bindery.Html.Typography
