import Bindery.Html.Typography
import Mathlib.Data.List.TakeWhile

/-! Typographic punctuation character by character. Where a character stands, inside a tag or how deep
in verbatim elements, is told from the characters before it alone, and only in the open, outside of
both, is anything respelled. So markup is written as it is exactly when nothing that is respelled begins
at a place in the open, and it may be written part by part wherever no run of marks is cut. -/

namespace Bindery.Html.Typography

/-- How deep in verbatim elements a character stands and, inside a tag, the characters of the tag before
it, the latest first. -/
structure Place where
  depth : Nat := 0
  tag : Option (List Char) := none
  deriving Repr, DecidableEq

namespace Place

def step (p : Place) (c : Char) : Place :=
  match p.tag with
  | some tag =>
    if c = '>' then ⟨depthAfter p.depth (c :: tag).reverse, none⟩ else ⟨p.depth, some (c :: tag)⟩
  | none => if c = '<' then ⟨p.depth, some []⟩ else p

def through (p : Place) (cs : List Char) : Place := cs.foldl step p

/-- Outside of tags and of verbatim elements. -/
structure Open (p : Place) : Prop where
  tag : p.tag = none
  depth : p.depth = 0

instance (p : Place) : Decidable p.Open :=
  decidable_of_iff (p.tag = none ∧ p.depth = 0) ⟨fun h => ⟨h.1, h.2⟩, fun h => ⟨h.1, h.2⟩⟩

theorem through_append (p : Place) (u v : List Char) :
    p.through (u ++ v) = (p.through u).through v := List.foldl_append

theorem step_of_ne {p : Place} (hp : p.tag = none) {c : Char} (hc : c ≠ '<') : p.step c = p := by
  unfold step
  rw [hp]
  exact if_neg hc

theorem through_of_text {p : Place} (hp : p.tag = none) {cs : List Char} (hcs : '<' ∉ cs) :
    p.through cs = p := by
  induction cs with
  | nil => rfl
  | cons c cs ih =>
    rw [List.mem_cons, not_or] at hcs
    show (p.step c).through cs = p
    rw [step_of_ne hp (Ne.symm hcs.1), ih hcs.2]

theorem through_of_tag {p : Place} {tag : List Char} (hp : p.tag = some tag) {inner : List Char}
    (h : '>' ∉ inner) :
    p.through (inner ++ ['>']) = ⟨depthAfter p.depth (tag.reverse ++ inner ++ ['>']), none⟩ := by
  induction inner generalizing p tag with
  | nil =>
    show p.step '>' = _
    unfold step
    rw [hp]
    simp
  | cons c inner ih =>
    rw [List.mem_cons, not_or] at h
    have hstep : p.step c = ⟨p.depth, some (c :: tag)⟩ := by
      unfold step
      rw [hp]
      exact if_neg (Ne.symm h.1)
    show (p.step c).through (inner ++ ['>']) = _
    rw [hstep, ih rfl h.2]
    simp

theorem tag_through_close {p : Place} (u : List Char) : (p.through (u ++ ['>'])).tag = none := by
  rw [through_append]
  show ((p.through u).step '>').tag = none
  unfold step
  split
  · rfl
  · next h => exact h

end Place

/-- What is respelled, and how. -/
inductive Respells : List Char → Char → Prop where
  | dash : Respells ['-', '-', '-'] '\u2014'
  | range : Respells ['-', '-'] '\u2013'
  | dots : Respells ['.', '.', '.'] '\u2026'
  | double {mark : Char} (h : mark = '\u201c' ∨ mark = '\u201d') : Respells ['\x22'] mark
  | single {mark : Char} (h : mark = '\u2018' ∨ mark = '\u2019') : Respells ['\x27'] mark

/-- The shortest texts that are respelled in the open. -/
def runs : List (List Char) := [['-', '-'], ['.', '.', '.'], ['\x22'], ['\x27']]

/-- What runs are made of. -/
def strokes : List Char := ['-', '.', '\x22', '\x27']

theorem mem_strokes_iff {c : Char} :
    c ∈ strokes ↔ c = '-' ∨ c = '.' ∨ c = '\x22' ∨ c = '\x27' := by
  simp [strokes]

/-- Something that is respelled in the open begins here. -/
def Stirs (cs : List Char) : Prop := ∃ run ∈ runs, run <+: cs

instance (cs : List Char) : Decidable (Stirs cs) :=
  inferInstanceAs (Decidable (∃ run ∈ runs, run <+: cs))

section Educating

variable {run cs : List Char} {mark : Char}

theorem Respells.stirs (h : Respells run mark) (rest : List Char) : Stirs (run ++ rest) := by
  cases h with
  | dash => exact ⟨['-', '-'], by decide, ⟨'-' :: rest, rfl⟩⟩
  | range => exact ⟨['-', '-'], by decide, ⟨rest, rfl⟩⟩
  | dots => exact ⟨['.', '.', '.'], by decide, ⟨rest, rfl⟩⟩
  | double => exact ⟨['\x22'], by decide, ⟨rest, rfl⟩⟩
  | single => exact ⟨['\x27'], by decide, ⟨rest, rfl⟩⟩

theorem Respells.ne_nil (h : Respells run mark) : run ≠ [] := by
  cases h <;> exact List.cons_ne_nil _ _

theorem Respells.mem_strokes (h : Respells run mark) : ∀ c ∈ run, c ∈ strokes := by
  cases h <;> simp [strokes]

theorem Respells.not_mem (h : Respells run mark) : '<' ∉ run := fun hmem =>
  absurd (h.mem_strokes _ hmem) (by decide)

/-- The signs that are written for runs. -/
def marks : List Char := "\u2014\u2013\u2026\u201c\u201d\u2018\u2019".toList

theorem Respells.mem_marks (h : Respells run mark) : mark ∈ marks := by
  cases h with
  | double h | single h => rcases h with rfl | rfl <;> decide
  | _ => decide

theorem not_mem_marks_of_mem_strokes {c : Char} (h : c ∈ strokes) : c ∉ marks := by
  rcases mem_strokes_iff.1 h with rfl | rfl | rfl | rfl <;> decide

theorem mem_strokes_of_mem_runs : ∀ run ∈ runs, ∀ c ∈ run, c ∈ strokes := by
  simp [runs, strokes]

theorem not_stirs_nil : ¬Stirs [] := by decide

theorem Stirs.head {c : Char} (h : Stirs (c :: cs)) : c ∈ strokes := by
  obtain ⟨run, hrun, more, hmore⟩ := h
  have hne : ∀ run ∈ runs, run ≠ [] := by decide
  obtain ⟨d, run, rfl⟩ := List.exists_cons_of_ne_nil (hne run hrun)
  obtain ⟨rfl, -⟩ := List.cons.inj hmore
  exact mem_strokes_of_mem_runs (d :: run) hrun d List.mem_cons_self

theorem Stirs.append {u : List Char} (h : Stirs u) (v : List Char) : Stirs (u ++ v) := by
  obtain ⟨run, hrun, hbegins⟩ := h
  exact ⟨run, hrun, hbegins.trans (List.prefix_append u v)⟩

theorem not_stirs_of_mem_marks (h : mark ∈ marks) (rest : List Char) : ¬Stirs (mark :: rest) :=
  fun hstirs => not_mem_marks_of_mem_strokes hstirs.head h

/-- A character of the text is written as it is, or a run of marks that begins with it is respelled. -/
theorem educate_cases (last : Option Char) (c : Char) (cs : List Char) :
    (educate last c cs = (c, 0) ∧ ¬Stirs (c :: cs)) ∨
    ∃ run mark rest, Respells run mark ∧ c :: cs = run ++ rest ∧
      educate last c cs = (mark, run.length - 1) := by
  unfold educate
  split
  · next rest => exact .inr ⟨_, _, rest, .dash, rfl, rfl⟩
  · next rest _ => exact .inr ⟨_, _, rest, .range, rfl, rfl⟩
  · next rest => exact .inr ⟨_, _, rest, .dots, rfl, rfl⟩
  · refine .inr ⟨_, _, cs, .double ?_, rfl, rfl⟩
    cases opensQuote last <;> simp
  · refine .inr ⟨_, _, cs, .single ?_, rfl, rfl⟩
    cases opensQuote last <;> simp
  · next hdouble hsingle _ hrange hdots =>
    refine .inl ⟨rfl, ?_⟩
    rintro ⟨run, hrun, rest, hrest⟩
    simp only [runs, List.mem_cons, List.not_mem_nil, or_false] at hrun
    rcases hrun with rfl | rfl | rfl | rfl <;> cases hrest
    · exact hrange rest rfl rfl
    · exact hdots rest rfl rfl
    · exact hdouble rfl
    · exact hsingle rfl

end Educating

namespace State

def place (s : State) : Place := ⟨s.depth, s.tag⟩

/-- What is written for the first character of a text, and how many behind it are taken in. -/
def spell (s : State) (c : Char) (cs : List Char) : Char × Nat :=
  if s.place.Open then educate s.last c cs else (c, 0)

/-- The state behind a character for which another one may have been written. -/
def move (s : State) (out c : Char) : State where
  last := some out
  depth := (s.place.step c).depth
  tag := (s.place.step c).tag

@[simp]
theorem place_move (s : State) (out c : Char) : (s.move out c).place = s.place.step c := rfl

theorem spell_cases (s : State) (c : Char) (cs : List Char) :
    (s.spell c cs = (c, 0) ∧ (s.place.Open → ¬Stirs (c :: cs))) ∨
    ∃ run mark rest, s.place.Open ∧ Respells run mark ∧ c :: cs = run ++ rest ∧
      s.spell c cs = (mark, run.length - 1) := by
  unfold spell
  split
  · next hopen =>
    rcases educate_cases s.last c cs with ⟨heq, hstill⟩ | ⟨run, mark, rest, h⟩
    · exact .inl ⟨heq, fun _ => hstill⟩
    · exact .inr ⟨run, mark, rest, hopen, h⟩
  · next hclosed => exact .inl ⟨rfl, fun hopen => absurd hopen hclosed⟩

end State

section Walking

theorem walk_skip (skip : Nat) (s : State) (cs : List Char) :
    walk skip s cs = walk 0 s (cs.drop skip) := by
  induction skip generalizing cs with
  | zero => rfl
  | succ skip ih =>
    cases cs with
    | nil => rfl
    | cons c cs => exact ih cs

theorem walk_eq (s : State) (c : Char) (cs : List Char) :
    walk 0 s (c :: cs) =
      (s.spell c cs).1 :: walk 0 (s.move (s.spell c cs).1 c) (cs.drop (s.spell c cs).2) := by
  obtain ⟨last, depth, tag⟩ := s
  rw [walk]
  cases tag with
  | some tag =>
    have hclosed : ¬(State.place ⟨last, depth, some tag⟩).Open := fun h => nomatch h.tag
    simp only [State.spell, if_neg hclosed, List.drop_zero]
    split
    · next hend => simp [State.move, State.place, Place.step, hend]
    · next hend => simp [State.move, State.place, Place.step, hend]
  | none =>
    dsimp only
    split
    · next hbegin =>
      subst hbegin
      have hspell : State.spell ⟨last, depth, none⟩ '<' cs = ('<', 0) := by
        unfold State.spell
        split <;> simp [educate]
      rw [hspell]
      rfl
    · next hbegin =>
      have hstep : Place.step ⟨depth, none⟩ c = ⟨depth, none⟩ := if_neg hbegin
      split
      · next hdepth =>
        have hclosed : ¬(State.place ⟨last, depth, none⟩).Open := fun h => by
          have hzero : depth = 0 := h.depth
          omega
        simp only [State.spell, if_neg hclosed, List.drop_zero]
        simp [State.move, State.place, hstep]
      · next hdepth =>
        have hopen : (State.place ⟨last, depth, none⟩).Open := ⟨rfl, Nat.eq_zero_of_not_pos hdepth⟩
        simp only [State.spell, if_pos hopen, walk_skip _ _ cs]
        simp [State.move, State.place, hstep]

-- The induction of the walk goes on behind what a character takes in.
theorem walk_induction {motive : State → List Char → Prop} (nil : ∀ s, motive s [])
    (cons : ∀ s c cs,
      motive (s.move (s.spell c cs).1 c) (cs.drop (s.spell c cs).2) → motive s (c :: cs))
    (s : State) (cs : List Char) : motive s cs := by
  induction hlength : cs.length using Nat.strong_induction_on generalizing s cs with
  | _ length ih =>
    cases cs with
    | nil => exact nil s
    | cons c cs =>
      refine cons s c cs (ih _ ?_ _ _ rfl)
      rw [← hlength, List.length_drop, List.length_cons]
      omega

end Walking

/-- Nothing that is respelled begins at a place in the open. -/
def Place.AtRest (p : Place) (cs : List Char) : Prop :=
  ∀ u v, cs = u ++ v → (p.through u).Open → ¬Stirs v

section Resting

variable {p : Place} {c : Char} {cs : List Char}

theorem Place.atRest_nil : p.AtRest [] := by
  intro u v h _
  rw [(List.append_eq_nil_iff.1 h.symm).2]
  exact not_stirs_nil

theorem Place.atRest_cons :
    p.AtRest (c :: cs) ↔ (p.Open → ¬Stirs (c :: cs)) ∧ (p.step c).AtRest cs := by
  constructor
  · intro h
    exact ⟨h [] (c :: cs) rfl, fun u v hcs => h (c :: u) v (congrArg (c :: ·) hcs)⟩
  · rintro ⟨hfirst, hrest⟩ u v hcs
    cases u with
    | nil =>
      cases hcs
      exact hfirst
    | cons d u =>
      obtain ⟨rfl, rfl⟩ := List.cons.inj hcs
      exact hrest u v rfl

instance decidableAtRest : (p : Place) → (cs : List Char) → Decidable (p.AtRest cs)
  | _, [] => isTrue Place.atRest_nil
  | p, c :: cs =>
    have := decidableAtRest (p.step c) cs
    decidable_of_iff _ Place.atRest_cons.symm

/-- Markup is written as it is exactly when nothing in it stirs in the open. -/
theorem walk_eq_self_iff {s : State} : walk 0 s cs = cs ↔ s.place.AtRest cs := by
  induction s, cs using walk_induction with
  | nil s => exact iff_of_true rfl Place.atRest_nil
  | cons s c cs ih =>
    rw [walk_eq, Place.atRest_cons]
    rcases s.spell_cases c cs with ⟨hspell, hstill⟩ | ⟨run, mark, rest, hopen, hrun, hcs, hspell⟩
    · rw [hspell] at ih ⊢
      rw [List.cons.injEq, eq_self_iff_true, true_and, List.drop_zero] at *
      rw [ih]
      exact (and_iff_right hstill).symm
    · -- the sign is no character of the run, and the run stirs
      refine iff_of_false (fun heq => ?_) fun hrest => ?_
      · rw [hspell] at heq
        obtain ⟨d, more, rfl⟩ := List.exists_cons_of_ne_nil hrun.ne_nil
        obtain ⟨rfl, -⟩ := List.cons.inj hcs
        have hmark : c ∈ marks := (List.cons.inj heq).1 ▸ hrun.mem_marks
        exact not_mem_marks_of_mem_strokes (hrun.mem_strokes c List.mem_cons_self) hmark
      · exact hrest.1 hopen (hcs ▸ hrun.stirs rest)

end Resting

/-- No run of dashes or dots is cut between the two texts. -/
def Parted (u v : List Char) : Prop := ∀ c ∈ u.getLast?, c ∈ v.head? → c ≠ '-' ∧ c ≠ '.'

/-- The state behind a text. -/
def State.after (s : State) (cs : List Char) : State where
  last := (walk 0 s cs).getLast?.or s.last
  depth := (s.place.through cs).depth
  tag := (s.place.through cs).tag

section Parts

variable {c : Char} {u v : List Char}

theorem Respells.step {more : List Char} {mark : Char} (h : Respells (c :: more) mark) {p : Place}
    (hp : p.Open) : p.step c = p ∧ p.through more = p := by
  obtain ⟨hc, hmore⟩ := not_or.1 (List.mem_cons.not.1 h.not_mem)
  exact ⟨Place.step_of_ne hp.tag (Ne.symm hc), Place.through_of_text hp.tag hmore⟩

theorem educate_cons_cons (last : Option Char) (c d e : Char) (u v : List Char) :
    educate last c (d :: e :: u) = educate last c (d :: e :: v) := by
  by_cases hdash : c = '-' ∧ d = '-'
  · obtain ⟨rfl, rfl⟩ := hdash
    by_cases he : e = '-' <;> simp [educate, he]
  · by_cases hdots : c = '.' ∧ d = '.' ∧ e = '.'
    · obtain ⟨rfl, rfl, rfl⟩ := hdots
      rfl
    · unfold educate
      split <;> simp_all

theorem educate_append (last : Option Char) (h : Parted (c :: u) v) :
    educate last c (u ++ v) = educate last c u := by
  unfold Parted at h
  match u with
  | [] =>
    cases v with
    | nil => rfl
    | cons d v => unfold educate; grind
  | [d] =>
    cases v with
    | nil => rfl
    | cons e v => unfold educate; grind
  | d :: e :: u => exact educate_cons_cons last c d e (u ++ v) u

theorem Parted.of_append {w : List Char} (h : Parted (w ++ u) v) : Parted u v := fun c hc =>
  h c (by rw [List.getLast?_append, Option.mem_def.1 hc]; rfl)

theorem State.spell_append (s : State) (h : Parted (c :: u) v) :
    s.spell c (u ++ v) = s.spell c u := by
  unfold spell
  rw [educate_append s.last h]

theorem State.after_cons (s : State) (c : Char) (cs : List Char) :
    (s.move (s.spell c cs).1 c).after (cs.drop (s.spell c cs).2) = s.after (c :: cs) := by
  have hlast : ∀ (out : Char) (rest : List Char), (out :: rest).getLast?.or s.last =
      rest.getLast?.or (some out) := by
    intro out rest
    cases rest with
    | nil => rfl
    | cons d rest => simp [List.getLast?_cons]
  -- no bracket is in a run, so it leaves the place as it is
  have hplace : (s.place.step c).through (cs.drop (s.spell c cs).2) = s.place.through (c :: cs) := by
    rcases s.spell_cases c cs with ⟨hspell, -⟩ | ⟨run, mark, rest, hopen, hrun, hcs, hspell⟩
    · rw [hspell]
      rfl
    · obtain ⟨d, more, rfl⟩ := List.exists_cons_of_ne_nil hrun.ne_nil
      obtain ⟨rfl, hmore⟩ := List.cons.inj (hcs.trans (List.cons_append ..))
      obtain ⟨hstep, hthrough⟩ := hrun.step hopen
      rw [hspell, hstep]
      show s.place.through (cs.drop more.length) = (s.place.step c).through cs
      rw [hstep, hmore, List.drop_left, Place.through_append, hthrough]
  unfold after
  rw [place_move, hplace, walk_eq, hlast]
  rfl

/-- Two texts are written one after the other when no run is cut between them. -/
theorem walk_append (s : State) (h : Parted u v) :
    walk 0 s (u ++ v) = walk 0 s u ++ walk 0 (s.after u) v := by
  induction s, u using walk_induction with
  | nil s => rfl
  | cons s c u ih =>
    have hdrop : (u ++ v).drop (s.spell c u).2 = u.drop (s.spell c u).2 ++ v := by
      rcases s.spell_cases c u with ⟨hspell, -⟩ | ⟨run, mark, rest, -, hrun, hcs, hspell⟩
      · rw [hspell]
        rfl
      · obtain ⟨d, more, rfl⟩ := List.exists_cons_of_ne_nil hrun.ne_nil
        obtain ⟨rfl, rfl⟩ := List.cons.inj hcs
        rw [hspell]
        simp
    -- the cut is the same for what is left of the first text
    have hrest : Parted (u.drop (s.spell c u).2) v := by
      refine Parted.of_append (w := c :: u.take (s.spell c u).2) ?_
      rwa [List.cons_append, List.take_append_drop]
    rw [List.cons_append, walk_eq, s.spell_append h, hdrop, ih hrest, s.after_cons, walk_eq s c u]
    rfl

end Parts

end Bindery.Html.Typography
