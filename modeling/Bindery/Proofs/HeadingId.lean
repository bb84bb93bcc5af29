import Bindery.Heading
import Mathlib.Data.List.SplitBy

/-! The ids of headings. An id keeps the plain characters of its source in order and has one hyphen
for every run of others. The reading of a source carries over whether such a run is open, so what is
shown of an id's beginning depends on that. -/

namespace Bindery.Heading

/-- The letters and digits of ASCII, and the underscore. -/
def isPlain (c : Char) : Bool :=
  ('a' ≤ c && c ≤ 'z') || ('A' ≤ c && c ≤ 'Z') || ('0' ≤ c && c ≤ '9') || c == '_'

theorem isIdChar_eq_isPlain (c : Char) : isIdChar c = isPlain c := by
  have hid : isIdChar c = (decide ('A' ≤ c ∧ c ≤ 'Z') || ('a' ≤ c && c ≤ 'z') ||
      ('0' ≤ c && c ≤ '9') || c == '_') := rfl
  rw [hid, isPlain, Bool.decide_and, Bool.or_comm (_ && _) ('a' ≤ c && c ≤ 'z')]

theorem ne_hyphen {c : Char} (h : isPlain c = true) : c ≠ '-' := by
  rintro rfl
  exact absurd h (by decide)

theorem idChars_cons (inGap : Bool) (c : Char) (cs : List Char) : idChars inGap (c :: cs) =
    if isPlain c then c :: idChars false cs
    else if inGap then idChars true cs
    else '-' :: idChars true cs := by
  rw [← isIdChar_eq_isPlain]
  rfl

theorem mem_idChars {inGap : Bool} {cs : List Char} {d : Char} (h : d ∈ idChars inGap cs) :
    isPlain d = true ∨ d = '-' := by
  induction cs generalizing inGap with
  | nil => cases h
  | cons c cs ih =>
    rw [idChars_cons] at h
    split at h
    · next hc =>
      rcases List.mem_cons.1 h with rfl | h
      · exact .inl hc
      · exact ih h
    · split at h
      · exact ih h
      · rcases List.mem_cons.1 h with rfl | h
        · exact .inr rfl
        · exact ih h

theorem filter_idChars (inGap : Bool) (cs : List Char) :
    (idChars inGap cs).filter (· != '-') = cs.filter isPlain := by
  induction cs generalizing inGap with
  | nil => rfl
  | cons c cs ih =>
    rw [idChars_cons]
    by_cases hc : isPlain c = true
    · simp [hc, ne_hyphen hc, ih]
    · cases inGap <;> simp [hc, ih]

/-- No two hyphens stand side by side. -/
def Single (id : List Char) : Prop := id.IsChain fun c d => ¬(c = '-' ∧ d = '-')

/-- An open run writes no hyphen more. -/
theorem single_idChars (inGap : Bool) (cs : List Char) :
    Single (idChars inGap cs) ∧ (inGap = true → ∀ c ∈ (idChars inGap cs).head?, c ≠ '-') := by
  induction cs generalizing inGap with
  | nil => exact ⟨List.isChain_nil, by simp [idChars]⟩
  | cons c cs ih =>
    rw [idChars_cons]
    by_cases hc : isPlain c = true
    · rw [if_pos hc]
      exact ⟨List.isChain_cons.2 ⟨by simp [ne_hyphen hc], (ih false).1⟩, by simp [ne_hyphen hc]⟩
    · rw [if_neg hc]
      cases inGap with
      | true => exact ih true
      | false => exact ⟨List.isChain_cons.2 ⟨by simpa using (ih true).2 rfl, (ih true).1⟩, by simp⟩

theorem idChars_eq_self {inGap : Bool} {id : List Char}
    (hchars : ∀ c ∈ id, isPlain c = true ∨ c = '-') (hsingle : Single id)
    (hhead : inGap = true → ∀ c ∈ id.head?, c ≠ '-') : idChars inGap id = id := by
  induction id generalizing inGap with
  | nil => rfl
  | cons c id ih =>
    obtain ⟨hc, hrest⟩ := List.forall_mem_cons.1 hchars
    obtain ⟨hnext, hbehind⟩ := List.isChain_cons.1 hsingle
    rw [idChars_cons]
    rcases hc with hc | rfl
    · rw [if_pos hc, ih hrest hbehind (by simp)]
    · -- No run is open here, so the hyphen is written, and none follows it.
      have hopen : inGap = false := by simpa using hhead
      rw [hopen, if_neg (by decide), if_neg (by decide), ih hrest hbehind]
      intro _ d hd heq
      exact hnext d hd ⟨rfl, heq⟩

/-! The runs of a text. -/

/-- The text in runs of plain characters and of others. -/
def runs (cs : List Char) : List (List Char) := cs.splitBy fun c d => isPlain c == isPlain d

/-- What a run is written as. -/
def written (run : List Char) : List Char := if run.all isPlain then run else ['-']

theorem idChars_plain_append {run : List Char} (h : ∀ c ∈ run, isPlain c = true)
    (rest : List Char) : idChars false (run ++ rest) = run ++ idChars false rest := by
  induction run with
  | nil => rfl
  | cons c run ih =>
    obtain ⟨hc, hrun⟩ := List.forall_mem_cons.1 h
    rw [List.cons_append, idChars_cons, if_pos hc, ih hrun]
    rfl

theorem idChars_other_append {run : List Char} (h : ∀ c ∈ run, isPlain c = false)
    (rest : List Char) : idChars true (run ++ rest) = idChars true rest := by
  induction run with
  | nil => rfl
  | cons c run ih =>
    obtain ⟨hc, hrun⟩ := List.forall_mem_cons.1 h
    rw [List.cons_append, idChars_cons, if_neg (by simp [hc]), if_pos rfl, ih hrun]

theorem idChars_of_head {cs : List Char} (h : ∀ c ∈ cs.head?, isPlain c = true) :
    idChars true cs = idChars false cs := by
  cases cs with
  | nil => rfl
  | cons c cs =>
    have hc : isPlain c = true := h c rfl
    rw [idChars_cons, idChars_cons, if_pos hc, if_pos hc]

theorem isPlain_of_isChain {c : Char} {run : List Char}
    (h : (c :: run).IsChain fun c d => (isPlain c == isPlain d) = true) :
    ∀ d ∈ c :: run, isPlain d = isPlain c := by
  induction run generalizing c with
  | nil => simp
  | cons d run ih =>
    obtain ⟨hcd, hrun⟩ := List.isChain_cons_cons.1 h
    rw [beq_iff_eq] at hcd
    refine List.forall_mem_cons.2 ⟨rfl, fun e he => ?_⟩
    rw [hcd]
    exact ih hrun e he

/-- A run in front of a text is written by itself, when nothing behind it continues it. -/
theorem idChars_run_append {c : Char} {run rest : List Char}
    (hkind : ∀ d ∈ c :: run, isPlain d = isPlain c)
    (hrest : isPlain c = false → ∀ d ∈ rest.head?, isPlain d = true) :
    idChars false (c :: run ++ rest) = written (c :: run) ++ idChars false rest := by
  cases hc : isPlain c with
  | true =>
    rw [hc] at hkind
    rw [written, if_pos (List.all_eq_true.2 hkind), idChars_plain_append hkind]
  | false =>
    rw [hc] at hkind
    have hother : (c :: run).all isPlain = false := by simp [hc]
    rw [written, hother, List.cons_append, idChars_cons, if_neg (by simp [hc]), if_neg (by simp),
      idChars_other_append (List.forall_mem_cons.1 hkind).2, idChars_of_head (hrest hc)]
    rfl

theorem idChars_flatten {l : List (List Char)} (hne : [] ∉ l)
    (hsame : ∀ run ∈ l, run.IsChain fun c d => (isPlain c == isPlain d) = true)
    (hturn : l.IsChain fun run next =>
      ∃ ha hb, (isPlain (run.getLast ha) == isPlain (next.head hb)) = false) :
    idChars false l.flatten = l.flatMap written := by
  induction l with
  | nil => rfl
  | cons run l ih =>
    obtain ⟨hrun, hl⟩ := not_or.1 (List.mem_cons.not.1 hne)
    obtain ⟨hfirst, hmore⟩ := List.forall_mem_cons.1 hsame
    obtain ⟨hnext, hbehind⟩ := List.isChain_cons.1 hturn
    obtain ⟨c, run, rfl⟩ := List.exists_cons_of_ne_nil (Ne.symm hrun)
    have hkind := isPlain_of_isChain hfirst
    rw [List.flatten_cons, List.flatMap_cons, ← ih hl hmore hbehind]
    refine idChars_run_append hkind fun hc => ?_
    -- The run behind one of other characters begins with a plain one.
    cases l with
    | nil => simp
    | cons next l =>
      obtain ⟨ha, hb, hdiffer⟩ := hnext next rfl
      rw [hkind _ (List.getLast_mem ha), hc] at hdiffer
      obtain ⟨d, next, rfl⟩ := List.exists_cons_of_ne_nil hb
      simpa using hdiffer

theorem idChars_eq_runs (cs : List Char) : idChars false cs = (runs cs).flatMap written := by
  have h : idChars false (runs cs).flatten = (runs cs).flatMap written :=
    idChars_flatten (List.nil_notMem_splitBy _ cs)
      (fun _ hrun => List.isChain_of_mem_splitBy hrun)
      (List.isChain_getLast_head_splitBy (fun c d => isPlain c == isPlain d) cs)
  rwa [runs, List.flatten_splitBy] at h

/-! What is written for a source. -/

/-- An id as it is made from `source`. -/
structure Canonical (source id : List Char) : Prop where
  ne_nil : id ≠ []
  chars : ∀ c ∈ id, isPlain c = true ∨ c = '-'
  single : Single id
  visible : ∃ c ∈ id, c ≠ '-'
  kept : id.filter (· != '-') = source.filter isPlain
  runs : id = (runs source).flatMap written

theorem sanitizeId_eq (raw : List Char) : sanitizeId raw =
    if (idChars false raw).all (· == '-') then none else some (idChars false raw) := rfl

/-- Nothing but hyphens is left of a text without plain characters. -/
theorem all_idChars_iff {raw : List Char} :
    (idChars false raw).all (· == '-') = true ↔ ∀ c ∈ raw, isPlain c = false := by
  have hempty : (idChars false raw).filter (· != '-') = [] ↔ raw.filter isPlain = [] := by
    rw [filter_idChars]
  simpa [List.filter_eq_nil_iff] using hempty

theorem sanitizeId_eq_none_iff {raw : List Char} :
    sanitizeId raw = none ↔ ∀ c ∈ raw, isPlain c = false := by
  rw [← all_idChars_iff, sanitizeId_eq]
  split
  · next hall => exact iff_of_true rfl hall
  · next hleft => exact iff_of_false (by simp) hleft

theorem canonical_of_sanitizeId {raw id : List Char} (h : sanitizeId raw = some id) :
    Canonical raw id := by
  rw [sanitizeId_eq] at h
  split at h
  · cases h
  · next hall =>
    cases h
    have hvisible : ∃ c ∈ idChars false raw, c ≠ '-' := by simpa using hall
    exact {
      ne_nil := List.ne_nil_of_mem hvisible.choose_spec.1
      chars := fun c => mem_idChars
      single := (single_idChars false raw).1
      visible := hvisible
      kept := filter_idChars false raw
      runs := idChars_eq_runs raw }

/-- An id that was made from anything is made from itself. -/
theorem Canonical.sanitizeId_eq_some {source id : List Char} (h : Canonical source id) :
    sanitizeId id = some id := by
  have hself : idChars false id = id := idChars_eq_self h.chars h.single (by simp)
  have hvisible : id.all (· == '-') = false := by simpa using h.visible
  rw [sanitizeId_eq, hself, hvisible]
  rfl

/-- What a heading's id is made from. -/
def idSource (text : List Char) (marker : Option (List Char)) (start : List Char) : List Char :=
  marker.getD (start ++ text)

theorem chooseId_eq (text : List Char) (marker : Option (List Char)) (derive : Bool)
    (start : List Char) : chooseId text marker derive start =
      if marker.isSome || derive then sanitizeId (idSource text marker start) else none := by
  cases marker <;> rfl

/-- Heading ids are canonical, an id is its own id, and there is none where a marker or a derived id
is asked for exactly when the source has no plain character. -/
theorem chooseId_canonical (text : List Char) (marker : Option (List Char)) (derive : Bool)
    (start : List Char) :
    (∀ id, chooseId text marker derive start = some id →
      Canonical (idSource text marker start) id) ∧
    (∀ raw id, sanitizeId raw = some id → sanitizeId id = some id) ∧
    (chooseId text marker derive start = none ↔ (marker.isSome || derive) = false ∨
      ∀ c ∈ idSource text marker start, isPlain c = false) := by
  rw [chooseId_eq]
  refine ⟨fun id h => ?_, fun raw id h => (canonical_of_sanitizeId h).sanitizeId_eq_some, ?_⟩
  · split at h
    · exact canonical_of_sanitizeId h
    · cases h
  · split
    · next hasked => simp [hasked, sanitizeId_eq_none_iff]
    · next hnone => simp [hnone]

theorem chooseId_canonical_greeting :
    (chooseId "über -- uns!".toList none true "doc-".toList = some "doc-ber-uns-".toList ∧
      Canonical "doc-über -- uns!".toList "doc-ber-uns-".toList) ∧
    sanitizeId "über -- uns!".toList = some "-ber-uns-".toList ∧
      sanitizeId "-ber-uns-".toList = some "-ber-uns-".toList := by
  have hid : chooseId "über -- uns!".toList none true "doc-".toList =
      some "doc-ber-uns-".toList := by decide
  have hraw : sanitizeId "über -- uns!".toList = some "-ber-uns-".toList := by decide
  exact ⟨⟨hid, (chooseId_canonical _ _ _ _).1 _ hid⟩, hraw,
    (chooseId_canonical [] none true []).2.1 _ _ hraw⟩

end Bindery.Heading
