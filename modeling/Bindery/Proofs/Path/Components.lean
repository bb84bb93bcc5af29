import Bindery.Path
import Mathlib.Data.List.Infix

/-! Paths and their components. A list of components that is written as a path is read back as
itself, and joining two paths puts their components one after the other. -/

namespace Bindery

namespace Text

theorem splitOn_eq_splitOnP (sep : Char → Bool) (cs : List Char) :
    splitOn sep cs = cs.splitOnP sep := by
  induction cs with
  | nil => rfl
  | cons c cs ih =>
    rw [List.splitOnP_cons_eq_if_modifyHead, splitOn, ih]
    split
    · rfl
    · cases h : cs.splitOnP sep with
      | nil => exact absurd h (List.splitOnP_ne_nil sep cs)
      | cons piece pieces => rfl

theorem splitOn_slash (cs : List Char) : splitOn (· == '/') cs = cs.splitOn '/' := by
  rw [splitOn_eq_splitOnP, List.splitOn_eq_splitOnP]

theorem sep_not_mem_splitOn {sep : Char → Bool} {cs piece : List Char}
    (h : piece ∈ splitOn sep cs) : ∀ c ∈ piece, sep c = false := by
  induction cs generalizing piece with
  | nil =>
    obtain rfl := List.mem_singleton.1 h
    simp
  | cons c cs ih =>
    rw [splitOn] at h
    split at h
    · rcases List.mem_cons.1 h with rfl | h
      · simp
      · exact ih h
    · next hc =>
      split at h
      · next hnil => exact absurd hnil (splitOn_ne_nil sep cs)
      · next first pieces hpieces =>
        rcases List.mem_cons.1 h with rfl | h
        · intro d hd
          rcases List.mem_cons.1 hd with rfl | hd
          · simpa using hc
          · exact ih (hpieces ▸ List.mem_cons_self) d hd
        · exact ih (hpieces ▸ List.mem_cons_of_mem _ h)

end Text

namespace Component

/-- A step down or up. The name of a step is not empty, holds no slash and is no dots. -/
def IsStep : Component → Prop
  | .up => True
  | .name s => s ≠ "" ∧ '/' ∉ s.toList ∧ s ≠ "." ∧ s ≠ ".."
  | .root | .here => False

theorem IsStep.ne_root {c : Component} (h : c.IsStep) : c ≠ .root := by
  rintro rfl
  exact h

theorem IsStep.ne_here {c : Component} (h : c.IsStep) : c ≠ .here := by
  rintro rfl
  exact h

theorem IsStep.slash_not_mem {c : Component} (h : c.IsStep) : '/' ∉ c.text.toList := by
  cases c with
  | up => decide
  | name s => exact h.2.1
  | root => exact h.elim
  | here => exact h.elim

end Component

namespace Path

/-- The pieces of steps are read as these steps. -/
theorem component?_text {c : Component} (h : c.IsStep) : component? c.text.toList = some c := by
  cases c with
  | up => rfl
  | name s =>
    obtain ⟨hempty, -, hdot, hdots⟩ := h
    have hnil : s.toList ≠ [] := fun heq => hempty (String.toList_inj.1 heq)
    have hone : s.toList ≠ ['.'] := fun heq => hdot (String.toList_inj.1 heq)
    have htwo : s.toList ≠ ['.', '.'] := fun heq => hdots (String.toList_inj.1 heq)
    simp [component?, Component.text, hnil, hone, htwo]
  | root => exact h.elim
  | here => exact h.elim

theorem isStep_of_component? {piece : List Char} {c : Component}
    (hslash : ∀ d ∈ piece, (d == '/') = false) (h : component? piece = some c) : c.IsStep := by
  unfold component? at h
  split at h
  · cases h
  · next hdot =>
    split at h
    · cases h
      trivial
    · next hdots =>
      cases h
      simp only [Bool.or_eq_true, decide_eq_true_eq, not_or] at hdot
      refine ⟨?_, ?_, ?_, ?_⟩
      · exact fun heq => hdot.1 (by simpa using congrArg String.toList heq)
      · intro hmem
        rw [String.toList_ofList] at hmem
        simpa using hslash _ hmem
      · exact fun heq => hdot.2 (by simpa using congrArg String.toList heq)
      · exact fun heq => hdots (by simpa using congrArg String.toList heq)

/-- The pieces of a path. -/
def pieces (p : Path) : List (List Char) := Text.splitOn (· == '/') p.text.toList

theorem isStep_of_mem_filterMap {pieces : List (List Char)}
    (hslash : ∀ piece ∈ pieces, ∀ d ∈ piece, (d == '/') = false) {c : Component}
    (h : c ∈ pieces.filterMap component?) : c.IsStep := by
  obtain ⟨piece, hpiece, hc⟩ := List.mem_filterMap.1 h
  exact isStep_of_component? (hslash piece hpiece) hc

theorem filterMap_component?_text {cs : List Component} (h : ∀ c ∈ cs, c.IsStep) :
    (cs.map fun c => c.text.toList).filterMap component? = cs := by
  induction cs with
  | nil => rfl
  | cons c cs ih =>
    rw [List.map_cons, List.filterMap_cons, component?_text (h c List.mem_cons_self),
      ih fun d hd => h d (List.mem_cons_of_mem _ hd)]

/-- What the first piece of a path stands for. -/
def lead (absolute : Bool) (first : List Char) : List Component :=
  if first = ['.'] then [.here] else if absolute then [.root] else (component? first).toList

theorem components_eq {p : Path} {first : List Char} {rest : List (List Char)}
    (h : p.pieces = first :: rest) :
    p.components = lead p.isAbsolute first ++ rest.filterMap component? := by
  unfold pieces at h
  unfold components
  rw [h]
  rfl

theorem exists_pieces (p : Path) : ∃ first rest, p.pieces = first :: rest :=
  List.exists_cons_of_ne_nil (Text.splitOn_ne_nil _ _)

/-- A list of components as a path has it: only its first may be the root or a dot. -/
inductive Written : List Component → Prop
  | absolute {cs} (h : ∀ c ∈ cs, c.IsStep) : Written (.root :: cs)
  | dotted {cs} (h : ∀ c ∈ cs, c.IsStep) : Written (.here :: cs)
  | relative {cs} (h : ∀ c ∈ cs, c.IsStep) : Written cs

theorem written_components (p : Path) : Written p.components := by
  obtain ⟨first, rest, hp⟩ := exists_pieces p
  have hslash : ∀ piece ∈ first :: rest, ∀ d ∈ piece, (d == '/') = false :=
    fun piece hpiece => Text.sep_not_mem_splitOn (hp ▸ hpiece)
  have hrest : ∀ c ∈ rest.filterMap component?, c.IsStep := fun c hc =>
    isStep_of_mem_filterMap (fun piece hpiece => hslash piece (List.mem_cons_of_mem _ hpiece)) hc
  rw [components_eq hp]
  unfold lead
  split
  · exact .dotted hrest
  · split
    · exact .absolute hrest
    · refine .relative fun c hc => ?_
      rcases List.mem_append.1 hc with hc | hc
      · rw [Option.mem_toList] at hc
        exact isStep_of_component? (hslash first List.mem_cons_self) hc
      · exact hrest c hc

theorem splitOn_intercalate {cs : List Component} (hne : cs ≠ [])
    (h : ∀ c ∈ cs, '/' ∉ c.text.toList) :
    ("/".intercalate (cs.map Component.text)).toList.splitOn '/' =
      cs.map fun c => c.text.toList := by
  have hslash : "/".toList = ['/'] := rfl
  rw [String.toList_intercalate, hslash, List.map_map, List.splitOn_intercalate]
  · rfl
  · intro piece hpiece
    obtain ⟨c, hc, rfl⟩ := List.mem_map.1 hpiece
    exact h c hc
  · simpa using hne

theorem isAbsolute_iff {p : Path} : p.isAbsolute = true ↔ ∃ cs, p.text.toList = '/' :: cs := by
  unfold isAbsolute
  rw [beq_iff_eq, List.head?_eq_some_iff]

theorem pieces_eq_splitOn (p : Path) : p.pieces = p.text.toList.splitOn '/' :=
  Text.splitOn_slash p.text.toList

theorem pieces_of_slash {p : Path} {cs : List Char} (h : p.text.toList = '/' :: cs) :
    p.pieces = [] :: cs.splitOn '/' := by
  rw [pieces_eq_splitOn, h]
  exact List.splitOn_append_cons_self [] cs

/-- What stands behind the first slash has no lead of its own. -/
theorem components_of_slash {p : Path} {cs : List Char} (h : p.text.toList = '/' :: cs) :
    p.components = .root :: (cs.splitOn '/').filterMap component? := by
  rw [components_eq (pieces_of_slash h), isAbsolute_iff.2 ⟨cs, h⟩]
  rfl

theorem filterMap_splitOn_intercalate {cs : List Component} (h : ∀ c ∈ cs, c.IsStep) :
    (("/".intercalate (cs.map Component.text)).toList.splitOn '/').filterMap component? = cs := by
  cases cs with
  | nil => decide
  | cons c cs =>
    rw [splitOn_intercalate (List.cons_ne_nil c cs) fun d hd => (h d hd).slash_not_mem]
    exact filterMap_component?_text h

theorem not_isAbsolute_of_first {p : Path} {first : List Char} {rest : List (List Char)}
    (h : p.pieces = first :: rest) (hfirst : first ≠ []) : p.isAbsolute = false := by
  rw [Bool.eq_false_iff]
  intro habsolute
  obtain ⟨cs, hcs⟩ := isAbsolute_iff.1 habsolute
  rw [pieces_of_slash hcs] at h
  exact hfirst (List.cons.inj h).1.symm

theorem components_of_pieces {p : Path} {c : Component} {cs : List Component}
    (h : p.pieces = (c :: cs).map fun c => c.text.toList) (hc : c = .here ∨ c.IsStep)
    (hcs : ∀ d ∈ cs, d.IsStep) : p.components = c :: cs := by
  rw [List.map_cons] at h
  have hfirst : c.text.toList ≠ [] := by
    rcases hc with rfl | hc
    · decide
    · intro hnil
      have hread := component?_text hc
      rw [hnil] at hread
      cases hread
  rw [components_eq h, not_isAbsolute_of_first h hfirst, filterMap_component?_text hcs]
  rcases hc with rfl | hc
  · rfl
  · have hdot : c.text.toList ≠ ['.'] := by
      intro heq
      have hread := component?_text hc
      rw [heq] at hread
      cases hread
    simp [lead, hdot, component?_text hc]

/-- A list of components is read back from the path it is written as. -/
theorem components_ofComponents {cs : List Component} (h : Written cs) :
    (ofComponents cs).components = cs := by
  have hslash : ∀ c ∈ cs, c = .here ∨ c.IsStep → '/' ∉ c.text.toList := by
    rintro c - (rfl | hc)
    · decide
    · exact hc.slash_not_mem
  have hrelative : ∀ c cs', cs = c :: cs' → c = .here ∨ c.IsStep → (∀ d ∈ cs', d.IsStep) →
      (ofComponents cs).components = cs := by
    rintro c cs' rfl hc hcs
    have hall : ∀ d ∈ c :: cs', d = .here ∨ d.IsStep := by
      intro d hd
      rcases List.mem_cons.1 hd with rfl | hd
      · exact hc
      · exact .inr (hcs d hd)
    have htext : ofComponents (c :: cs') = ⟨"/".intercalate ((c :: cs').map Component.text)⟩ := by
      cases c with
      | root => rcases hc with hc | hc <;> cases hc
      | here | up | name => rfl
    refine components_of_pieces ?_ hc hcs
    rw [htext, pieces_eq_splitOn]
    exact splitOn_intercalate (List.cons_ne_nil c cs') fun d hd => hslash d hd (hall d hd)
  cases h with
  | @absolute cs hcs =>
    have htext : (ofComponents (.root :: cs)).text.toList =
        '/' :: ("/".intercalate (cs.map Component.text)).toList := by
      simp [ofComponents]
    rw [components_of_slash htext, filterMap_splitOn_intercalate hcs]
  | dotted hcs => exact hrelative _ _ rfl (.inl rfl) hcs
  | relative hcs =>
    cases cs with
    | nil => decide
    | cons c cs =>
      exact hrelative c cs rfl (.inr (hcs c List.mem_cons_self))
        fun d hd => hcs d (List.mem_cons_of_mem _ hd)

theorem isAbsolute_iff_components {p : Path} :
    p.isAbsolute = true ↔ ∃ cs, p.components = .root :: cs := by
  constructor
  · intro h
    obtain ⟨cs, hcs⟩ := isAbsolute_iff.1 h
    exact ⟨_, components_of_slash hcs⟩
  · rintro ⟨cs, hcs⟩
    obtain ⟨first, rest, hp⟩ := exists_pieces p
    have hslash : ∀ piece ∈ first :: rest, ∀ d ∈ piece, (d == '/') = false :=
      fun piece hpiece => Text.sep_not_mem_splitOn (hp ▸ hpiece)
    rw [← Bool.not_eq_false]
    intro hrelative
    rw [components_eq hp, hrelative, lead] at hcs
    split at hcs
    · cases hcs
    · -- Without a slash in front, the root would have to be the reading of a piece.
      have hmem : .root ∈ (component? first).toList ++ rest.filterMap component? := by
        rw [show (component? first).toList ++ rest.filterMap component? = .root :: cs from hcs]
        exact List.mem_cons_self
      rcases List.mem_append.1 hmem with hfirst | hrest
      · rw [Option.mem_toList] at hfirst
        exact isStep_of_component? (hslash first List.mem_cons_self) hfirst
      · exact isStep_of_mem_filterMap
          (fun piece hpiece => hslash piece (List.mem_cons_of_mem _ hpiece)) hrest

/-! Joining two paths. -/

theorem isAbsolute_append {base : Path} (hbase : base.text ≠ "") (more : String) :
    (⟨base.text ++ more⟩ : Path).isAbsolute = base.isAbsolute := by
  have hne : base.text.toList ≠ [] := fun h => hbase (String.toList_inj.1 h)
  unfold isAbsolute
  rw [String.toList_append, List.head?_append_of_ne_nil _ hne]

/-- Slashes between the two parts count once. -/
theorem components_join {base target : Path} (hbase : base.text ≠ "")
    (htarget : target.isAbsolute = false) :
    (base.join target).components = base.components ++ target.pieces.filterMap component? := by
  have hempty : base.text.isEmpty = false := by simpa using hbase
  rw [join, if_neg (by simp [htarget]), hempty, Bool.false_or]
  split
  · next hlast =>
    rw [beq_iff_eq, List.getLast?_eq_some_iff] at hlast
    obtain ⟨front, hfront⟩ := hlast
    obtain ⟨first, rest, hfirst⟩ := List.exists_cons_of_ne_nil (List.splitOn_ne_nil '/' front)
    have hp : base.pieces = first :: (rest ++ [[]]) := by
      rw [pieces_eq_splitOn, hfront, List.splitOn_append_cons_self, hfirst]
      rfl
    have hq : (⟨base.text ++ target.text⟩ : Path).pieces = first :: (rest ++ target.pieces) := by
      rw [pieces_eq_splitOn, pieces_eq_splitOn, String.toList_append, hfront, List.append_assoc]
      exact (List.splitOn_append_cons_self front target.text.toList).trans (by rw [hfirst]; rfl)
    rw [components_eq hp, components_eq hq, isAbsolute_append hbase]
    simp [component?]
  · have hq : (⟨base.text ++ "/" ++ target.text⟩ : Path).pieces = base.pieces ++ target.pieces := by
      rw [pieces_eq_splitOn, pieces_eq_splitOn, pieces_eq_splitOn, String.toList_append,
        String.toList_append, List.append_assoc]
      exact List.splitOn_append_cons_self base.text.toList target.text.toList
    obtain ⟨first, rest, hp⟩ := exists_pieces base
    rw [hp, List.cons_append] at hq
    rw [components_eq hp, components_eq hq, String.append_assoc, isAbsolute_append hbase,
      List.filterMap_append, List.append_assoc]

/-- A relative path has the components of its pieces, but for a leading dot. -/
theorem components_of_relative {p : Path} (h : p.isAbsolute = false) :
    p.components = p.pieces.filterMap component? ∨
      p.components = .here :: p.pieces.filterMap component? := by
  obtain ⟨first, rest, hp⟩ := exists_pieces p
  rw [components_eq hp, hp, h, lead]
  split
  · next hdot =>
    right
    simp [hdot, component?]
  · left
    rw [List.filterMap_cons]
    cases component? first <;> rfl

end Path
end Bindery
