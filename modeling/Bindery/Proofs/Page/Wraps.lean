import Bindery.Page.Wrap
import Bindery.Proofs.Distinct
import Bindery.Proofs.Text.Trim

/-! Wraps around documents in a row. A wrap calls callbacks, each on the state that the one before it
left, until one answers with a text or with nothing; what they leave of the shared data overrides it
for the documents to come. -/

namespace Bindery

/-! Data that overrides other data. -/

namespace Json.Fields

/-- Each field has the value that `new` gives it last, or the one it had. -/
def Overridden (old new fs : Fields) : Prop :=
  ∀ name, fs.lookup name = (lastValue? new name).or (old.lookup name)

theorem lookup_insert (name : String) (value : Json) (fs : Fields) (name' : String) :
    (fs.insert name value).lookup name' = if name' = name then some value else fs.lookup name' := by
  induction fs with
  | nil =>
    rw [insert, List.lookup_cons]
    by_cases h : name' = name
    · simp [h]
    · simp [h, beq_eq_false_iff_ne.2 h]
  | cons field rest ih =>
    obtain ⟨n, v⟩ := field
    rw [insert]
    split
    · next hn =>
      subst hn
      by_cases h : name' = n
      · simp [h]
      · simp [h, List.lookup_cons, beq_eq_false_iff_ne.2 h]
    · next hn =>
      split
      · by_cases h : name' = name
        · simp [h]
        · simp [h, List.lookup_cons, beq_eq_false_iff_ne.2 h]
      · -- The field in front is another one, so it hides what is put behind it from no one.
        by_cases h : name' = n
        · subst h
          simp [hn]
        · rw [List.lookup_cons, List.lookup_cons, beq_eq_false_iff_ne.2 h]
          exact ih

theorem overridden_extend (old new : Fields) : Overridden old new (old.extend new) := by
  intro name
  induction new using List.reverseRecOn with
  | nil => rfl
  | append_singleton new field ih =>
    have hlast : old.extend (new ++ [field]) = (old.extend new).insert field.1 field.2 :=
      List.foldl_append
    rw [hlast, lookup_insert, lastValue?_concat, ih]
    split <;> rfl

theorem Overridden.isSome {old new fs : Fields} {name : String} (h : Overridden old new fs)
    (hold : (old.lookup name).isSome) : (fs.lookup name).isSome := by
  rw [h name, Option.isSome_or, hold, Bool.or_true]

end Json.Fields

/-! One wrap. -/

namespace Wrap

/-- The state that callbacks leave which do this to it in turn. -/
def left (effects : List (WrapState → WrapState)) (s : WrapState) : WrapState :=
  effects.foldl (fun s effect => effect s) s

/-- On a state the wrap calls callbacks that do `effects` in turn, and the last one answers with
the text. -/
inductive Calls : Wrap → WrapState → List (WrapState → WrapState) → String → Prop
  | nothing (s : WrapState) : Calls .nothing s [] ""
  | text (t : String) (s : WrapState) : Calls (.text t) s [] t
  | callback {effect : WrapState → WrapState} {answer : WrapState → Wrap} {s : WrapState}
      {effects : List (WrapState → WrapState)} {t : String}
      (h : Calls (answer (effect s)) (effect s) effects t) :
      Calls (.callback effect answer) s (effect :: effects) t

theorem Calls.resolve_eq {w : Wrap} {s : WrapState} {effects : List (WrapState → WrapState)}
    {t : String} (h : w.Calls s effects t) : w.resolve s = (t, left effects s) := by
  induction h with
  | nothing s => rfl
  | text t s => rfl
  | callback _ ih => exact ih

/-- Every chain of callbacks ends. -/
theorem exists_calls (w : Wrap) (s : WrapState) : ∃ effects t, w.Calls s effects t := by
  induction w generalizing s with
  | nothing => exact ⟨[], "", .nothing s⟩
  | text t => exact ⟨[], t, .text t s⟩
  | callback effect answer ih =>
    obtain ⟨effects, t, h⟩ := ih (effect s) (effect s)
    exact ⟨effect :: effects, t, .callback h⟩

/-- A callback that is given as one function may answer from what it changes: it is one that looks
first, and answers with one that acts. -/
def ofFunction (f : WrapState → WrapState × Wrap) : Wrap :=
  callback id fun s => callback (fun _ => (f s).1) fun _ => (f s).2

theorem resolve_ofFunction (f : WrapState → WrapState × Wrap) (s : WrapState) :
    (ofFunction f).resolve s = (f s).2.resolve (f s).1 := rfl

end Wrap

namespace Heading

/-- A level from 1 to 6, and a title that shows something. -/
def Listed (h : Heading) : Prop :=
  1 ≤ h.level ∧ h.level ≤ 6 ∧ ∃ c ∈ h.title.toList, Text.isBlank c = false

instance (h : Heading) : Decidable h.Listed := inferInstanceAs (Decidable (_ ∧ _))

theorem isListed_iff (h : Heading) : h.isListed = true ↔ h.Listed := by
  have htitle : (!(Text.trim h.title.toList).isEmpty) = true ↔
      ∃ c ∈ h.title.toList, Text.isBlank c = false := by
    obtain ⟨v, hsplit, hv, -⟩ := Text.exists_trim h.title.toList
    rw [Bool.not_eq_true', List.isEmpty_eq_false_iff]
    constructor
    · intro hne
      by_contra hnone
      simp only [not_exists, not_and, Bool.not_eq_false] at hnone
      refine hne ?_
      have hstart : Text.trimStart h.title.toList = [] := List.dropWhile_eq_nil_iff.2 hnone
      rw [Text.trim, hstart]
      rfl
    · rintro ⟨c, hc, hblank⟩ hnil
      rw [hnil, List.append_nil] at hsplit
      rw [hsplit, List.mem_append] at hc
      have hblank' : Text.isBlank c = true := hc.elim List.mem_takeWhile_imp (hv c)
      cases hblank'.symm.trans hblank
  unfold isListed Listed
  rw [Bool.and_eq_true, Bool.and_eq_true, decide_eq_true_eq, decide_eq_true_eq, htitle, and_assoc]

end Heading

/-! Documents in a row. -/

/-- A document as it stands on a page. -/
structure Leaf where
  html : String
  outline : List Heading
  deriving Repr, DecidableEq

/-- What the callbacks around a document are given. -/
def Leaf.state (leaf : Leaf) (times total : Nat) (data : Json.Fields) : WrapState :=
  ⟨leaf.outline, leaf.html, times, total, data⟩

/-- Wraps documents in order over shared data: those from number `times` on, of `total`. -/
def wrapAll (intro outro : Wrap) (total : Nat) :
    Nat → List Leaf → Json.Fields → List Leaf × Json.Fields
  | _, [], data => ([], data)
  | times, leaf :: leaves, data =>
    let done := wrapDocument intro outro (leaf.state times total data)
    let (rest, data) := wrapAll intro outro total (times + 1) leaves done.data
    (⟨done.result, done.headings⟩ :: rest, data)

/-- What becomes of documents that are wrapped in order, and of their shared data. The outro's
callbacks go on from what the intro's leave, and the next document from the data that both left. -/
inductive Threads (intro outro : Wrap) (total : Nat) :
    Nat → List Leaf → Json.Fields → List Leaf → Json.Fields → Prop
  | nil (times : Nat) (data : Json.Fields) : Threads intro outro total times [] data [] data
  | cons {times : Nat} {leaf : Leaf} {leaves done : List Leaf} {data data₁ data' : Json.Fields}
      {before after : List (WrapState → WrapState)} {opening closing : String} {last : WrapState}
      (hintro : intro.Calls (leaf.state times total data) before opening)
      (houtro : outro.Calls (Wrap.left before (leaf.state times total data)) after closing)
      (hlast : last = Wrap.left after (Wrap.left before (leaf.state times total data)))
      (hdata : data.Overridden last.data data₁)
      (hrest : Threads intro outro total (times + 1) leaves data₁ done data') :
      Threads intro outro total times (leaf :: leaves) data
        (⟨opening ++ leaf.html ++ closing, last.headings.filter fun h => decide h.Listed⟩ :: done)
        data'

section Threads

variable {intro outro : Wrap} {total times : Nat} {leaves done : List Leaf}
  {data data' : Json.Fields}

theorem threads_wrapAll (intro outro : Wrap) (total times : Nat) (leaves : List Leaf)
    (data : Json.Fields) : Threads intro outro total times leaves data
      (wrapAll intro outro total times leaves data).1
      (wrapAll intro outro total times leaves data).2 := by
  induction leaves generalizing times data with
  | nil => exact .nil times data
  | cons leaf leaves ih =>
    obtain ⟨before, opening, hintro⟩ := intro.exists_calls (leaf.state times total data)
    obtain ⟨after, closing, houtro⟩ := outro.exists_calls
      (Wrap.left before (leaf.state times total data))
    have hlisted : Heading.isListed = fun h : Heading => decide h.Listed := by
      funext h
      rw [Bool.eq_iff_iff, h.isListed_iff, decide_eq_true_eq]
    have hdone : wrapDocument intro outro (leaf.state times total data) =
        let last := Wrap.left after (Wrap.left before (leaf.state times total data))
        ⟨opening ++ leaf.html ++ closing, last.headings.filter fun h => decide h.Listed,
          data.extend last.data⟩ := by
      rw [wrapDocument, hintro.resolve_eq]
      dsimp only
      rw [houtro.resolve_eq, hlisted]
      rfl
    simp only [wrapAll, hdone]
    exact .cons hintro houtro rfl (Json.Fields.overridden_extend _ _) (ih _ _)

/-- No field of the shared data is lost. -/
theorem Threads.isSome_lookup (h : Threads intro outro total times leaves data done data')
    {name : String} (hname : (data.lookup name).isSome) : (data'.lookup name).isSome := by
  induction h with
  | nil times data => exact hname
  | cons _ _ _ hdata _ ih => exact ih (hdata.isSome hname)

end Threads

end Bindery
