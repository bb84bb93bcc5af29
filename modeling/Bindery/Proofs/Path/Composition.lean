import Bindery.Proofs.Path.Canonical
import Bindery.Rendering.Productions

/-! Resolution in stages. Joining is associative on the texts of paths, and a walk goes on from what
a normalized path holds as from the stack that normalization ended with, so it makes no difference
which of the directories on a route are normalized before the next one is entered. -/

namespace Bindery

namespace Path

/-- What joining puts between a path and a relative one behind it. -/
def gap (p : Path) : String :=
  if p.text.isEmpty || p.text.toList.getLast? == some '/' then "" else "/"

theorem gap_eq_empty_iff {p : Path} : p.gap = "" ↔ ∀ c ∈ p.text.toList.getLast?, c = '/' := by
  unfold gap
  cases hlast : p.text.toList.getLast? with
  | none => simp_all
  | some c =>
    have hne : p.text ≠ "" := by
      rintro hempty
      simp [hempty] at hlast
    simp [hne]

theorem gap_eq_slash {p : Path} (h : p.gap ≠ "") : p.gap = "/" := if_neg fun hend => h (if_pos hend)

theorem join_of_absolute {target : Path} (h : target.isAbsolute = true) (base : Path) :
    base.join target = target := if_pos h

theorem join_of_relative {target : Path} (h : target.isAbsolute = false) (base : Path) :
    base.join target = ⟨base.text ++ base.gap ++ target.text⟩ := by
  unfold join gap
  rw [if_neg (by simp [h])]
  split <;> simp

theorem join_of_empty {base : Path} (h : base.text = "") (target : Path) :
    base.join target = target := by
  unfold join
  split <;> simp [h]

/-- What follows a path depends on its end alone, and an empty part leaves an end in a slash. -/
theorem gap_join {target : Path} (h : target.isAbsolute = false) (base : Path) :
    (base.join target).gap = target.gap := by
  rw [join_of_relative h]
  by_cases htarget : target.text = ""
  · have hnone : target.gap = "" := gap_eq_empty_iff.2 (by simp [htarget])
    rw [hnone, htarget, String.append_empty, gap_eq_empty_iff]
    by_cases hbase : base.gap = ""
    · rw [hbase, String.append_empty]
      exact gap_eq_empty_iff.1 hbase
    · simp [gap_eq_slash hbase]
  · have hne : target.text.toList ≠ [] := fun hnil => htarget (String.toList_inj.1 hnil)
    unfold gap
    simp [List.getLast?_append_of_ne_nil _ hne, htarget]

theorem isAbsolute_join (base target : Path) :
    (base.join target).isAbsolute = (target.isAbsolute || base.isAbsolute) := by
  cases htarget : target.isAbsolute with
  | true => rw [join_of_absolute htarget, htarget, Bool.true_or]
  | false =>
    rw [Bool.false_or]
    by_cases hbase : base.text = ""
    · have hempty : base = ⟨""⟩ := congrArg Path.mk hbase
      rw [join_of_empty hbase, htarget, hempty]
      rfl
    · rw [join_of_relative htarget, String.append_assoc]
      exact isAbsolute_append hbase _

theorem join_assoc (a b c : Path) : (a.join b).join c = a.join (b.join c) := by
  cases hc : c.isAbsolute with
  | true =>
    rw [join_of_absolute hc, join_of_absolute hc, join_of_absolute hc]
  | false =>
    cases hb : b.isAbsolute with
    | true =>
      have hbc : (b.join c).isAbsolute = true := by
        rw [isAbsolute_join, hb, Bool.or_true]
      rw [join_of_absolute hb, join_of_absolute hbc]
    | false =>
      have hbc : (b.join c).isAbsolute = false := by
        rw [isAbsolute_join, hb, hc]
        rfl
      rw [join_of_relative hbc, join_of_relative hc, gap_join hb, join_of_relative hb,
        join_of_relative hc]
      simp only [String.append_assoc]

/-! Walks over joined and over normalized paths. -/

theorem walk_components_of_relative {p : Path} (h : p.isAbsolute = false) :
    walk [] p.components = walk [] p.steps := by
  rcases components_of_relative h with hcomponents | hcomponents <;> rw [hcomponents] <;> rfl

/-- A walk along a relative path goes on where the walk to its base has ended. -/
theorem walk_components_join {target : Path} (h : target.isAbsolute = false) (base : Path) :
    walk [] (base.join target).components = walk (walk [] base.components) target.steps := by
  by_cases hbase : base.text = ""
  · have hempty : base = ⟨""⟩ := congrArg Path.mk hbase
    rw [join_of_empty hbase, walk_components_of_relative h, hempty]
    rfl
  · rw [components_join hbase h, walk_append]
    rfl

/-- A target is found from a directory as it is written as from the normalized one. -/
theorem resolve_normalize (base target : Path) :
    base.normalize.resolve target = base.resolve target := by
  unfold resolve
  cases h : target.isAbsolute with
  | true => rw [join_of_absolute h, join_of_absolute h]
  | false =>
    rw [normalize_eq, normalize_eq (base.join target), walk_components_join h,
      walk_components_join h, walk_components_normalize]

theorem resolve_resolve (a b c : Path) : (a.resolve b).resolve c = a.resolve (b.join c) := by
  have hbase : (a.resolve b).resolve c = (a.join b).resolve c := resolve_normalize (a.join b) c
  rw [hbase, resolve, join_assoc]
  rfl

/-! Routes of several directories, and what is registered at the end of one. -/

/-- One directory further on a route; it is normalized there when `settles` holds. -/
def advance (base : Path) : Path × Bool → Path
  | (dir, true) => base.resolve dir
  | (dir, false) => base.join dir

theorem resolve_advance (base target : Path) (stage : Path × Bool) :
    (base.advance stage).resolve target = (base.join stage.1).resolve target := by
  obtain ⟨dir, settles⟩ := stage
  cases settles with
  | true => exact resolve_normalize (base.join dir) target
  | false => rfl

theorem resolve_route (base target : Path) (route : List (Path × Bool)) :
    (route.foldl advance base).resolve target =
      ((route.map Prod.fst).foldl join base).resolve target := by
  -- From the last directory, which is joined to the target that is looked for from those before.
  induction route using List.reverseRecOn generalizing target with
  | nil => rfl
  | append_singleton route stage ih =>
    simp only [List.foldl_append, List.map_append, List.map_cons, List.map_nil, List.foldl_cons,
      List.foldl_nil]
    rw [resolve_advance, resolve, join_assoc]
    exact (ih (stage.1.join target)).trans (congrArg normalize (join_assoc _ _ _).symm)

/-- Resolving in two stages is resolving the joined path, normalizing is done once, and a file is
registered under one key however the route to its directory was normalized. -/
theorem resolution_composes :
    (∀ a b c : Path, (a.resolve b).resolve c = a.resolve (b.join c)) ∧
    (∀ p : Path, p.normalize.normalize = p.normalize) ∧
    ∀ (registry : RegistryId) (base : Path) (route : List (Path × Bool)) (target : List Char)
      (store : Store), Productions.register registry (route.foldl advance base) target store =
        Productions.register registry ((route.map Prod.fst).foldl join base) target store := by
  refine ⟨resolve_resolve, normalize_normalize, fun registry base route target store => ?_⟩
  unfold Productions.register
  rw [resolve_route]

end Path
end Bindery
