import Bindery.Proofs.Path.Canonical
import Bindery.Proofs.Path.Way

/-! Relative paths undo resolution. Between absolute paths with nothing to normalize, the relative path
from one to the other is resolved to where it was taken to, it is never absolute or empty, and it climbs
exactly when it has to. Two paths are compared by their components here, as far as their texts may
differ in slashes and dots that stand for no step. -/

namespace Bindery.Path

variable {base target : Path}

/-- Absolute, and with the components that normalization leaves. -/
structure IsSettled (p : Path) : Prop where
  absolute : p.isAbsolute = true
  components_normalize_eq : p.normalize.components = p.components

theorem IsNormal.isSettled {p : Path} (h : p.IsNormal) : p.IsSettled :=
  ⟨h.absolute, congrArg components h.normalize_eq⟩

theorem IsSettled.isNormal_normalize {p : Path} (h : p.IsSettled) : p.normalize.IsNormal :=
  Path.isNormal_normalize h.absolute

/-- The way between two paths is read off their components. -/
theorem relative_congr {base' target' : Path} (hbase : base.components = base'.components)
    (htarget : target.components = target'.components) :
    base.relative target = base'.relative target' := by
  unfold relative
  rw [hbase, htarget]

theorem resolve_congr {base' : Path} (hbase : base.isAbsolute = true)
    (hbase' : base'.isAbsolute = true) (h : base.components = base'.components)
    (htarget : target.isAbsolute = false) : base.resolve target = base'.resolve target := by
  rw [resolve_eq hbase htarget, resolve_eq hbase' htarget, h]

theorem IsSettled.resolve_relative (hbase : base.IsSettled) (htarget : target.IsSettled) :
    base.resolve (base.relative target) = target.normalize := by
  have hway : base.relative target = base.normalize.relative target.normalize :=
    relative_congr hbase.components_normalize_eq.symm htarget.components_normalize_eq.symm
  have hrelative : (base.relative target).isAbsolute = false :=
    not_isAbsolute_relative hbase.absolute htarget.absolute
  calc base.resolve (base.relative target)
      = base.normalize.resolve (base.relative target) :=
        resolve_congr hbase.absolute hbase.isNormal_normalize.absolute
          hbase.components_normalize_eq.symm hrelative
    _ = base.normalize.resolve (base.normalize.relative target.normalize) := by rw [hway]
    _ = target.normalize :=
        Path.resolve_relative hbase.isNormal_normalize htarget.isNormal_normalize

theorem text_ofSteps_ne_empty {steps : List Component} (h : ∀ c ∈ steps, c.IsStep) :
    (ofSteps steps).text ≠ "" := by
  intro hempty
  have hnone : (ofSteps steps).components = [] := by
    have heq : ofSteps steps = ⟨""⟩ := congrArg Path.mk hempty
    rw [heq]
    decide
  rw [components_ofSteps h] at hnone
  split at hnone
  · cases hnone
  · next hsome => exact hsome (List.isEmpty_iff.2 hnone)

theorem text_relative_ne_empty (hbase : base.isAbsolute = true) (htarget : target.isAbsolute = true) :
    (base.relative target).text ≠ "" := by
  obtain ⟨steps, hsteps, hway⟩ := relative_eq_ofSteps hbase htarget
  rw [hway]
  exact text_ofSteps_ne_empty hsteps

theorem up_notMem_components_ofSteps_iff {steps : List Component} (h : ∀ c ∈ steps, c.IsStep) :
    .up ∉ (ofSteps steps).components ↔ .up ∉ steps := by
  rw [components_ofSteps h]
  cases steps with
  | nil => simp
  | cons c steps => rfl

/-- The way climbs when it leaves the directory it starts from, and on the way down only behind the root
of the file system. -/
theorem IsSettled.up_notMem_relative_iff (hbase : base.IsSettled) (htarget : target.IsSettled) :
    .up ∉ (base.relative target).components ↔
      base.isWithin target = true ∧ (base.components = [.root] → .up ∉ target.components) := by
  constructor
  · obtain ⟨common, back, forth, hforth, hb, ht, hway⟩ :=
      relative_eq hbase.absolute htarget.absolute
    -- Behind what is common, one path has the steps that the way takes back, the other those that
    -- it takes forth.
    rw [hway, up_notMem_components_ofSteps_iff (isStep_of_mem_way hforth)]
    intro hup
    -- A directory to climb out of would be a step up in the way.
    have hback : back = [] := by
      apply List.eq_nil_iff_forall_not_mem.2
      intro c hc
      exact hup (List.mem_append_left _ (List.mem_map.2 ⟨c, hc, rfl⟩))
    subst hback
    rw [List.append_nil] at hb
    refine ⟨List.isPrefixOf_iff_prefix.2 ⟨forth, ?_⟩, fun hroot => ?_⟩
    · rw [hb, ht]
      rfl
    · obtain rfl : common = [] := (List.cons.inj (hb.symm.trans hroot)).2
      rw [ht]
      rintro (_ | ⟨_, hmem⟩)
      exact hup hmem
  · rintro ⟨hwithin, hroot⟩
    obtain ⟨rest, hrest⟩ := List.isPrefixOf_iff_prefix.1 hwithin
    obtain ⟨hsteps, hway⟩ := relative_of_append hbase.absolute hrest.symm
    have hsame := htarget.components_normalize_eq
    -- Behind a directory that is not the root, normalization leaves names alone.
    obtain ⟨names, rfl⟩ := exists_names_of_within hbase.absolute htarget.isNormal_normalize
      (hrest.trans hsame.symm) (by rwa [hsame])
    rw [hway, up_notMem_components_ofSteps_iff hsteps]
    simp

/-- The relative path from a settled path to another leads there, by its text too if that is normal; it
is neither absolute nor empty; and it holds no step up exactly when its end lies within its start, but for
a step up behind the root of the file system. -/
theorem relative_undoes_resolve (hbase : base.IsSettled) (htarget : target.IsSettled) :
    (base.resolve (base.relative target)).components = target.components ∧
    (target.normalize = target → base.resolve (base.relative target) = target) ∧
    (base.relative target).isAbsolute = false ∧
    (base.relative target).text ≠ "" ∧
    (.up ∉ (base.relative target).components ↔
      base.isWithin target = true ∧ (base.components = [.root] → .up ∉ target.components)) := by
  have hleads := hbase.resolve_relative htarget
  refine ⟨?_, fun hnormal => hleads.trans hnormal,
    not_isAbsolute_relative hbase.absolute htarget.absolute,
    text_relative_ne_empty hbase.absolute htarget.absolute, hbase.up_notMem_relative_iff htarget⟩
  rw [hleads]
  exact htarget.components_normalize_eq

/-- From a directory that is written with a slash behind it to a file above the root. -/
theorem relative_undoes_resolve_above : IsSettled ⟨"/site//docs/"⟩ ∧ IsSettled ⟨"/../a.md"⟩ ∧
    (⟨"/site//docs/"⟩ : Path).relative ⟨"/../a.md"⟩ = ⟨"../../../a.md"⟩ ∧
    (⟨"/site//docs/"⟩ : Path).resolve ⟨"../../../a.md"⟩ = ⟨"/../a.md"⟩ := by
  have hbase : IsSettled ⟨"/site//docs/"⟩ := ⟨by decide +kernel, by decide +kernel⟩
  have htarget : IsSettled ⟨"/../a.md"⟩ := ⟨by decide +kernel, by decide +kernel⟩
  have hway : (⟨"/site//docs/"⟩ : Path).relative ⟨"/../a.md"⟩ = ⟨"../../../a.md"⟩ := by
    decide +kernel
  obtain ⟨-, hleads, -⟩ := relative_undoes_resolve hbase htarget
  refine ⟨hbase, htarget, hway, ?_⟩
  rw [← hway]
  exact hleads (by decide +kernel)

end Bindery.Path
