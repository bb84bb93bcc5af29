import Bindery.Proofs.Asset.Placement
import Bindery.Proofs.Path.Way

/-! Whether an asset is copied into the output tree. The path of a copy goes down from the output root,
unless the source lies above the root of the file system and the working root does not. -/

namespace Bindery

namespace Relocation

/-- The source lies above the root of the file system, its place is told from that root, and the
output root is another directory, to which the names of the source do not lead back. -/
def Strays (plan : Relocation) (source : Path) : Prop :=
  (plan.baseFor source).components = [.root] ∧ ∃ names : List String,
    source.components = .root :: .up :: names.map .name ∧ plan.dist.components ≠ [.root] ∧
      (names.map Component.name).head? ≠ plan.dist.components.getLast?

variable {plan : Relocation} {a : Asset}

/-- The way that a copy takes from the output root is the one that its source takes from its base. -/
theorem target_eq_resolve (hroot : plan.root.IsNormal) (hdist : plan.dist.IsNormal)
    (hlayout : ∀ dir ∈ plan.layoutDir, dir.IsNormal) (ha : a.source.isAbsolute = true)
    (hwithin : plan.root.isWithin a.source.normalize = true) :
    ∃ rest, (plan.baseFor a.source.normalize).components ++ rest = a.source.normalize.components ∧
      (∀ c ∈ rest, c.IsStep) ∧
      (plan.place a).target = some (plan.dist.resolve (Path.ofSteps rest)) := by
  have hsource := Path.isNormal_normalize ha
  have hbase := isNormal_baseFor hroot hlayout a.source.normalize
  obtain ⟨rest, hrest⟩ := List.isPrefixOf_iff_prefix.1 (isWithin_baseFor hwithin)
  obtain ⟨hsteps, hway⟩ := Path.relative_of_append hbase.absolute hrest.symm
  refine ⟨rest, hrest, hsteps, ?_⟩
  have hrelative := Path.not_isAbsolute_relative hbase.absolute hsource.absolute
  rw [target_place, via_place_of_within hwithin, Option.map_some,
    Path.url_relative hbase.absolute hsource.absolute, Path.resolve_dotted hdist.absolute hrelative,
    hway]

/-- An asset is copied to a place outside of the output root exactly when its source strays. An asset
outside of the working root has no place. -/
theorem target_outside_iff_strays (hroot : plan.root.IsNormal) (hdist : plan.dist.IsNormal)
    (hlayout : ∀ dir ∈ plan.layoutDir, dir.IsNormal) (ha : a.source.isAbsolute = true) :
    let source := a.source.normalize
    let placed := plan.place a
    (∀ target, placed.target = some target →
      (plan.dist.isWithin target = false ↔ plan.Strays source)) ∧
    (plan.root.isWithin source = false → placed.target = none ∧ placed.via = none) := by
  intro source placed
  refine ⟨fun target htarget => ?_, fun hout => (place_of_not_within hout).symm⟩
  cases hwithin : plan.root.isWithin source with
  | false =>
    rw [(place_of_not_within hwithin).2] at htarget
    cases htarget
  | true =>
    obtain ⟨rest, hrest, hsteps, hplace⟩ := target_eq_resolve hroot hdist hlayout ha hwithin
    obtain rfl := Option.some.inj (hplace.symm.trans htarget)
    obtain ⟨bs, -, hbase⟩ :=
      Path.exists_steps (isNormal_baseFor hroot hlayout a.source.normalize).absolute
    rw [hbase, List.cons_append] at hrest
    obtain ⟨names, hnames | hnames⟩ := (Path.isNormal_normalize ha).exists_names
    · -- The source lies below the root, and so do all ways to it.
      rw [hnames] at hrest
      obtain ⟨names', rfl⟩ := Path.exists_names_of_append (List.cons.inj hrest).2
      rw [Path.isWithin_resolve_names hdist hsteps]
      refine iff_of_false nofun ?_
      rintro ⟨-, names'', habove, -⟩
      cases names with
      | nil => cases hnames.symm.trans habove
      | cons s names => cases hnames.symm.trans habove
    · rw [hnames] at hrest
      cases bs with
      | nil =>
        -- The step up is on the way from the base.
        obtain rfl : rest = .up :: names.map .name := (List.cons.inj hrest).2
        rw [Path.isWithin_resolve_up hdist hsteps]
        constructor
        · exact fun h => ⟨hbase, names, hnames, h⟩
        · rintro ⟨-, names', hnames', h⟩
          have hsame : Component.root :: .up :: names.map .name = .root :: .up :: names'.map .name :=
            hnames.symm.trans hnames'
          rw [(List.cons.inj (List.cons.inj hsame).2).2]
          exact h
      | cons b bs =>
        rw [List.cons_append] at hrest
        obtain ⟨names', rfl⟩ := Path.exists_names_of_append (List.cons.inj (List.cons.inj hrest).2).2
        rw [Path.isWithin_resolve_names hdist hsteps]
        refine iff_of_false nofun fun hstrays => ?_
        cases hbase.symm.trans hstrays.1

/-- With the root of the file system for the working root, a file above it is copied beside the
output root, and a file below it into the output root. -/
theorem target_outside_iff_strays_above :
    let plan : Relocation := ⟨⟨"/"⟩, ⟨"/build"⟩, none, none⟩
    let above : Asset := { source := ⟨"/docs/../../x.png"⟩, token := default }
    let below : Asset := { source := ⟨"/docs/../x.png"⟩, token := default }
    ((plan.place above).target = some ⟨"/x.png"⟩ ∧ plan.dist.isWithin ⟨"/x.png"⟩ = false) ∧
      (plan.place below).target = some ⟨"/build/x.png"⟩ ∧ ¬ plan.Strays below.source.normalize := by
  intro plan above below
  have hroot : plan.root.IsNormal := ⟨by decide +kernel, by decide +kernel⟩
  have hdist : plan.dist.IsNormal := ⟨by decide +kernel, by decide +kernel⟩
  have hlayout : ∀ dir ∈ plan.layoutDir, dir.IsNormal := nofun
  have habove : (plan.place above).target = some ⟨"/x.png"⟩ := by decide +kernel
  have hbelow : (plan.place below).target = some ⟨"/build/x.png"⟩ := by decide +kernel
  have hstrays : plan.Strays above.source.normalize :=
    ⟨by decide +kernel, ["x.png"], by decide +kernel, by decide +kernel, by decide +kernel⟩
  refine ⟨⟨habove, ?_⟩, hbelow, fun hstrays => ?_⟩
  · exact ((target_outside_iff_strays hroot hdist hlayout (by decide +kernel)).1 _ habove).2 hstrays
  · have hout := ((target_outside_iff_strays hroot hdist hlayout (by decide +kernel)).1 _ hbelow).2
      hstrays
    exact absurd hout (by decide +kernel)

end Relocation
end Bindery
