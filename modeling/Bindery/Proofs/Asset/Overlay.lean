import Bindery.Proofs.Asset.Containment
import Bindery.Proofs.Path.Canonical
import Bindery.Proofs.Project.Copies

/-! When two assets are copied to one place. The files of a layout's directory lie in the output tree
where the files of the working root of the same names lie, and no other two files meet there. -/

namespace Bindery

theorem FileTree.placeOf_of_append {base p : Path} {names : List String}
    (h : p.components = base.components ++ names.map .name) : placeOf p = placeOf base ++ names := by
  unfold placeOf
  rw [h, List.filterMap_append, List.filterMap_map]
  simp

namespace Relocation

open FileTree (placeOf)

/-- The source lies above the root of the file system, and its place is told from that root. -/
def Climbs (plan : Relocation) (source : Path) : Prop :=
  (plan.baseFor source).components = [.root] ∧
    ∃ names : List String, source.components = .root :: .up :: names.map .name

/-- The one file lies in the layout's directory as the other one does in the working root, apart from
that directory. -/
def Overlays (plan : Relocation) (p q : Path) : Prop :=
  ∃ dir ∈ plan.layoutDir, dir.isWithin q = false ∧ ∃ rest,
    p.components = dir.components ++ rest ∧ q.components = plan.root.components ++ rest

variable {plan : Relocation} {a b : Asset} {p q : Path}

theorem baseFor_cases (plan : Relocation) (p : Path) :
    plan.baseFor p = plan.root ∧
        (∀ dir ∈ plan.layoutDir, dir.components = plan.root.components ∨ dir.isWithin p = false) ∨
      ∃ dir ∈ plan.layoutDir, plan.baseFor p = dir := by
  unfold baseFor
  split
  · next dir hdir =>
    split
    · exact .inr ⟨dir, hdir, rfl⟩
    · next hnot =>
      refine .inl ⟨rfl, fun dir' hdir' => ?_⟩
      obtain rfl := Option.some.inj (hdir.symm.trans hdir')
      rw [Bool.and_eq_true, not_and, Bool.not_eq_true, decide_eq_true_eq] at hnot
      exact Classical.or_iff_not_imp_left.2 hnot
  · next hnone =>
    refine .inl ⟨rfl, fun dir hdir => ?_⟩
    rw [hnone] at hdir
    cases hdir

/-- Two files lie in the same way below the directories they are taken from. -/
def Meets (plan : Relocation) (p q : Path) : Prop :=
  ∃ rest, p.components = (plan.baseFor p).components ++ rest ∧
    q.components = (plan.baseFor q).components ++ rest

theorem Meets.symm (h : plan.Meets p q) : plan.Meets q p := by
  obtain ⟨rest, hp, hq⟩ := h
  exact ⟨rest, hq, hp⟩

theorem Meets.eq_of_baseFor (h : plan.Meets p q) (hp : p.IsNormal) (hq : q.IsNormal)
    (hbase : (plan.baseFor p).components = (plan.baseFor q).components) : p = q := by
  obtain ⟨rest, hfirst, hsecond⟩ := h
  apply hp.eq_of_components hq
  rw [hfirst, hsecond, hbase]

theorem Overlays.meets (h : plan.Overlays p q) : plan.Meets p q := by
  obtain ⟨dir, hdir, hapart, rest, hp, hq⟩ := h
  have hwithin : dir.isWithin p = true :=
    List.isPrefixOf_iff_prefix.2 (hp ▸ List.prefix_append _ _)
  have hne : dir.components ≠ plan.root.components := by
    intro heq
    rw [Path.isWithin, heq, hq, Bool.eq_false_iff] at hapart
    exact hapart (List.isPrefixOf_iff_prefix.2 (List.prefix_append _ _))
  have hfirst : plan.baseFor p = dir := by
    unfold baseFor
    rw [hdir]
    simp [hne, hwithin]
  have hsecond : plan.baseFor q = plan.root := by
    unfold baseFor
    rw [hdir]
    simp [hapart]
  exact ⟨rest, by rw [hfirst, hp], by rw [hsecond, hq]⟩

theorem meets_iff (hp : p.IsNormal) (hq : q.IsNormal) (hinside : plan.root.isWithin p = true) :
    plan.Meets p q ↔ p = q ∨ plan.Overlays p q ∨ plan.Overlays q p := by
  constructor
  · intro hmeets
    have hsame := hmeets.eq_of_baseFor hp hq
    obtain ⟨rest, hfirst, hsecond⟩ := hmeets
    rcases baseFor_cases plan p with ⟨hbase, hapart⟩ | ⟨dir, hdir, hbase⟩ <;>
      rcases baseFor_cases plan q with ⟨hbase', hapart'⟩ | ⟨dir', hdir', hbase'⟩
    · exact .inl (hsame (by rw [hbase, hbase']))
    · rcases hapart dir' hdir' with heq | hout
      · exact .inl (hsame (by rw [hbase, hbase', heq]))
      · exact .inr (.inr ⟨dir', hdir', hout, rest, hbase' ▸ hsecond, hbase ▸ hfirst⟩)
    · rcases hapart' dir hdir with heq | hout
      · exact .inl (hsame (by rw [hbase, hbase', heq]))
      · exact .inr (.inl ⟨dir, hdir, hout, rest, hbase ▸ hfirst, hbase' ▸ hsecond⟩)
    · have hdirs : dir = dir' := Option.some.inj (hdir.symm.trans hdir')
      exact .inl (hsame (by rw [hbase, hbase', hdirs]))
  · rintro (rfl | hover | hover)
    · obtain ⟨rest, hrest⟩ := List.isPrefixOf_iff_prefix.1 (isWithin_baseFor hinside)
      exact ⟨rest, hrest.symm, hrest.symm⟩
    · exact hover.meets
    · exact hover.meets.symm

/-- A file that does not climb is copied down from the output root as it lies below its base. -/
theorem components_target (hroot : plan.root.IsNormal) (hdist : plan.dist.IsNormal)
    (hlayout : ∀ dir ∈ plan.layoutDir, dir.IsNormal)
    (hinside : plan.root.isWithin a.source.normalize = true)
    (hclimbs : ¬ plan.Climbs a.source.normalize) :
    ∃ names : List String, ∃ target, (plan.place a).target = some target ∧ target.IsNormal ∧
      a.source.normalize.components =
        (plan.baseFor a.source.normalize).components ++ names.map .name ∧
      target.components = plan.dist.components ++ names.map .name := by
  have ha : a.source.isAbsolute = true :=
    Path.isAbsolute_of_normalize (Path.isAbsolute_of_isWithin hroot.absolute hinside)
  obtain ⟨rest, hrest, hsteps, htarget⟩ := target_eq_resolve hroot hdist hlayout ha hinside
  have hsource := Path.isNormal_normalize ha
  have hup : (plan.baseFor a.source.normalize).components = [.root] →
      .up ∉ a.source.normalize.components := fun hbase hup =>
    hclimbs ⟨hbase, hsource.exists_of_up_mem hup⟩
  obtain ⟨names, rfl⟩ := Path.exists_names_of_within
    (isNormal_baseFor hroot hlayout a.source.normalize).absolute hsource hrest hup
  exact ⟨names, _, htarget, isNormal_target hdist hroot hlayout ha htarget, hrest.symm,
    Path.components_resolve_names hdist hsteps⟩

/-- Two files below the working root are copied to one place exactly when they are one file or the one
overlays the other. If they are not, then to copy the one leaves the copy of the other as it is. -/
theorem target_eq_iff_overlays (hroot : plan.root.IsNormal) (hdist : plan.dist.IsNormal)
    (hlayout : ∀ dir ∈ plan.layoutDir, dir.IsNormal)
    (ha : plan.root.isWithin a.source.normalize = true)
    (hb : plan.root.isWithin b.source.normalize = true)
    (hclimbs : ¬ plan.Climbs a.source.normalize) (hclimbs' : ¬ plan.Climbs b.source.normalize) :
    ∃ t u, (plan.place a).target = some t ∧ (plan.place b).target = some u ∧
      (t = u ↔ a.source.normalize = b.source.normalize ∨
        plan.Overlays a.source.normalize b.source.normalize ∨
          plan.Overlays b.source.normalize a.source.normalize) ∧
      (t ≠ u → ∀ before tree, (Bundle.copyAsset before tree (plan.place a)).1.content? (placeOf u) =
        tree.content? (placeOf u)) := by
  obtain ⟨names, t, htarget, ht, hsource, hcomponents⟩ :=
    components_target hroot hdist hlayout ha hclimbs
  obtain ⟨names', u, htarget', hu, hsource', hcomponents'⟩ :=
    components_target hroot hdist hlayout hb hclimbs'
  have hp : a.source.normalize.IsNormal := Path.isNormal_normalize
    (Path.isAbsolute_of_normalize (Path.isAbsolute_of_isWithin hroot.absolute ha))
  have hq : b.source.normalize.IsNormal := Path.isNormal_normalize
    (Path.isAbsolute_of_normalize (Path.isAbsolute_of_isWithin hroot.absolute hb))
  have hinjective : Function.Injective Component.name := fun s s' h => Component.name.inj h
  have hnames : t = u ↔ names = names' := by
    constructor
    · rintro rfl
      exact hinjective.list_map (List.append_cancel_left (hcomponents.symm.trans hcomponents'))
    · rintro rfl
      exact ht.eq_of_components hu (hcomponents.trans hcomponents'.symm)
  have hmeets : names = names' ↔ plan.Meets a.source.normalize b.source.normalize := by
    constructor
    · rintro rfl
      exact ⟨_, hsource, hsource'⟩
    · rintro ⟨rest, hrest, hrest'⟩
      have hfirst := List.append_cancel_left (hsource.symm.trans hrest)
      have hsecond := List.append_cancel_left (hsource'.symm.trans hrest')
      exact hinjective.list_map (hfirst.trans hsecond.symm)
  refine ⟨t, u, htarget, htarget', ?_, ?_⟩
  · rw [hnames, hmeets, meets_iff hp hq ha]
  · intro hne before tree
    apply Bundle.content_copyAsset
    intro v hv
    obtain rfl := Option.some.inj (htarget.symm.trans hv)
    rw [FileTree.placeOf_of_append hcomponents, FileTree.placeOf_of_append hcomponents']
    intro hsame
    exact hne (hnames.2 (List.append_cancel_left hsame).symm)

/-- A picture of the layout meets the picture of the same name, and no other one. -/
theorem target_eq_iff_overlays_theme :
    let plan : Relocation := ⟨⟨"/site"⟩, ⟨"/build"⟩, some ⟨"/site/layouts"⟩, none⟩
    let picture : Asset := { source := ⟨"/site/a.png"⟩, token := default }
    let overlay : Asset := { source := ⟨"/site/layouts/a.png"⟩, token := default }
    let other : Asset := { source := ⟨"/site/layouts/b.png"⟩, token := default }
    plan.Overlays overlay.source.normalize picture.source.normalize ∧
      (plan.place overlay).target = (plan.place picture).target ∧
      (plan.place other).target ≠ (plan.place picture).target := by
  intro plan picture overlay other
  have hroot : plan.root.IsNormal := ⟨by decide +kernel, by decide +kernel⟩
  have hdist : plan.dist.IsNormal := ⟨by decide +kernel, by decide +kernel⟩
  have hlayout : ∀ dir ∈ plan.layoutDir, dir.IsNormal := fun dir hdir => by
    obtain rfl := Option.some.inj hdir
    exact ⟨by decide +kernel, by decide +kernel⟩
  have hfar : ∀ p, (plan.baseFor p).components ≠ [.root] → ¬ plan.Climbs p :=
    fun p hne hclimbs => hne hclimbs.1
  have hpicture : ¬ plan.Climbs picture.source.normalize := hfar _ (by decide +kernel)
  have hover : plan.Overlays overlay.source.normalize picture.source.normalize :=
    ⟨⟨"/site/layouts"⟩, rfl, by decide +kernel, [.name "a.png"], by decide +kernel,
      by decide +kernel⟩
  obtain ⟨t, u, ht, hu, hiff, -⟩ := target_eq_iff_overlays (a := overlay) (b := picture) hroot hdist
    hlayout (by decide +kernel) (by decide +kernel) (hfar _ (by decide +kernel)) hpicture
  refine ⟨hover, by rw [ht, hu, hiff.2 (.inr (.inl hover))], fun heq => ?_⟩
  obtain ⟨t', u', ht', hu', hiff', -⟩ := target_eq_iff_overlays (a := other) (b := picture) hroot
    hdist hlayout (by decide +kernel) (by decide +kernel) (hfar _ (by decide +kernel)) hpicture
  have hsame : t' = u' := Option.some.inj (ht'.symm.trans (heq.trans hu'))
  have hplaces : t' = ⟨"/build/b.png"⟩ ∧ u' = ⟨"/build/a.png"⟩ :=
    ⟨Option.some.inj (ht'.symm.trans (by decide +kernel)),
      Option.some.inj (hu'.symm.trans (by decide +kernel))⟩
  rw [hplaces.1, hplaces.2] at hsame
  exact absurd hsame (by decide)

/-- Files below the working root do not all have places of their own. -/
theorem exists_overlaid : ¬ ∀ (plan : Relocation) (a b : Asset), plan.root.IsNormal →
    plan.dist.IsNormal → (∀ dir ∈ plan.layoutDir, dir.IsNormal) →
    plan.root.isWithin a.source.normalize = true → plan.root.isWithin b.source.normalize = true →
    a.source.normalize ≠ b.source.normalize → (plan.place a).target ≠ (plan.place b).target := by
  intro h
  refine h ⟨⟨"/site"⟩, ⟨"/build"⟩, some ⟨"/site/layouts"⟩, none⟩
    { source := ⟨"/site/layouts/a.png"⟩, token := default }
    { source := ⟨"/site/a.png"⟩, token := default } ⟨by decide +kernel, by decide +kernel⟩
    ⟨by decide +kernel, by decide +kernel⟩ (fun dir hdir => ?_) (by decide +kernel)
    (by decide +kernel) (by decide +kernel) (by decide +kernel)
  obtain rfl := Option.some.inj hdir
  exact ⟨by decide +kernel, by decide +kernel⟩

end Relocation
end Bindery
