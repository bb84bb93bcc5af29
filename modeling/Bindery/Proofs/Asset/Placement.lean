import Bindery.Asset.Relocation
import Bindery.Proofs.Path.Extension

/-! A placed asset and the paths to it. The path below the output root leads to the source from the
directory it was taken from, and the path in a page leads to the asset from the page. -/

namespace Bindery.Relocation

variable {plan : Relocation} {a : Asset}

theorem isNormal_baseFor (hroot : plan.root.IsNormal)
    (hlayout : ∀ dir ∈ plan.layoutDir, dir.IsNormal) (source : Path) :
    (plan.baseFor source).IsNormal := by
  unfold baseFor
  split
  · next dir hdir =>
    split
    · exact hlayout dir hdir
    · exact hroot
  · exact hroot

theorem baseFor_of_layout (hroot : plan.root.IsNormal) {dir source : Path} (hdir : dir.IsNormal)
    (hlayout : plan.layoutDir = some dir) (hne : dir ≠ plan.root)
    (hwithin : dir.isWithin source = true) : plan.baseFor source = dir := by
  have hcomponents : dir.components ≠ plan.root.components := fun h =>
    hne (hdir.eq_of_components hroot h)
  unfold baseFor
  rw [hlayout]
  simp [hcomponents, hwithin]

theorem baseFor_of_root {source : Path}
    (h : ∀ dir ∈ plan.layoutDir, dir = plan.root ∨ dir.isWithin source = false) :
    plan.baseFor source = plan.root := by
  unfold baseFor
  split
  · next dir hdir =>
    rcases h dir hdir with rfl | hwithin
    · simp
    · simp [hwithin]
  · rfl

theorem source_place : (plan.place a).source = a.source.normalize := by
  unfold place
  dsimp only
  split <;> rfl

theorem isMarked_place : (plan.place a).isMarked = a.isMarked := by
  unfold place
  dsimp only
  split <;> rfl

theorem place_isMaster (b : Bool) :
    plan.place { a with isMaster := b } = { plan.place a with isMaster := b } := by
  unfold place
  dsimp only
  split <;> rfl

theorem via_place_of_within (h : plan.root.isWithin a.source.normalize = true) :
    (plan.place a).via = some
      ("./" ++ ((plan.baseFor a.source.normalize).relative a.source.normalize).url) := by
  rw [place, if_pos h]

theorem place_of_not_within (h : plan.root.isWithin a.source.normalize = false) :
    (plan.place a).via = none ∧ (plan.place a).target = none := by
  have hnot : ¬ plan.root.isWithin a.source.normalize = true := by simp [h]
  rw [place, if_neg hnot]
  exact ⟨rfl, rfl⟩

/-- A target is the path below the output root, taken from there. -/
theorem target_place : (plan.place a).target =
    (plan.place a).via.map fun via => plan.dist.resolve ⟨via⟩ := by
  unfold place
  dsimp only
  split <;> rfl

/-- The path below the output root leads back to the source. -/
theorem resolve_via {via : String} (hroot : plan.root.IsNormal)
    (hlayout : ∀ dir ∈ plan.layoutDir, dir.IsNormal) (ha : a.source.isAbsolute = true)
    (hvia : (plan.place a).via = some via) :
    (plan.baseFor a.source.normalize).resolve ⟨via⟩ = a.source.normalize := by
  have hsource := Path.isNormal_normalize ha
  have hbase := isNormal_baseFor hroot hlayout a.source.normalize
  cases hwithin : plan.root.isWithin a.source.normalize with
  | false =>
    rw [(place_of_not_within hwithin).1] at hvia
    cases hvia
  | true =>
    rw [via_place_of_within hwithin] at hvia
    obtain rfl := Option.some.inj hvia
    have hway := Path.not_isAbsolute_relative hbase.absolute hsource.absolute
    rw [Path.url_relative hbase.absolute hsource.absolute, Path.resolve_dotted hbase.absolute hway]
    exact Path.resolve_relative hbase hsource

theorem isNormal_target (hdist : plan.dist.IsNormal) (hroot : plan.root.IsNormal)
    (hlayout : ∀ dir ∈ plan.layoutDir, dir.IsNormal) (ha : a.source.isAbsolute = true)
    {target : Path} (h : (plan.place a).target = some target) : target.IsNormal := by
  cases hwithin : plan.root.isWithin a.source.normalize with
  | false =>
    rw [(place_of_not_within hwithin).2] at h
    cases h
  | true =>
    rw [target_place, via_place_of_within hwithin] at h
    obtain rfl := Option.some.inj h
    have hbase := isNormal_baseFor hroot hlayout a.source.normalize
    rw [Path.url_relative hbase.absolute (Path.isNormal_normalize ha).absolute]
    exact Path.isNormal_resolve hdist.absolute (Path.not_isAbsolute_dotted _)

/-- Where a placed asset lies is normal, in the output tree as outside of the root. -/
theorem isNormal_place (hdist : plan.dist.IsNormal) (hroot : plan.root.IsNormal)
    (hlayout : ∀ dir ∈ plan.layoutDir, dir.IsNormal) (ha : a.source.isAbsolute = true) :
    ((plan.place a).target.getD (plan.place a).source).IsNormal := by
  cases htarget : (plan.place a).target with
  | some target => exact isNormal_target hdist hroot hlayout ha htarget
  | none =>
    rw [Option.getD_none, source_place]
    exact Path.isNormal_normalize ha

theorem isWithin_baseFor {source : Path} (h : plan.root.isWithin source = true) :
    (plan.baseFor source).isWithin source = true := by
  unfold baseFor
  split
  · split
    · next hdir => exact (Bool.and_eq_true_iff.1 hdir).2
    · exact h
  · exact h

/-- The page of a document has the name of a page, unless it is the directory that sources keep
their places below: then its place is the output root. -/
theorem isPage_target_or {d : Path} (hroot : plan.root.IsNormal) (hdist : plan.dist.IsNormal)
    (hlayout : ∀ dir ∈ plan.layoutDir, dir.IsNormal) (hd : d.IsNormal)
    (hmarkdown : d.isMarkdown = true) (ha : a.source = d.withExtension "html") :
    ((plan.place a).target.getD (d.withExtension "html")).IsPage ∨
      plan.baseFor (d.withExtension "html") = d.withExtension "html" ∧
        (plan.place a).target = some plan.dist := by
  obtain ⟨steps, s, t, hcomponents, hpage, hnormal, hisPage⟩ := Path.withExtension_html hd hmarkdown
  have hsource : a.source.normalize = d.withExtension "html" := by rw [ha, hnormal.normalize_eq]
  cases hwithin : plan.root.isWithin a.source.normalize with
  | false =>
    rw [(place_of_not_within hwithin).2]
    exact .inl hisPage
  | true =>
    rw [target_place, via_place_of_within hwithin, hsource, Option.map_some, Option.getD_some]
    rw [hsource] at hwithin
    have hbase := isNormal_baseFor hroot hlayout (d.withExtension "html")
    have hinside := isWithin_baseFor hwithin
    generalize plan.baseFor (d.withExtension "html") = base at hbase hinside ⊢
    obtain ⟨rest, hrest⟩ := List.isPrefixOf_iff_prefix.1 hinside
    obtain ⟨hsteps, hway⟩ := Path.relative_of_append hbase.absolute hrest.symm
    have hrel := Path.not_isAbsolute_relative hbase.absolute hnormal.absolute
    rw [Path.url_relative hbase.absolute hnormal.absolute,
      Path.resolve_dotted hdist.absolute hrel]
    rcases List.eq_nil_or_concat rest with rfl | ⟨front, c, rfl⟩
    · rw [List.append_nil] at hrest
      obtain rfl := hbase.eq_of_components hnormal hrest
      exact .inr ⟨rfl, congrArg some (Path.resolve_relative_self hbase.absolute hdist)⟩
    · rw [List.concat_eq_append] at hrest hway hsteps
      rw [hpage, ← List.append_assoc, ← List.cons_append] at hrest
      obtain rfl : c = .name t := by simpa using (List.append_inj' hrest rfl).2
      have hends : (base.relative (d.withExtension "html")).steps = front ++ [.name t] := by
        rw [hway]
        exact Path.steps_ofSteps hsteps
      obtain ⟨front', hfront'⟩ := Path.components_resolve_concat hdist.absolute hrel hends
      obtain ⟨front'', s', before, hcomponents', hs'⟩ := hisPage
      rw [hpage, ← List.cons_append] at hcomponents'
      obtain rfl : t = s' := by simpa using (List.append_inj' hcomponents' rfl).2
      exact .inl ⟨front', t, before, hfront', hs'⟩

/-- The place of a document's page has the name of a page. -/
theorem isPage_target {d : Path} (hroot : plan.root.IsNormal) (hdist : plan.dist.IsNormal)
    (hlayout : plan.layoutDir = none) (hd : d.IsNormal) (hmarkdown : d.isMarkdown = true)
    (hinside : plan.root.isWithin d = true) (ha : a.source = d.withExtension "html") :
    ((plan.place a).target.getD (d.withExtension "html")).IsPage := by
  have hnone : ∀ dir ∈ plan.layoutDir, dir.IsNormal := by simp [hlayout]
  refine (isPage_target_or hroot hdist hnone hd hmarkdown ha).resolve_right ?_
  rintro ⟨hbase, -⟩
  rw [baseFor_of_root (by simp [hlayout])] at hbase
  -- The root would be the page, and so could not hold the document beside the page.
  obtain ⟨steps, s, t, hcomponents, hpage, -, hisPage⟩ := Path.withExtension_html hd hmarkdown
  obtain ⟨rest, hrest⟩ := List.isPrefixOf_iff_prefix.1 hinside
  rw [hbase, hpage, hcomponents] at hrest
  have hlength := congrArg List.length hrest
  have hnil : rest = [] := by simpa using hlength
  rw [hnil, List.append_nil] at hrest
  refine absurd ?_ (hisPage.placeOf_ne hmarkdown)
  unfold FileTree.placeOf
  rw [hpage, hcomponents, hrest]

/-- The path in a page leads from the page to the asset. -/
theorem resolve_replacement {outfile dir : Path} (houtfile : plan.outfile = some outfile)
    (hnormal : outfile.IsNormal) (hparent : outfile.parent? = some dir)
    (ha : (a.target.getD a.source).IsNormal) :
    dir.resolve ⟨plan.replacement a⟩ = a.target.getD a.source := by
  have hdir := hnormal.parent hparent
  unfold replacement
  rw [houtfile]
  simp only [hparent, Option.getD_some]
  rw [Path.url_relative hdir.absolute ha.absolute]
  exact Path.resolve_relative hdir ha

/-- Where a file lies in the end: at its place in the output tree, or where it is. -/
def goal (plan : Relocation) (p : Path) : Path :=
  let placed := plan.place { source := p, token := default }
  placed.target.getD placed.source

/-- The path to a file in a page. -/
def wayTo (plan : Relocation) (file p : Path) : String :=
  ((file.parent?.getD plan.root).relative (plan.goal p)).url

theorem goal_source : plan.goal a.source = (plan.place a).target.getD (plan.place a).source := by
  unfold goal place
  dsimp only
  split <;> rfl

theorem place_place (h : a.source.IsNormal) : plan.place (plan.place a) = plan.place a := by
  unfold place
  dsimp only
  rw [h.normalize_eq]
  split
  · next hwithin => simp [h.normalize_eq, hwithin]
  · next hwithin => simp [h.normalize_eq, hwithin]

/-- The file of a page does not matter for the places of the assets. -/
theorem place_outfile (outfile : Option Path) :
    ({ plan with outfile } : Relocation).place a = plan.place a := rfl

theorem wayTo_outfile (outfile : Option Path) (file p : Path) :
    ({ plan with outfile } : Relocation).wayTo file p = plan.wayTo file p := rfl

theorem isNormal_goal (hdist : plan.dist.IsNormal) (hroot : plan.root.IsNormal)
    (hlayout : ∀ dir ∈ plan.layoutDir, dir.IsNormal) {p : Path} (hp : p.IsNormal) :
    (plan.goal p).IsNormal :=
  isNormal_place (a := { source := p, token := default }) hdist hroot hlayout hp.absolute

theorem replacement_eq_wayTo {file : Path} (hfile : plan.outfile = some file)
    (ha : plan.place a = a) : plan.replacement a = plan.wayTo file a.source := by
  unfold replacement wayTo
  rw [hfile, goal_source, ha]

/-- The path to a file in a page leads there from the directory of the page. -/
theorem resolve_wayTo (hdist : plan.dist.IsNormal) (hroot : plan.root.IsNormal)
    (hlayout : ∀ dir ∈ plan.layoutDir, dir.IsNormal) {file p : Path} (hfile : file.IsNormal)
    (hp : p.IsNormal) :
    (file.parent?.getD plan.root).resolve ⟨plan.wayTo file p⟩ = plan.goal p := by
  have hgoal := isNormal_goal hdist hroot hlayout hp
  have hdir : (file.parent?.getD plan.root).IsNormal := by
    cases hparent : file.parent? with
    | none => exact hroot
    | some dir => exact hfile.parent hparent
  unfold wayTo
  rw [Path.url_relative hdir.absolute hgoal.absolute]
  exact Path.resolve_relative hdir hgoal

/-- The paths of a placed asset point at it: the one in a page from the directory of the page, and
the one below the output root from the output root and, at the source, from where it was taken. -/
theorem resolve_place (hroot : plan.root.IsNormal) (hdist : plan.dist.IsNormal)
    (hlayout : ∀ dir ∈ plan.layoutDir, dir.IsNormal) (ha : a.source.isAbsolute = true) :
    let source := a.source.normalize
    let placed := plan.place a
    (∀ outfile dir, outfile.IsNormal → outfile.parent? = some dir →
      let page : Relocation := { plan with outfile := some outfile }
      dir.resolve ⟨page.replacement (page.place a)⟩ = placed.target.getD source) ∧
    (∀ via, placed.via = some via →
      (∀ dir, plan.layoutDir = some dir → dir ≠ plan.root → dir.isWithin source = true →
        dir.resolve ⟨via⟩ = source) ∧
      ((∀ dir ∈ plan.layoutDir, dir = plan.root ∨ dir.isWithin source = false) →
        plan.root.resolve ⟨via⟩ = source) ∧
      placed.target = some (plan.dist.resolve ⟨via⟩)) ∧
    (placed.via.isSome = plan.root.isWithin source ∧
      placed.target.isSome = plan.root.isWithin source) := by
  intro source placed
  refine ⟨?_, fun via hvia => ⟨?_, ?_, ?_⟩, ?_⟩
  · intro outfile dir houtfile hparent page
    have hplaced : page.place a = placed := rfl
    have hsource : placed.source = source := source_place
    rw [← hsource, hplaced]
    exact resolve_replacement rfl houtfile hparent (isNormal_place hdist hroot hlayout ha)
  · intro dir hdir hne hwithin
    have hbase := baseFor_of_layout hroot (hlayout dir hdir) hdir hne hwithin
    rw [← hbase]
    exact resolve_via hroot hlayout ha hvia
  · intro hnone
    rw [← baseFor_of_root hnone]
    exact resolve_via hroot hlayout ha hvia
  · exact target_place.trans (congrArg (Option.map _) hvia)
  · cases hwithin : plan.root.isWithin source with
    | false =>
      have hnone := place_of_not_within hwithin
      exact ⟨congrArg Option.isSome hnone.1, congrArg Option.isSome hnone.2⟩
    | true =>
      have hvia := via_place_of_within hwithin
      refine ⟨congrArg Option.isSome hvia, ?_⟩
      rw [target_place, hvia]
      rfl

/-- A page below the output root, and a picture of its layout. -/
theorem resolve_place_layout :
    let plan : Relocation := ⟨⟨"/site"⟩, ⟨"/site/out"⟩, some ⟨"/site/theme"⟩, none⟩
    let page : Relocation := { plan with outfile := some ⟨"/site/out/docs/x.html"⟩ }
    let picture : Asset := { source := ⟨"/site/theme/img/../b.png"⟩, token := default }
    (page.place picture).target = some ⟨"/site/out/b.png"⟩ ∧
      (⟨"/site/out/docs"⟩ : Path).resolve ⟨page.replacement (page.place picture)⟩ =
        ⟨"/site/out/b.png"⟩ := by
  intro plan page picture
  have htarget : (plan.place picture).target = some ⟨"/site/out/b.png"⟩ := by decide +kernel
  have hroot : plan.root.IsNormal := ⟨by decide +kernel, by decide +kernel⟩
  have hdist : plan.dist.IsNormal := ⟨by decide +kernel, by decide +kernel⟩
  have hlayout : ∀ dir ∈ plan.layoutDir, dir.IsNormal := fun dir hdir => by
    obtain rfl := Option.some.inj hdir
    exact ⟨by decide +kernel, by decide +kernel⟩
  have hpicture : picture.source.isAbsolute = true := by decide +kernel
  have hpage := (resolve_place hroot hdist hlayout hpicture).1 ⟨"/site/out/docs/x.html"⟩
    ⟨"/site/out/docs"⟩ ⟨by decide +kernel, by decide +kernel⟩ (by decide +kernel)
  refine ⟨htarget, hpage.trans ?_⟩
  rw [htarget]
  rfl

end Bindery.Relocation
