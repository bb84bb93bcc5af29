import Bindery.Proofs.Asset.Containment
import Bindery.Proofs.Project.Links

/-! The file that a single entry gives its page, when only the output root is named. The way to it is the
way from the working root to the entry. It leads below the output root unless it climbs out of it, and
to where the links to the entry lead unless the layout's directory holds the page too. -/

namespace Bindery

variable {o : Output} {root dist : Path}

namespace Output

theorem fileFor_one (hfile : o.file = none) (hdist : o.dist = some dist) (entry : String) :
    o.fileFor (.one entry) root = some ((o.distDir root).resolve
      ((root.relative (root.resolve ⟨entry⟩)).withExtension "html")) := by
  unfold fileFor
  rw [hfile, hdist]
  rfl

/-- The page of a single entry lies below the output root exactly when the names of the way to the entry
lead back there from the height it climbs to. The way to an entry below the working root does not
climb, and the way to the working root leads to the output root itself. -/
theorem fileFor_below_iff (hroot : root.IsNormal) (hfile : o.file = none) (hdist : o.dist = some dist)
    (entry : String) :
    let source := root.resolve ⟨entry⟩
    let out := o.distDir root
    ∃ file climbs names, o.fileFor (.one entry) root = some file ∧
      root.relative source = Path.ofSteps (Path.climbing climbs names) ∧
      (out.isWithin file = true ∧ file ≠ out ↔
        ∃ rest, rest ≠ [] ∧ out.components ++ rest = out.above climbs ++ names.map .name) ∧
      (root.isWithin source = true → source ≠ root →
        (root.components = [.root] → .up ∉ source.components) →
          out.isWithin file = true ∧ file ≠ out) ∧
      (source = root → file = out) := by
  intro source out
  have hsource : source.IsNormal := Path.isNormal_resolve_of_absolute hroot.absolute _
  have hout : out.IsNormal := o.isNormal_distDir hroot
  obtain ⟨climbs, names, hsteps, hway⟩ := Path.exists_climbing hroot.absolute hsource
  have hpage : o.fileFor (.one entry) root =
      some (out.resolve ((root.relative source).withExtension "html")) :=
    fileFor_one hfile hdist entry
  have hiff := Path.below_climbing_iff hout hsteps rfl
  rw [← hway] at hiff
  refine ⟨_, climbs, names, hpage, hway, hiff, fun hwithin hne habove => hiff.2 ?_, fun heq => ?_⟩
  · obtain ⟨rest, hrest⟩ := List.isPrefixOf_iff_prefix.1 hwithin
    obtain ⟨names', rfl⟩ := Path.exists_names_of_within hroot.absolute hsource hrest habove
    obtain ⟨hsteps', hdown⟩ := Path.relative_of_append hroot.absolute hrest.symm
    -- The way goes down by names alone, so there is nothing to climb.
    have hsame : Path.climbing climbs names = names'.map .name := by
      rw [← Path.steps_ofSteps hsteps, ← hway, hdown, Path.steps_ofSteps hsteps']
    have hnames : names'.map Component.name ≠ [] := by
      intro hnil
      rw [hnil, List.append_nil] at hrest
      exact hne (hroot.eq_of_components hsource hrest).symm
    cases climbs with
    | zero => exact ⟨names'.map .name, hnames, by rw [Path.above_zero hout.absolute, ← hsame]; rfl⟩
    | succ climbs =>
      have hup : Component.up ∈ names'.map .name := hsame ▸ List.mem_cons_self
      simp at hup
  · -- The way to the root itself ends in no name, and stays as it is.
    have hnone : (root.relative root).fileName? = none := by
      rw [(Path.relative_of_append hroot.absolute (List.append_nil root.components).symm).2]
      decide
    rw [heq, Path.withExtension_eq_self "html" hnone]
    exact Path.resolve_relative_self hroot.absolute hout

/-- A document of the working root gets its page below the output root, the one beside the root does
not. -/
theorem fileFor_below_iff_beside :
    let root : Path := ⟨"/site"⟩
    let o : Output := { dist := some ⟨"build"⟩ }
    (∃ file, o.fileFor (.one "docs/a.md") root = some file ∧
      (o.distDir root).isWithin file = true ∧ file ≠ o.distDir root) ∧
    ∃ file, o.fileFor (.one "../x.md") root = some file ∧
      ¬ ((o.distDir root).isWithin file = true ∧ file ≠ o.distDir root) := by
  intro root o
  have hroot : root.IsNormal := ⟨by decide +kernel, by decide +kernel⟩
  constructor
  · obtain ⟨file, -, -, hfile, -, -, hbelow, -⟩ := fileFor_below_iff hroot (o := o) rfl rfl "docs/a.md"
    exact ⟨file, hfile, hbelow (by decide +kernel) (by decide +kernel) fun _ => by decide +kernel⟩
  · obtain ⟨file, -, -, hfile, -⟩ := fileFor_below_iff hroot (o := o) rfl rfl "../x.md"
    refine ⟨file, hfile, fun hbelow => ?_⟩
    have hpage : file = ⟨"/site/x.html"⟩ := Option.some.inj (hfile.symm.trans (by decide +kernel))
    rw [hpage] at hbelow
    exact absurd hbelow.1 (by decide +kernel)

end Output
namespace Relocation

/-- A document is no directory of its page. -/
theorem isWithin_page_self {p : Path} (hp : p.IsNormal) (hmarkdown : p.isMarkdown = true) :
    p.isWithin (p.withExtension "html") = false := by
  obtain ⟨steps, s, t, hcomponents, hpage, -, hisPage⟩ := Path.withExtension_html hp hmarkdown
  rw [Bool.eq_false_iff]
  intro hwithin
  have hlength : p.components.length = (p.withExtension "html").components.length := by
    rw [hcomponents, hpage]
    simp
  have hsame := (List.isPrefixOf_iff_prefix.1 hwithin).eq_of_length hlength
  refine absurd ?_ (hisPage.placeOf_ne hmarkdown)
  rw [FileTree.placeOf, FileTree.placeOf, hsame]

section

variable {plan : Relocation} {source : Path} {a : Asset} (hroot : plan.root.IsNormal)
  (hdist : plan.dist.IsNormal) (hlayout : ∀ dir ∈ plan.layoutDir, dir.IsNormal)
  (hsource : source.IsNormal) (hmarkdown : source.isMarkdown = true)
  (hwithin : plan.root.isWithin source = true) (ha : a.source = source.withExtension "html")

include hroot hdist hlayout hsource hmarkdown hwithin ha

/-- The page of a document below the working root, from there and from where links to it are told. -/
theorem exists_ways_to_page (hne : source ≠ plan.root) :
    let page := source.withExtension "html"
    ∃ way way' : List Component,
      plan.root.components ++ way = page.components ∧
      (plan.baseFor page).components ++ way' = page.components ∧
      (∀ c ∈ way, c.IsStep) ∧ (∀ c ∈ way', c.IsStep) ∧
      (plan.root.relative source).withExtension "html" = Path.ofSteps way ∧
      (plan.place a).target = some (plan.dist.resolve (Path.ofSteps way')) := by
  intro page
  obtain ⟨steps, s, t, hcomponents, hpage, hnormal, -⟩ := Path.withExtension_html hsource hmarkdown
  obtain ⟨rest, hrest⟩ := List.isPrefixOf_iff_prefix.1 hwithin
  have hends : ∃ front, rest = front ++ [.name s] := by
    rcases List.eq_nil_or_concat rest with rfl | ⟨front, c, rfl⟩
    · rw [List.append_nil] at hrest
      exact absurd (hroot.eq_of_components hsource hrest).symm hne
    · rw [List.concat_eq_append, hcomponents, ← List.append_assoc, ← List.cons_append] at hrest
      rw [List.concat_eq_append, (List.append_inj' hrest rfl).2]
      exact ⟨front, rfl⟩
  obtain ⟨front, rfl⟩ := hends
  obtain ⟨t', hpage', hway⟩ := Path.relative_withExtension hroot.absolute hsource hrest.symm
  obtain ⟨hsteps, hdown⟩ := Path.relative_of_append hroot.absolute hpage'
  have hsource' : a.source.normalize = page := by rw [ha, hnormal.normalize_eq]
  have hinside : plan.root.isWithin a.source.normalize = true := by
    rw [hsource']
    exact List.isPrefixOf_iff_prefix.2 ⟨_, hpage'.symm⟩
  obtain ⟨way', hway', hsteps', htarget⟩ :=
    target_eq_resolve hroot hdist hlayout (ha ▸ hnormal.absolute) hinside
  rw [hsource'] at hway'
  exact ⟨_, way', hpage'.symm, hway', hsteps, hsteps', hway.trans hdown, htarget⟩

theorem target_eq_of_apart (hne : source ≠ plan.root)
    (hapart : ∀ dir ∈ plan.layoutDir,
      dir = plan.root ∨ dir.isWithin (source.withExtension "html") = false) :
    (plan.place a).target =
      some (plan.dist.resolve ((plan.root.relative source).withExtension "html")) := by
  obtain ⟨way, way', hway, hway', -, -, hpage, htarget⟩ :=
    exists_ways_to_page hroot hdist hlayout hsource hmarkdown hwithin ha hne
  rw [baseFor_of_root hapart, ← hway] at hway'
  rw [htarget, hpage, List.append_cancel_left hway']

theorem apart_of_target_eq (hup : .up ∉ source.components)
    (htarget : (plan.place a).target =
      some (plan.dist.resolve ((plan.root.relative source).withExtension "html"))) :
    source ≠ plan.root ∧ ∀ dir ∈ plan.layoutDir,
      dir = plan.root ∨ dir.isWithin (source.withExtension "html") = false := by
  obtain ⟨steps, s, t, hcomponents, hpage, hnormal, -⟩ := Path.withExtension_html hsource hmarkdown
  have hne : source ≠ plan.root := by
    intro heq
    have hout : plan.root.isWithin a.source.normalize = false := by
      rw [ha, hnormal.normalize_eq, ← heq]
      exact isWithin_page_self hsource hmarkdown
    rw [(place_of_not_within hout).2] at htarget
    cases htarget
  refine ⟨hne, fun dir hdir => ?_⟩
  have hup' : .up ∉ (source.withExtension "html").components := by
    rw [hcomponents] at hup
    rw [hpage]
    simpa using hup
  obtain ⟨way, way', hway, hway', hsteps, hsteps', hpage, hplace⟩ :=
    exists_ways_to_page hroot hdist hlayout hsource hmarkdown hwithin ha hne
  have hbase := isNormal_baseFor hroot hlayout (source.withExtension "html")
  obtain ⟨names, rfl⟩ :=
    Path.exists_names_of_within hroot.absolute hnormal hway fun _ => hup'
  obtain ⟨names', rfl⟩ :=
    Path.exists_names_of_within hbase.absolute hnormal hway' fun _ => hup'
  -- Names that lead to one place are the same, and so are the directories they start from.
  rw [hplace, hpage] at htarget
  have hlead := congrArg Path.components (Option.some.inj htarget)
  rw [Path.components_resolve_names hdist hsteps, Path.components_resolve_names hdist hsteps'] at hlead
  rw [List.append_cancel_left hlead, ← hway] at hway'
  have hsame := hbase.eq_of_components hroot (List.append_cancel_right hway')
  by_contra hnot
  obtain ⟨hdir_ne, hdir_within⟩ := not_or.1 hnot
  rw [Bool.not_eq_false] at hdir_within
  exact hdir_ne
    ((baseFor_of_layout hroot (hlayout dir hdir) hdir hdir_ne hdir_within).symm.trans hsame)

end

/-- The page of an entry document is where links to the document lead, unless the directory of the layout
is another one than the working root and holds the page. Then a link is told from that directory, and
leads past the page. -/
theorem target_eq_fileFor_iff {layoutDir : Option Path} {a : Asset} (hroot : root.IsNormal)
    (hfile : o.file = none) (hdist : o.dist = some dist) (hlayout : ∀ dir ∈ layoutDir, dir.IsNormal)
    (entry : String) (hmarkdown : (root.resolve ⟨entry⟩).isMarkdown = true)
    (hwithin : root.isWithin (root.resolve ⟨entry⟩) = true)
    (ha : a.source = (root.resolve ⟨entry⟩).withExtension "html") :
    let source := root.resolve ⟨entry⟩
    let page := source.withExtension "html"
    ∃ file, o.fileFor (.one entry) root = some file ∧
      let plan : Relocation := ⟨root, o.distDir root, layoutDir, some file⟩
      (source ≠ root → (∀ dir ∈ layoutDir, dir = root ∨ dir.isWithin page = false) →
        (plan.place a).target = some file) ∧
      (.up ∉ source.components → (plan.place a).target = some file →
        source ≠ root ∧ ∀ dir ∈ layoutDir, dir = root ∨ dir.isWithin page = false) ∧
      (source ≠ root → ∀ dir, file.parent? = some dir →
        (dir.resolve ⟨plan.replacement (plan.place a)⟩ = file ↔
          (plan.place a).target = some file)) := by
  intro source page
  have hsource : source.IsNormal := Path.isNormal_resolve_of_absolute hroot.absolute _
  obtain ⟨-, -, -, -, -, hpage, -⟩ := Path.withExtension_html hsource hmarkdown
  refine ⟨_, Output.fileFor_one hfile hdist entry, ?_⟩
  intro plan
  have hroot' : plan.root.IsNormal := hroot
  have hout : plan.dist.IsNormal := o.isNormal_distDir hroot
  refine ⟨target_eq_of_apart hroot' hout hlayout hsource hmarkdown hwithin ha,
    apart_of_target_eq hroot' hout hlayout hsource hmarkdown hwithin ha, fun hne dir hparent => ?_⟩
  have hplaced := isNormal_place hout hroot' hlayout (ha ▸ hpage.absolute)
  have houtfile : plan.outfile = some _ := rfl
  rw [resolve_replacement houtfile (Path.isNormal_resolve_of_absolute hout.absolute _) hparent hplaced]
  obtain ⟨-, way, -, -, -, -, -, htarget⟩ :=
    exists_ways_to_page hroot' hout hlayout hsource hmarkdown hwithin ha hne
  rw [htarget, Option.getD_some, Option.some.injEq]

/-- Links to a document beside its layout lead past its page, but not where there is no layout. -/
theorem target_eq_fileFor_iff_docs :
    let root : Path := ⟨"/site"⟩
    let o : Output := { dist := some ⟨"build"⟩ }
    let page : Asset := { source := ⟨"/site/docs/a.html"⟩, token := default }
    ∃ file, o.fileFor (.one "docs/a.md") root = some file ∧
      (place ⟨root, o.distDir root, none, some file⟩ page).target = some file ∧
      (place ⟨root, o.distDir root, some ⟨"/site/docs"⟩, some file⟩ page).target ≠ some file := by
  intro root o page
  have hroot : root.IsNormal := ⟨by decide +kernel, by decide +kernel⟩
  have hnone : ∀ dir ∈ (none : Option Path), dir.IsNormal := by simp
  have hdocs : ∀ dir ∈ some (⟨"/site/docs"⟩ : Path), dir.IsNormal := fun dir hdir => by
    obtain rfl := Option.some.inj hdir
    exact ⟨by decide +kernel, by decide +kernel⟩
  have hmarkdown : (root.resolve ⟨"docs/a.md"⟩).isMarkdown = true := by decide +kernel
  have hwithin : root.isWithin (root.resolve ⟨"docs/a.md"⟩) = true := by decide +kernel
  have hpage : page.source = (root.resolve ⟨"docs/a.md"⟩).withExtension "html" := by decide +kernel
  have hne : root.resolve ⟨"docs/a.md"⟩ ≠ root := by decide +kernel
  obtain ⟨file, hfile, hleads, -⟩ :=
    target_eq_fileFor_iff (o := o) hroot rfl rfl hnone "docs/a.md" hmarkdown hwithin hpage
  obtain ⟨file', hfile', -, hback, -⟩ :=
    target_eq_fileFor_iff (o := o) hroot rfl rfl hdocs "docs/a.md" hmarkdown hwithin hpage
  obtain rfl : file = file' := Option.some.inj (hfile.symm.trans hfile')
  refine ⟨file, hfile, hleads hne (by simp), fun htarget => ?_⟩
  rcases (hback (by decide +kernel) htarget).2 ⟨"/site/docs"⟩ rfl with heq | hout
  · exact absurd heq (by decide)
  · exact absurd hout (by decide +kernel)

end Relocation
end Bindery
