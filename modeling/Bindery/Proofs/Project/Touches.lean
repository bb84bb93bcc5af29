import Bindery.Proofs.Project.Copies
import Bindery.Proofs.Project.Deposits
import Bindery.Proofs.Project.Links

/-! The files that a run changes. The pages of linked documents are written first, then the page of the
bundle, and the assets are copied last. So a page is there in the end as it was written, unless a later
page or an asset goes to the same place. -/

namespace Bindery

open FileTree (placeOf)

/-- A copy of an asset that is no page was put in the place `q`, as the reports tell. -/
def Bench.Copies (s : Bench) (reports : List AssetReport) (q : Place) : Prop :=
  ∃ a ∈ s.session.store.assetsOf s.session.root, a.isMarked = false ∧ ∃ t, a.target = some t ∧
    a.source ≠ t ∧ s.tree.isFile a.source = true ∧ ⟨a.source, some t, .ok⟩ ∈ reports ∧
    q = placeOf t

namespace Bundle

variable {b b' : Bundle} {s s' : Bench} {bs : List Bundle} {r : Except Failure WriteReport}
  {report : WriteReport} {q : Place}

/-- The assets that are copied are those of the root registry, to which the registry of every bundle
leads up, and no pages. -/
theorem Copying.mem {tree : FileTree} {assets : List Asset} {a : Asset}
    (h : b.Copying s.session.store tree assets report) (hs : s.Regular)
    (hlt : b.registry < s.session.store.registries.size) (ha : a ∈ assets) :
    b.isNested = false ∧ a.isMarked = false ∧ a ∈ s.session.store.assetsOf s.session.root := by
  cases hkind : b.isNested with
  | true =>
    rw [h.nested hkind] at ha
    exact absurd ha List.not_mem_nil
  | false =>
    rw [h.entry hkind, hs.descends.rootOf_eq hlt] at ha
    obtain ⟨hmem, hunmarked⟩ := List.mem_filter.1 ha
    refine ⟨rfl, ?_, hs.root.symm ▸ hmem⟩
    simpa using hunmarked

/-- What writing a bundle comes to. It fails, or has no file to write to, when nothing but the pages of
linked documents is written; or its page is written after these, before the assets are copied. -/
inductive Outcome (b : Bundle) (s : Bench) (r : Except Failure WriteReport) (s' : Bench) : Prop
  | stopped (hend : r.isOk = true → b.outfile = none)
    (hlays : s.Lays b.brief.root b.outfile.isNone s')
  | written {report : WriteReport} {nested : List Deposit} {entry : Deposit} {tree : FileTree}
    {assets : List Asset} (hok : r = .ok report) (hfile : b.outfile = some entry.page.file)
    (hpages : s'.session.pages = s.session.pages ++ (nested ++ [entry]).map (·.page))
    (hdeposit : s.tree.deposit (nested ++ [entry]) = .ok tree)
    (hnested : ∀ d ∈ nested, s.Compiles b.brief.root d s') (hentry : b.Shows s entry s')
    (hassets : ∀ a ∈ assets, b.isNested = false ∧ a.isMarked = false ∧
      a ∈ s'.session.store.assetsOf s'.session.root)
    (htree : s'.tree = (copyAssets tree tree assets).1)
    (hreports : report.assets = (copyAssets tree tree assets).2)

/-- Writing a bundle that is at hand comes to one of these ends. -/
theorem AtHand.exits_outcome (h : b.AtHand s) (hs : s.Regular) :
    write.Exits b s (fun report _ s' => b.Outcome s (.ok report) s')
      fun e _ s' => b.Outcome s (.error e) s' := by
  have hstart := Bench.Underway.start hs b.brief b.output
  have hgoes := (leaves_generateWithin h.root (s.depth b.brief.mapping) 0).exits h.housed hstart
    (Nat.le_refl _)
  have hlays := (leaves_generateWithin h.root (s.depth b.brief.mapping) 0).lays h.housed hstart
    (Nat.le_refl _)
  unfold write generate
  simp only [Making.exits_bind, Making.exits_bundle, Making.exits_lift, Work.exits_get]
  have hfailed : ∀ e : Failure, (.error e : Except Failure WriteReport).isOk = true →
      b.outfile = none := fun _ hok => absurd hok Bool.false_ne_true
  refine (hgoes.of_run.and hlays).mono ?_ fun e b' s' hfails => .stopped (hfailed e) hfails.2
  rintro g b' s₁ ⟨⟨hrun, hkept, -, -, hyields⟩, hlaid⟩
  refine exits_emit hyields.regular (fun e s' _ hs' => .stopped (hfailed e) (hlaid.trans (.stocks hs')))
    (fun hnone s' hs' _ => ?_) fun file tree assets report s' hfile hwrite hassets hs' => ?_
  · have hrelocated := hyields.regular.relocate g.plan g.html g.registry
    have hprinted := hrelocated.trans (hrelocated.regular.stocks_of_quiet hs')
    exact .stopped (fun _ => hyields.outfile.symm.trans hnone) (hlaid.trans (.stocks hprinted))
  · have houtfile := hyields.outfile.symm.trans hfile
    obtain ⟨hregular, honward⟩ := regular_of_written hyields.regular hwrite hs'
    obtain ⟨nested, hpages, hdeposit, -, hnested⟩ := hlaid.deposits
    have hlast : s₁.tree.deposit [g.deposit s₁ file] = .ok tree :=
      FileTree.deposit_cons.2 ⟨tree, hwrite, rfl⟩
    have hpages' : s'.session.pages =
        s.session.pages ++ (nested ++ [g.deposit s₁ file]).map (·.page) := by
      rw [List.map_append, ← List.append_assoc, ← hpages]
      exact hs'.pages
    refine .written rfl houtfile hpages' (FileTree.deposit_append.2 ⟨s₁.tree, hdeposit, hlast⟩)
      (fun d hd => (hnested d hd).mono (.refl s) honward)
      (shows_deposit hrun hfile (.refl s) honward) (fun a ha => ?_) hs'.tree hassets.reports
    have hlt : b'.registry < s'.session.store.registries.size := by
      rw [hkept.registry]
      exact Nat.lt_of_lt_of_le h.housed.registry_lt (hyields.onward.trans honward).extends_store.size
    have hstore : s'.session.store = (g.plan.run g.html s₁.session.store g.registry).store := hs'.store
    rw [← hstore] at hassets
    obtain ⟨hkind, hrest⟩ := hassets.mem hregular hlt ha
    exact ⟨hkept.isNested_eq.symm.trans hkind, hrest⟩

theorem AtHand.outcome (h : b.AtHand s) (hs : s.Regular)
    (hrun : (write.run.run b).run s = ((r, b'), s')) : b.Outcome s r s' := by
  cases r with
  | ok report => exact (h.exits_outcome hs).ok hrun
  | error e => exact (h.exits_outcome hs).error hrun

/-- Where the copies leave another file than there was, one of them lies. -/
theorem copies_of_content {tree : FileTree} {assets : List Asset}
    (hassets : ∀ a ∈ assets, b.isNested = false ∧ a.isMarked = false ∧
      a ∈ s'.session.store.assetsOf s'.session.root)
    (htree : s'.tree = (copyAssets tree tree assets).1)
    (hreports : report.assets = (copyAssets tree tree assets).2)
    (hq : s'.tree.content? q ≠ tree.content? q) :
    b.isNested = false ∧ s'.Copies report.assets q := by
  rw [htree] at hq
  obtain ⟨a, ha, t, ht, hne, hfile, hreport, hplace⟩ := exists_of_content_copyAssets hq
  obtain ⟨hentry, hunmarked, hmem⟩ := hassets a ha
  have hgrows := (copyAssets_spec (.refl tree) assets).1
  refine ⟨hentry, a, hmem, hunmarked, t, ht, hne, ?_, hreports ▸ hreport, hplace⟩
  rw [htree]
  exact FileTree.isFile_of_grows hgrows hfile

/-- Why a file is not as it was before a bundle was written, from `s` to `s'`. It is the page of the
bundle, or the page of a document that a link led to for the first time, or the copy of an asset. -/
inductive Touches (b : Bundle) (s : Bench) (r : Except Failure WriteReport) (s' : Bench) (q : Place) :
    Prop
  | page {report : WriteReport} {file : Path} (hok : r = .ok report) (hfile : b.outfile = some file)
    (hplace : q = placeOf file)
  | nested {d : Deposit} (hcompiles : s.Compiles b.brief.root d s')
    (hpage : d.page ∈ s'.session.pages) (hplace : q = placeOf d.page.file)
  | copy {report : WriteReport} (hok : r = .ok report) (hentry : b.isNested = false)
    (hcopies : s'.Copies report.assets q)

/-- Whatever a program did before, and whether a bundle is written or not, no file is changed but those
that the run touches, and none when the bundle has no file to write its page to. -/
theorem write_touches (h : s.Arises bs) (hb : b ∈ bs)
    (hrun : (write.run.run b).run s = ((r, b'), s')) :
    (b.outfile = none → s'.tree = s.tree) ∧
      ∀ q, s'.tree.content? q ≠ s.tree.content? q → b.Touches s r s' q := by
  obtain ⟨hregular, hall⟩ := h.regular
  cases (hall b hb).outcome hregular hrun with
  | stopped _ hlays =>
    obtain ⟨ds, hpages, hdeposit, hpreview, hcompiles⟩ := hlays.deposits
    refine ⟨fun hnone => ?_, fun q hq => ?_⟩
    · have hpreviewed : b.outfile.isNone = true := by
        rw [hnone]
        rfl
      rw [hpreview hpreviewed] at hdeposit
      exact (Except.ok.inj hdeposit).symm
    · obtain ⟨d, hd, hplace⟩ := FileTree.exists_of_content_deposit hdeposit hq
      have hpage : d.page ∈ s'.session.pages := by
        rw [hpages]
        exact List.mem_append_right _ (List.mem_map_of_mem hd)
      exact .nested (hcompiles d hd) hpage hplace.symm
  | @written report nested entry tree assets hok hfile hpages hdeposit hnested _ hassets htree hreports =>
    refine ⟨fun hnone => ?_, fun q hq => ?_⟩
    · rw [hnone] at hfile
      cases hfile
    · -- What the copies do not account for was there before them, when all pages were written.
      by_cases hcopied : s'.tree.content? q = tree.content? q
      · rw [hcopied] at hq
        obtain ⟨d, hd, hplace⟩ := FileTree.exists_of_content_deposit hdeposit hq
        rcases List.mem_append.1 hd with hd' | hd'
        · have hpage : d.page ∈ s'.session.pages := by
            rw [hpages]
            exact List.mem_append_right _ (List.mem_map_of_mem hd)
          exact .nested (hnested d hd') hpage hplace.symm
        · obtain rfl := List.mem_singleton.1 hd'
          exact .page hok hfile hplace.symm
      · obtain ⟨hentry, hcopies⟩ := copies_of_content hassets htree hreports hcopied
        exact .copy hok hentry hcopies

/-- A document that links to another one and shows a file that is called like its own page. -/
def posters : FileTree := { files := [
  (["a.md"], .text "[](b.md)![](a.html)"), (["b.md"], .text ""), (["a.html"], .text "static"),
  (["page"], .text "\x7b\x7bcontent\x7d\x7d")] }

def postersSettings : Settings :=
  { input := some (.one "a.md"), output := { dist := some ⟨"out"⟩, layout := some ⟨"page"⟩ } }

/-- The page of the other document stays, and the file is copied over the page of the first one. -/
theorem exists_posters : ∃ s b g b₁ s₁ report b' s', Bench.Arises s [b] ∧
    b.brief.plugins.isEmpty = true ∧ b.isNested = false ∧ b.outfile = some ⟨"/out/a.html"⟩ ∧
    (generate.run.run b).run s = ((.ok g, b₁), s₁) ∧
    settled g s₁ = "<p><a href=\"b.html\"></a><img src=\"a.html\" alt=\"\"></p>" ∧
    (write.run.run b).run s = ((.ok report, b'), s') ∧
    s.tree.content? ["out", "a.html"] = none ∧
    s'.tree.content? ["out", "a.html"] = some (.text "static") ∧
    s'.tree.content? ["out", "b.html"] = some (.text "") := by
  have hmakes : let made := (postersSettings.make ⟨"/"⟩).run.run { tree := posters, session := .fresh }
      made.1.toOption.map (fun b => (b.brief.plugins.isEmpty, b.isNested, b.outfile)) =
        some (true, false, some ⟨"/out/a.html"⟩) ∧
      made.2.tree.content? ["out", "a.html"] = none := by
    decide +kernel
  have hruns : let made := (postersSettings.make ⟨"/"⟩).run.run { tree := posters, session := .fresh }
      made.1.toOption.map (fun b =>
        let out := (generate.run.run b).run made.2
        let written := (write.run.run b).run made.2
        (out.1.1.toOption.map (settled · out.2), written.1.1.toOption.isSome,
          [["out", "a.html"], ["out", "b.html"]].map written.2.tree.content?)) =
      some (some "<p><a href=\"b.html\"></a><img src=\"a.html\" alt=\"\"></p>", true,
        [some (.text "static"), some (.text "")]) := by
    decide +kernel
  generalize hmade : (postersSettings.make ⟨"/"⟩).run.run { tree := posters, session := .fresh } =
    made at hmakes hruns
  obtain ⟨result, s⟩ := made
  cases result with
  | error f => cases hruns
  | ok b =>
    have hcwd : (⟨"/"⟩ : Path).IsNormal := ⟨rfl, by decide +kernel⟩
    have harises : s.Arises [b] := .make (.fresh posters rfl) hcwd hmade
    obtain ⟨hbundle, hbefore⟩ := hmakes
    obtain ⟨hplugins, hkind⟩ := Prod.mk.inj (Option.some.inj hbundle)
    obtain ⟨hentry, hfile⟩ := Prod.mk.inj hkind
    obtain ⟨hsettled, hrest⟩ := Prod.mk.inj (Option.some.inj hruns)
    obtain ⟨hwritten, hafter⟩ := Prod.mk.inj hrest
    rcases hgenerate : (generate.run.run b).run s with ⟨⟨r, b₁⟩, s₁⟩
    rcases hwrite : (write.run.run b).run s with ⟨⟨r', b'⟩, s'⟩
    dsimp only at hsettled hwritten hafter
    rw [hgenerate] at hsettled
    rw [hwrite] at hwritten hafter
    cases r with
    | error f => cases hsettled
    | ok g =>
      cases r' with
      | error f => cases hwritten
      | ok report =>
        obtain ⟨hcopy, hrest⟩ := List.cons.inj hafter
        obtain ⟨hpage, -⟩ := List.cons.inj hrest
        exact ⟨s, b, g, b₁, s₁, report, b', s', harises, hplugins, hentry, hfile, hgenerate,
          Option.some.inj hsettled, hwrite, hbefore, hcopy, hpage⟩

theorem write_touches_posters : ∃ s b report b' s', Bench.Arises s [b] ∧
    (write.run.run b).run s = ((.ok report, b'), s') ∧
    s'.tree.content? ["out", "a.html"] ≠ s.tree.content? ["out", "a.html"] ∧
    b.Touches s (.ok report) s' ["out", "a.html"] := by
  obtain ⟨s, b, -, -, -, report, b', s', harises, -, -, -, -, -, hwrite, hbefore, hafter, -⟩ :=
    exists_posters
  have hchanged : s'.tree.content? ["out", "a.html"] ≠ s.tree.content? ["out", "a.html"] := by
    rw [hbefore, hafter]
    exact Option.some_ne_none _
  exact ⟨s, b, report, b', s', harises, hwrite, hchanged,
    (write_touches harises List.mem_cons_self hwrite).2 _ hchanged⟩

end Bundle
end Bindery
