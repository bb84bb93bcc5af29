import Bindery.Proofs.Project.Links
import Bindery.Proofs.Project.Sessions

/-! Where the paths in the pages of a run lead in the end. A page gets its paths while the run goes on,
and the last page of the run gives every asset its place. In between no asset moves but a document
that becomes a page, and none that a document of the page refers to. -/

namespace Bindery

variable {brief : Brief} {output : Output} {s s' : Bench} {b b' : Bundle} {plan : Relocation}
  {r : RegistryId}

/-- Plans with the same directories give a file the same place. -/
theorem Relocation.goal_congr {plan' : Relocation} (hroot : plan.root = plan'.root)
    (hdist : plan.dist = plan'.dist) (hlayout : plan.layoutDir = plan'.layoutDir) (p : Path) :
    plan.goal p = plan'.goal p := by
  have hplan : plan = { plan' with outfile := plan.outfile } := by
    obtain ⟨root, dist, layoutDir, outfile⟩ := plan
    obtain ⟨rfl, rfl, rfl⟩ : root = _ ∧ dist = _ ∧ layoutDir = _ := ⟨hroot, hdist, hlayout⟩
    rfl
  unfold goal
  rw [hplan, place_outfile]

namespace Bundle

/-- What is known in the end of a path that was put in a page for an asset, which was `a` then and is
`a'` now. -/
structure Traced (nb : Bundle) (g : Generated) (plan : Relocation) (t : Token) (target : Path)
    (a a' : Asset) : Prop where
  becomes : a.Becomes a'
  target_eq : target = g.plan.goal a.source
  placed : a'.target.getD a'.source = plan.goal a'.source
  followed : ∀ d ∈ nb.documents, ∀ o ∈ d.origins, t = .ofOrigin o → a.IsFinal

/-- A path in a page that was made below a registry is traced to the place that the page of this
registry gives its asset. -/
theorem traced_of_yields {nb : Bundle} {s₀ s₁ : Bench} {g : Generated} {page : WrittenPage}
    (hroot : brief.root.IsNormal) (hputs : nb.Puts s₀ g s₁ page)
    (hyields : nb.Yields brief output s₀ g s₁) (hfile : page.file.IsNormal)
    (htokens : s₁.session.store.tokens g.registry ⊆ s₁.session.store.tokens r)
    (hs : s₁.Onward s) (hregular : s.Regular) {html : String}
    (hstore : s'.session.store = (plan.run html s.session.store r).store)
    {t : Token} {path : String} (hlink : (t, path) ∈ page.links) :
    ∃ c a a', (t, c) ∈ s₁.session.store.snapshot 0 ∧ s₁.session.store.asset? c = some a ∧
      (t, c) ∈ s'.session.store.snapshot 0 ∧ s'.session.store.asset? c = some a' ∧
      nb.Traced g plan t (page.leads brief.root path) a a' := by
  have hnormal : ∀ {s : Bench}, s.Regular → s.session.store.Each fun _ a => a.source.IsNormal :=
    fun h => h.each.mono fun _ _ ha => ha.1
  have hmade : (t, path) ∈ (g.plan.run g.html s₁.session.store g.registry).made :=
    hputs.links ▸ hlink
  obtain ⟨c, a, hslot, ha, ha_normal, hpath⟩ := Relocation.exists_of_mem_made
    hyields.regular.descends (hnormal hyields.regular) hputs.outfile hmade
  have hslot₀ := hyields.regular.descends.inRoot _ _ hslot
  -- The asset has its slot in the registry whose page is the last one.
  obtain ⟨⟨t', c'⟩, hlast, htoken⟩ := List.mem_map.1
    (hs.extends_store.tokens_subset r (htokens (List.mem_map_of_mem hslot)))
  obtain rfl : t' = t := htoken
  obtain rfl : c' = c := hregular.descends.cell_eq hlast (hs.extends_store.slots 0 _ hslot₀)
  have hplaced : ∃ a', (plan.run html s.session.store r).store.asset? c' = some a' ∧
      a'.source.IsNormal ∧ plan.place a' = a' :=
    Relocation.placed_run hregular.descends (hnormal hregular) hlast
  obtain ⟨a', ha', -, hplaced⟩ := hplaced
  have hages := hs.ages.trans (Store.Ages.relocate s.session.store plan html r)
  obtain ⟨a'', ha'', hbecomes⟩ := hages c' a ha ha_normal
  obtain rfl : a' = a'' := Option.some.inj (ha'.symm.trans ha'')
  refine ⟨c', a, a', hslot₀, ha, ?_, hstore ▸ ha', hbecomes, ?_, ?_, fun d hd o ho htoken => ?_⟩
  · rw [hstore, Store.snapshot_of_registries Relocation.registries_run]
    exact hregular.descends.inRoot r _ hlast
  · rw [hpath, WrittenPage.leads, ← hyields.fits.root]
    have hroot' := hyields.fits.root.symm ▸ hroot
    exact Relocation.resolve_wayTo (hyields.fits.dist.symm ▸ output.isNormal_distDir hroot) hroot'
      hyields.fits.layout hfile ha_normal
  · rw [Relocation.goal_source, hplaced]
  · obtain ⟨d', b, hd', hb, -, hfinal⟩ := (hyields.followed d hd o ho).2
    rw [← htoken] at hd'
    obtain rfl := hyields.regular.descends.cell_eq hd' hslot₀
    obtain rfl : a = b := Option.some.inj (ha.symm.trans hb)
    exact hfinal

/-- Why a path that was put in a page of `nb`, begun in `s₀`, does not lead to where its asset goes.
The asset was a document when the path was put, and a page was made of it later; this befalls no
asset that a document of the page refers to. Or the layout had been found in another directory when
the run began, in `s`, and assets below it keep their places from there. -/
inductive Outdated (b : Bundle) (s : Bench) (nb : Bundle) (s₀ : Bench) (g : Generated) (t : Token)
    (target : Path) (a a' : Asset) : Prop
  | late (hbefore : a.isMarked = false) (hafter : a'.isMarked = true)
    (hsource : a'.source = a.source.withExtension "html") (htarget : target = g.plan.goal a.source)
    (hlayout : ∀ d ∈ nb.documents, ∀ o ∈ d.origins, t ≠ .ofOrigin o)
  | moved (hkept : a'.source = a.source) (htarget : target = g.plan.goal a.source)
    (hplace : a'.target.getD a'.source ≠ g.plan.goal a.source)
    (hlayout : b.output.layoutDir b.brief.root s₀.tree ≠ b.output.layoutDir b.brief.root s.tree)

theorem Traced.leads_or_outdated {nb : Bundle} {s₀ : Bench} {g : Generated} {t : Token}
    {target : Path} {a a' : Asset} (h : nb.Traced g plan t target a a')
    (hfits : Fits b.brief b.output g.plan)
    (hdir : g.plan.layoutDir = b.output.layoutDir b.brief.root s₀.tree)
    (hfits' : Fits b.brief b.output plan)
    (hdir' : plan.layoutDir = b.output.layoutDir b.brief.root s.tree) :
    target = a'.target.getD a'.source ∨ Outdated b s nb s₀ g t target a a' := by
  by_cases hmarked : a'.isMarked = a.isMarked
  · have hkept := h.becomes.kept hmarked
    by_cases hplace : a'.target.getD a'.source = g.plan.goal a.source
    · exact .inl (h.target_eq.trans hplace.symm)
    · refine .inr (.moved hkept h.target_eq hplace fun hsame => hplace ?_)
      rw [h.placed, hkept]
      exact Relocation.goal_congr (hfits'.root.trans hfits.root.symm)
        (hfits'.dist.trans hfits.dist.symm) (hdir'.trans (hsame.symm.trans hdir.symm)) a.source
  · have hbefore : a.isMarked = false := Bool.eq_false_iff.2 fun hmark =>
      hmarked ((h.becomes.marked hmark).trans hmark.symm)
    have hafter : a'.isMarked = true := by
      rw [hbefore] at hmarked
      simpa using hmarked
    refine .inr (.late hbefore hafter (h.becomes.page hbefore hafter).2 h.target_eq ?_)
    intro d hd o ho htoken
    exact hmarked ((h.followed d hd o ho htoken).isMarked_eq h.becomes)

/-- The pages that are written in a run are those made of its bundles, and the last of them gives the
assets below its registry their places. -/
theorem AtHand.exits_write_pages (h : b.AtHand s) (hs : s.Regular) (hentry : b.isNested = false) :
    write.Exits b s (fun _ _ s' => ∃ new, s'.session.pages = s.session.pages ++ new ∧
      ∃ g s₁, b.Yields b.brief b.output s g s₁ ∧ s₁.Onward s' ∧ s'.Regular ∧
        s'.session.store = (g.plan.run g.html s₁.session.store g.registry).store ∧
        ∀ page ∈ new, Came b.brief b.output b.registry s page s₁) fun _ _ _ => True := by
  have hgoes := (goes_generateWithin h.root (s.depth b.brief.mapping) 0).exits h.housed
    (.start hs b.brief b.output) (Nat.le_refl _)
  unfold write generate
  simp only [Making.exits_bind, Making.exits_bundle, Making.exits_lift, Work.exits_get]
  refine hgoes.of_run.mono ?_ fun _ _ _ _ => trivial
  rintro g b' s₁ ⟨hrun, hkept, -, hadvances, hyields⟩
  obtain ⟨new, hnew, hcame⟩ := hadvances.pages
  refine exits_emit hyields.regular (fun _ _ _ _ => trivial) (fun _ s' hs' _ => ?_)
    fun file tree assets _ s' hfile hwrite _ hs' => ?_
  · have hrelocated := hyields.regular.relocate g.plan g.html g.registry
    have hstocks := hrelocated.trans (hrelocated.regular.stocks_of_quiet hs')
    exact ⟨new, hs'.pages.trans hnew, g, s₁, hyields, hstocks.onward, hstocks.regular, hs'.store,
      hcame⟩
  · obtain ⟨hregular, honward⟩ := regular_of_written hyields.regular hwrite hs'
    refine ⟨new ++ [⟨file, (g.plan.run g.html s₁.session.store g.registry).made⟩], ?_, g, s₁,
      hyields, honward, hregular, hs'.store, fun page hpage => ?_⟩
    · rw [← List.append_assoc, ← hnew]
      exact hs'.pages
    · rcases List.mem_append.1 hpage with hpage | hpage
      · exact hcame page hpage
      · obtain rfl := List.mem_singleton.1 hpage
        refine ⟨b, s, g, s₁, .refl s, ⟨⟨_, b', hrun⟩, hfile, rfl⟩, hyields, .refl s₁, ?_, ?_⟩
        · have htarget : b.target = none := by
            simpa [isNested] using hentry
          have hfile' := hyields.outfile.symm.trans hfile
          unfold outfile at hfile'
          rw [htarget, Option.none_or] at hfile'
          exact Output.isNormal_fileFor h.root hfile'
        · rw [hyields.registry]
          exact List.Subset.refl _

/-- Whatever a program did before, when the page of an entry is written, every path in a page of the
run leads to where its asset goes as the root registry has it in the end, unless it is outdated. -/
theorem write_leads {bs : List Bundle} (h : s.Arises bs) (hb : b ∈ bs) (hentry : b.isNested = false)
    {report : WriteReport} (hrun : (write.run.run b).run s = ((.ok report, b'), s')) :
    ∃ new, s'.session.pages = s.session.pages ++ new ∧ ∀ page ∈ new,
      ∃ (nb : Bundle) (s₀ : Bench) (g : Generated) (s₁ : Bench),
        s.Onward s₀ ∧ nb.Puts s₀ g s₁ page ∧ s₁.Onward s' ∧ ∀ link ∈ page.links,
          let target := page.leads b.brief.root link.2
          ∃ cell a a', (link.1, cell) ∈ s₁.session.store.snapshot s₁.session.root ∧
            s₁.session.store.asset? cell = some a ∧
            (link.1, cell) ∈ s'.session.store.snapshot s'.session.root ∧
            s'.session.store.asset? cell = some a' ∧
            (target = a'.target.getD a'.source ∨ Outdated b s nb s₀ g link.1 target a a') := by
  obtain ⟨hregular, hall⟩ := h.regular
  have hatHand := hall b hb
  obtain ⟨new, hpages, g, s₁, hyields, honward, hregular', hstore, hcame⟩ :=
    (hatHand.exits_write_pages hregular hentry).ok hrun
  refine ⟨new, hpages, fun page hpage => ?_⟩
  obtain ⟨nb, s₀, g₀, s₂, hbefore, hputs, hyields₀, hafter, hfile, htokens⟩ := hcame page hpage
  refine ⟨nb, s₀, g₀, s₂, hbefore, hputs, hafter.trans honward, fun link hlink => ?_⟩
  rw [hyields.registry] at hstore
  obtain ⟨cell, a, a', hslot, ha, hslot', ha', htraced⟩ := traced_of_yields hatHand.root hputs hyields₀
    hfile htokens hafter hyields.regular hstore hlink
  rw [hyields₀.regular.root, hregular'.root]
  exact ⟨cell, a, a', hslot, ha, hslot', ha', htraced.leads_or_outdated hyields₀.fits
    hyields₀.layoutDir hyields.fits hyields.layoutDir⟩

/-- A document with links to another one and to itself, in a layout that names the document too. -/
def shelf : FileTree := { files := [
  (["a.md"], .text "[](b.md)[](a.md)"), (["b.md"], .text ""),
  (["page"], .text "<a href=a.md>\x7b\x7bcontent\x7d\x7d")] }

def shelfSettings : Settings :=
  { input := some (.one "a.md"), output := { dist := some ⟨"out"⟩, layout := some ⟨"page"⟩ } }

/-- The page of the other one is written before the link of the document to itself is met, so the
path that its layout has there is outdated. -/
theorem write_leads_shelf : ∃ s b report b' s', Bench.Arises s [b] ∧
    (write.run.run b).run s = ((.ok report, b'), s') ∧
    s'.session.pages.map (·.links.map Prod.snd) = [["a.md"], ["b.html", "a.html"]] ∧
    (s'.session.store.assetsOf s'.session.root).map (·.target) =
      [some ⟨"/out/b.html"⟩, some ⟨"/out/a.html"⟩] ∧
    ∃ new, s'.session.pages = s.session.pages ++ new ∧ ∀ page ∈ new,
      ∃ (nb : Bundle) (s₀ : Bench) (g : Generated) (s₁ : Bench),
        s.Onward s₀ ∧ nb.Puts s₀ g s₁ page ∧ s₁.Onward s' ∧ ∀ link ∈ page.links,
          let target := page.leads b.brief.root link.2
          ∃ cell a a', (link.1, cell) ∈ s₁.session.store.snapshot s₁.session.root ∧
            s₁.session.store.asset? cell = some a ∧
            (link.1, cell) ∈ s'.session.store.snapshot s'.session.root ∧
            s'.session.store.asset? cell = some a' ∧
            (target = a'.target.getD a'.source ∨ Outdated b s nb s₀ g link.1 target a a') := by
  have hfacts : let made := (shelfSettings.make ⟨"/"⟩).run.run { tree := shelf, session := .fresh }
      made.1.toOption.map (fun b =>
        let out := (write.run.run b).run made.2
        (b.isNested, out.1.1.isOk, out.2.session.pages.map (·.links.map Prod.snd),
          (out.2.session.store.assetsOf out.2.session.root).map (·.target))) =
      some (false, true, [["a.md"], ["b.html", "a.html"]],
        [some ⟨"/out/b.html"⟩, some ⟨"/out/a.html"⟩]) := by
    decide +kernel
  generalize hmade : (shelfSettings.make ⟨"/"⟩).run.run { tree := shelf, session := .fresh } =
    made at hfacts
  obtain ⟨result, s⟩ := made
  cases result with
  | error f => cases hfacts
  | ok b =>
    have hcwd : (⟨"/"⟩ : Path).IsNormal := ⟨rfl, by decide +kernel⟩
    have harises : s.Arises [b] := .make (.fresh shelf rfl) hcwd hmade
    obtain ⟨hentry, hrest⟩ := Prod.mk.inj (Option.some.inj hfacts)
    rcases hwrite : (write.run.run b).run s with ⟨⟨r, b'⟩, s'⟩
    dsimp only at hrest
    rw [hwrite] at hrest
    obtain ⟨hok, hrest⟩ := Prod.mk.inj hrest
    obtain ⟨hlinks, htargets⟩ := Prod.mk.inj hrest
    cases r with
    | error f => cases hok
    | ok report =>
      exact ⟨s, b, report, b', s', harises, hwrite, hlinks, htargets,
        write_leads harises List.mem_cons_self hentry hwrite⟩

end Bundle
end Bindery
