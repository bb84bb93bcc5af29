import Bindery.Proofs.Project.Flight
import Bindery.Proofs.Project.Waiting

/-! A session that was used for one bundle and is used for another one. The second bundle gets there
what it gets in a fresh session, unless the first one got in its way. -/

namespace Bindery

open FileTree (placeOf)

/-- A session over `tree` in which the bundle that `first` asks for was written, before or after the
bundle `b` that `second` asks for was made. -/
inductive Bench.Used (tree : FileTree) (cwd : Path) (first second : Settings) (b : Bundle) (v : Bench) :
    Prop
  | after {a a' : Bundle} {s₁ s₂ : Bench} {report : WriteReport}
    (hfirst : (first.make cwd).run.run { tree, session := .fresh } = (.ok a, s₁))
    (hwrite : (Bundle.write.run.run a).run s₁ = ((.ok report, a'), s₂))
    (hsecond : (second.make cwd).run.run s₂ = (.ok b, v))
  | between {a a' : Bundle} {s₁ s₂ : Bench} {report : WriteReport}
    (hfirst : (first.make cwd).run.run { tree, session := .fresh } = (.ok a, s₁))
    (hsecond : (second.make cwd).run.run s₁ = (.ok b, s₂))
    (hwrite : (Bundle.write.run.run a).run s₂ = ((.ok report, a'), v))
  | before {a a' : Bundle} {s₁ s₂ : Bench} {report : WriteReport}
    (hsecond : (second.make cwd).run.run { tree, session := .fresh } = (.ok b, s₁))
    (hfirst : (first.make cwd).run.run s₁ = (.ok a, s₂))
    (hwrite : (Bundle.write.run.run a).run s₂ = ((.ok report, a'), v))

/-- The used session `v` has left alone what a bundle reads in a fresh session over `tree` that comes to
`u'`: no file that is read was changed, and none is in the way; no document that is taken up was
compiled; and what is referred to is known as the file that it is, if at all. -/
structure Bench.Spares (v : Bench) (brief : Brief) (layout : Option Path) (tree : FileTree) (u' : Bench) :
    Prop where
  trees : FileTree.Agree {q | brief.ReadsFrom layout u' q} {q | q ∈ u'.lookups} tree v.tree
  documents : ∀ d ∈ u'.session.linked, d ∉ v.session.finished
  origins : ∀ o ∈ u'.session.store.askedIn 0, ∀ a,
    v.session.store.entryAt? 0 (.ofOrigin o) = some a → a.source = ⟨o⟩ ∧ a.isMarked = false

variable {tree : FileTree} {cwd : Path} {settings first second : Settings} {input : Entry}
  {a b b' b₁ b₁' : Bundle} {s s' u u' v v' : Bench} {x : Reuse}

/-- What was taken up is laid down once the page is written. -/
theorem Bundle.inFlight_of_write {report : WriteReport}
    (hrun : (write.run.run b).run s = ((.ok report, b'), s')) :
    s'.session.inFlight = s.session.inFlight := by
  have hsame := inFlight_write b s
  have hlands := lands_generateWithin (s.depth b.brief.mapping) b s
  rw [hrun] at hsame
  rcases hgenerate : (generate.run.run b).run s with ⟨⟨q, b₁⟩, s₁⟩
  cases q with
  | error e =>
    unfold write at hrun
    rw [Making.run_bind_of_error hgenerate] at hrun
    cases hrun
  | ok g =>
    rw [hgenerate] at hsame
    rw [run_generate] at hgenerate
    exact hsame.trans (hlands.ok hgenerate)

namespace Settings

theorem made_of_run (hinput : settings.input = some input) (hne : input.isEmpty = false)
    (hrun : (settings.make cwd).run.run s = (.ok b, s')) :
    b.brief = settings.brief cwd input ∧ b.output = settings.output ∧
      b.registry = s.session.store.registries.size := by
  rw [run_make hinput hne] at hrun
  exact Bundle.made_of_run (s := s.hushed settings.silent) hrun

theorem aside_make (hrun : (settings.make cwd).run.run s = (.ok b, s')) :
    s'.tree = s.tree ∧ s'.session.inFlight = s.session.inFlight ∧
      ∀ r, s'.session.store.tokens r = s.session.store.tokens r := by
  obtain ⟨input, hinput, hne⟩ := settings.exists_input hrun
  rw [run_make hinput hne] at hrun
  obtain ⟨count, haside⟩ := Bundle.aside_make (settings.brief cwd input) settings.output
    s.session.root none (s.hushed settings.silent)
  rw [hrun] at haside
  refine ⟨haside.tree, haside.inFlight, fun r => ?_⟩
  rw [haside.store]
  exact Store.tokens_family _ _ _ r

theorem onward_make (hs : s.Regular) (hcwd : cwd.IsNormal)
    (hrun : (settings.make cwd).run.run s = (.ok b, s')) : s.Onward s' :=
  ((exits_make settings hs hcwd).ok hrun).2.1

end Settings

theorem Store.le_continued {n : Nat} {f : RegistryId → RegistryId} {r : RegistryId} (hpos : 0 < r) :
    n ≤ continued f 1 n r := by
  unfold continued
  rw [if_neg (Nat.not_lt.2 hpos)]
  exact Nat.le_add_right _ _

namespace Bench.Used

/-- In the used session the second bundle waits. -/
theorem waits (h : Bench.Used tree cwd first second b' v) (hcwd : cwd.IsNormal)
    (hinput : second.input = some input) (hne : input.isEmpty = false)
    (hmade : (second.make cwd).run.run { tree, session := .fresh } = (.ok b, u))
    (htrees : FileTree.Agree {q | (second.brief cwd input).ReadsFrom second.output.layout u q}
      {q | q ∈ u.lookups} tree v.tree) :
    (∃ f, b.Waits f u v b') ∧ v.Regular ∧ b'.AtHand v ∧ v.session.inFlight = [] := by
  have hfresh : Bench.Arises { tree, session := .fresh } [] := .fresh tree htrees.sound.hasFile_nil
  have hregular := hfresh.regular.1
  cases h with
  | @after a a' s₁ s₂ report hfirst hwrite hsecond =>
    obtain ⟨other, hother, hne'⟩ := first.exists_input hfirst
    have hmade₁ : s₁.Arises [a] := .make hfresh hcwd hfirst
    have hwritten : s₂.Arises [a', a] := .write hmade₁ List.mem_cons_self hwrite
    have hin : s₂.session.inFlight = [] := by
      rw [Bundle.inFlight_of_write hwrite, (Settings.aside_make hfirst).2.1]
      rfl
    obtain ⟨htree, hsame, -⟩ := Settings.aside_make hsecond
    obtain ⟨b₀, hb₀, hwaits⟩ := second.waits_make hcwd hwritten.regular.1 hin hinput hne hmade hsecond
      (htree ▸ htrees)
    obtain rfl := Except.ok.inj hb₀
    obtain ⟨hv, hall⟩ := (Bench.Arises.make hwritten hcwd hsecond).regular
    exact ⟨⟨_, hwaits⟩, hv, hall b' List.mem_cons_self, hsame.trans hin⟩
  | @between a a' s₁ s₂ report hfirst hsecond hwrite =>
    obtain ⟨other, hother, hne'⟩ := first.exists_input hfirst
    have hblank₁ : s₁.Blank tree := (Bench.Blank.fresh tree).of_make hfirst
    have hblank₂ : s₂.Blank tree := hblank₁.of_make hsecond
    have hmade₁ : s₁.Arises [a] := .make hfresh hcwd hfirst
    have hmade₂ : s₂.Arises [b', a] := .make hmade₁ hcwd hsecond
    obtain ⟨hs₂, hall⟩ := hmade₂.regular
    obtain ⟨a₀, ha, hfirst₁⟩ := first.waits_make hcwd hregular rfl hother hne' hfirst hfirst
      (.refl htrees.sound _ _)
    obtain rfl := Except.ok.inj ha
    obtain ⟨b₀, hb, hsecond₂⟩ := second.waits_make hcwd hmade₁.regular.1 hblank₁.inFlight hinput hne
      hmade hsecond (hblank₁.tree.symm ▸ .refl htrees.sound _ _)
    obtain rfl := Except.ok.inj hb
    have hfirst₂ := hfirst₁.later (Settings.onward_make hmade₁.regular.1 hcwd hsecond)
      fun r _ _ => (Settings.aside_make hsecond).2.2 _
    have hwaits := hsecond₂.of_write hcwd htrees.sound hfirst hfirst₂ hblank₂ hs₂
      (hall a (by simp)) (fun r x hpos _ _ hx heq => ?_) hwrite
    · obtain ⟨hv, hall'⟩ := (Bench.Arises.write hmade₂ (by simp) hwrite).regular
      refine ⟨⟨_, hwaits⟩, hv, hall' b' (by simp), ?_⟩
      rw [Bundle.inFlight_of_write hwrite, hblank₂.inFlight]
    · have hlt := hfirst₁.hosts.lt x hx
      rw [← heq] at hlt
      exact Nat.not_lt.2 (Store.le_continued hpos) hlt
  | @before a a' s₁ s₂ report hsecond hfirst hwrite =>
    obtain ⟨other, hother, hne'⟩ := first.exists_input hfirst
    have hblank₁ : s₁.Blank tree := (Bench.Blank.fresh tree).of_make hsecond
    have hblank₂ : s₂.Blank tree := hblank₁.of_make hfirst
    have hmade₁ : s₁.Arises [b'] := .make hfresh hcwd hsecond
    have hmade₂ : s₂.Arises [a, b'] := .make hmade₁ hcwd hfirst
    obtain ⟨hs₂, hall⟩ := hmade₂.regular
    obtain ⟨b₀, hb, hsecond₁⟩ := second.waits_make hcwd hregular rfl hinput hne hmade hsecond
      (.refl htrees.sound _ _)
    obtain rfl := Except.ok.inj hb
    rcases hother₁ : (first.make cwd).run.run { tree, session := .fresh } with ⟨r₀, s₀⟩
    obtain ⟨a₀, rfl, hfirst₂⟩ := first.waits_make hcwd hmade₁.regular.1 hblank₁.inFlight hother hne'
      hother₁ hfirst (hblank₁.tree.symm ▸ .refl htrees.sound _ _)
    have hsecond₂ := hsecond₁.later (Settings.onward_make hmade₁.regular.1 hcwd hfirst)
      fun r _ _ => (Settings.aside_make hfirst).2.2 _
    have hwaits := hsecond₂.of_write hcwd htrees.sound hother₁ hfirst₂ hblank₂ hs₂
      (hall a (by simp)) (fun r x _ hr hpos _ heq => ?_) hwrite
    · obtain ⟨hv, hall'⟩ := (Bench.Arises.write hmade₂ (by simp) hwrite).regular
      refine ⟨⟨_, hwaits⟩, hv, hall' b' (by simp), ?_⟩
      rw [Bundle.inFlight_of_write hwrite, hblank₂.inFlight]
    · have hlt := hsecond₁.hosts.lt r hr
      rw [heq] at hlt
      exact Nat.not_lt.2 (Store.le_continued hpos) hlt

end Bench.Used

namespace Bundle

/-- A bundle that is written in a used session comes to the same result as in a fresh one, the same
pages are written, and its assets are copied alike; besides, the assets that were there before are
copied again. -/
theorem write_recurs {r r' : Except Failure WriteReport} (hcwd : cwd.IsNormal)
    (hmade : (second.make cwd).run.run { tree, session := .fresh } = (.ok b, u))
    (hrun : (write.run.run b).run u = ((r, b₁), u')) (hused : Bench.Used tree cwd first second b' v)
    (hspares : v.Spares b.brief b.output.layout tree u')
    (hcalm : ∀ s, b'.CopiesFrom v s → s.Calm u'.session.pagePlaces)
    (hrun' : (write.run.run b').run v = ((r', b₁'), v')) : v.Recurs u' v' r r' := by
  obtain ⟨input, hinput, hne⟩ := second.exists_input hmade
  obtain ⟨hbrief, houtput, hregistry⟩ := Settings.made_of_run hinput hne hmade
  rw [hbrief, houtput] at hspares
  have hblank : u.Blank tree := (Bench.Blank.fresh tree).of_make hmade
  obtain ⟨hu, hall⟩ :=
    (Bench.Arises.make (.fresh tree hspares.trees.sound.hasFile_nil) hcwd hmade).regular
  have hatHand : b.AtHand u := hall b List.mem_cons_self
  let onto (f : RegistryId → RegistryId) : Reuse := (second.brief cwd input).reuse
    second.output.layout u' (second.isNormal_root hcwd input)
    (Store.continued f u.session.store.registries.size v.session.store.registries.size)
    u.session.silent v hspares.documents hspares.origins
  have htakes (f : RegistryId → RegistryId) :
      (onto f).Takes u.session.store.registries.size false b :=
    second.takes_make (s := { tree, session := .fresh }) rfl rfl Nat.one_pos hinput hne hmade
  have hgrown := grown_write (htakes id) (Nat.le_refl _)
  rw [hrun] at hgrown
  obtain ⟨⟨f, hwaits⟩, hv, hatHand', hin⟩ := hused.waits hcwd hinput hne hmade
    (hspares.trees.mono (fun _ hq => hq.later hblank u') (hblank.lookups_subset hgrown))
  have hmirrors : (onto f).Mirrors u v := hblank.mirrors (x := onto f)
    (hwaits.hosts.mirrors hwaits.young hv.reachable hv.descends hblank.tokens) rfl hin
    hspares.trees
  have hsame : (onto f).onBundle b = b.numbered f := numbered_congr (htakes f) fun _ hr => if_pos hr
  have heq : (onto f).onBundle b = b' := hsame.trans hwaits.eq.symm
  exact recurs_write Brief.within_reuse u'.pagePlaces_subset (fun a ha => .asset ha) hmirrors
    (htakes f) (Nat.le_refl _) hregistry hatHand hu (heq ▸ hatHand') hv hrun (heq ▸ hrun')
    (heq ▸ hcalm)

/-- Documents with pictures. The second one and the fourth one link to the third one. -/
def leaflets : FileTree := { files := [
  (["a.md"], .text "![](p.png)"), (["b.md"], .text "[](c.md)![](q.png)"), (["c.md"], .text ""),
  (["d.md"], .text "[](c.md)![](p.png)"), (["p.png"], .text "p"), (["q.png"], .text "q"),
  (["page"], .text "\x7b\x7bcontent\x7d\x7d")] }

def leafletSettings (name dist : String) : Settings :=
  { input := some (.one name), output := { dist := some ⟨dist⟩, layout := some ⟨"page"⟩ } }

/-- The session in which the first bundle was written before the second one was made. -/
def makeAfter (first second : Settings) (cwd : Path) (tree : FileTree) : Option (Bundle × Bench) :=
  match (first.make cwd).run.run { tree, session := .fresh } with
  | (.error _, _) => none
  | (.ok a, s₁) =>
    match (write.run.run a).run s₁ with
    | ((.error _, _), _) => none
    | ((.ok _, _), s₂) =>
      match (second.make cwd).run.run s₂ with
      | (.error _, _) => none
      | (.ok b, v) => some (b, v)

theorem used_of_makeAfter (h : makeAfter first second cwd tree = some (b, v)) :
    Bench.Used tree cwd first second b v := by
  unfold makeAfter at h
  split at h
  · cases h
  · next hfirst =>
    split at h
    · cases h
    · next hwrite =>
      split at h
      · cases h
      · next hsecond =>
        obtain ⟨rfl, rfl⟩ := Prod.mk.inj (Option.some.inj h)
        exact .after hfirst hwrite hsecond

theorem exists_of_make {P : Bundle → Bench → Prop}
    (h : ∃ b ∈ ((settings.make cwd).run.run s).1.toOption, P b ((settings.make cwd).run.run s).2) :
    ∃ b u, (settings.make cwd).run.run s = (.ok b, u) ∧ P b u := by
  obtain ⟨b, hb, hP⟩ := h
  rcases hmade : (settings.make cwd).run.run s with ⟨r, u⟩
  rw [hmade] at hb hP
  cases r with
  | error e => cases hb
  | ok b₀ =>
    obtain rfl := Option.some.inj hb
    exact ⟨b₀, u, rfl, hP⟩

theorem exists_leaflet : ∃ b u report b₁ u',
    ((leafletSettings "b.md" "site").make ⟨"/"⟩).run.run { tree := leaflets, session := .fresh } =
      (.ok b, u) ∧
    (write.run.run b).run u = ((.ok report, b₁), u') ∧
    report.assets = [⟨⟨"/q.png"⟩, some ⟨"/site/q.png"⟩, .ok⟩] ∧
    u'.lookups = [["b.md"], ["page"], ["page"], ["page"], ["c.md"], ["page"], ["page"], ["page"],
      ["site", "c.html"], ["site", "b.html"], ["q.png"], ["site", "q.png"], ["site", "c.html"],
      ["site", "b.html"]] ∧
    u'.session.linked = [⟨"/c.md"⟩] ∧ u'.session.store.askedIn 0 = ["/c.md", "/q.png"] ∧
    u'.session.pages.map (fun page => placeOf page.file) = [["site", "c.html"], ["site", "b.html"]] ∧
    u'.tree.content? ["site", "c.html"] = some (.text "") := by
  have hruns : ∃ b u, ((leafletSettings "b.md" "site").make ⟨"/"⟩).run.run
        { tree := leaflets, session := .fresh } = (.ok b, u) ∧
      let done := (write.run.run b).run u
      done.1.1.toOption.map (·.assets) = some [⟨⟨"/q.png"⟩, some ⟨"/site/q.png"⟩, .ok⟩] ∧
      done.2.lookups = [["b.md"], ["page"], ["page"], ["page"], ["c.md"], ["page"], ["page"], ["page"],
        ["site", "c.html"], ["site", "b.html"], ["q.png"], ["site", "q.png"], ["site", "c.html"],
        ["site", "b.html"]] ∧
      done.2.session.linked = [⟨"/c.md"⟩] ∧ done.2.session.store.askedIn 0 = ["/c.md", "/q.png"] ∧
      done.2.session.pages.map (fun page => placeOf page.file) =
        [["site", "c.html"], ["site", "b.html"]] ∧
      done.2.tree.content? ["site", "c.html"] = some (.text "") :=
    exists_of_make (by decide +kernel)
  obtain ⟨b, u, hmade, hassets, hrest⟩ := hruns
  rcases hrun : (write.run.run b).run u with ⟨⟨r, b₁⟩, u'⟩
  rw [hrun] at hassets hrest
  cases r with
  | error e => cases hassets
  | ok report => exact ⟨b, u, report, b₁, u', hmade, hrun, Option.some.inj hassets, hrest⟩

theorem write_recurs_leaflets : ∃ b u r b₁ u' b' v r' b₁' v',
    ((leafletSettings "b.md" "site").make ⟨"/"⟩).run.run { tree := leaflets, session := .fresh } =
      (.ok b, u) ∧
    (write.run.run b).run u = ((r, b₁), u') ∧
    Bench.Used leaflets ⟨"/"⟩ (leafletSettings "a.md" "out") (leafletSettings "b.md" "site") b' v ∧
    v.Spares b.brief b.output.layout leaflets u' ∧
    (∀ s, b'.CopiesFrom v s → s.Calm u'.session.pagePlaces) ∧
    (write.run.run b').run v = ((r', b₁'), v') ∧ v.Recurs u' v' r r' := by
  have hused : ∃ x ∈ makeAfter (leafletSettings "a.md" "out") (leafletSettings "b.md" "site") ⟨"/"⟩
        leaflets,
      x.2.tree = { leaflets with
        directories := [["out"]]
        files := leaflets.files ++ [
          (["out", "a.html"], .text "<p><img src=\"p.png\" alt=\"\"></p>"),
          (["out", "p.png"], .text "p")] } ∧
      x.2.session.finished = [⟨"/a.md"⟩] ∧
      (∀ o ∈ ["/c.md", "/q.png"], (x.2.session.store.entryAt? 0 (.ofOrigin o)).isNone = true) ∧
      (((publish.run.run x.1).run x.2).2.session.store.loose 0).map Asset.aim =
        [(⟨"/p.png"⟩, some ⟨"/out/p.png"⟩), (⟨"/q.png"⟩, some ⟨"/site/q.png"⟩)] := by
    decide +kernel
  obtain ⟨b, u, report, b₁, u', hmade, hrun, -, hlookups, hlinked, horigins, hpages, -⟩ := exists_leaflet
  obtain ⟨⟨b', v⟩, hafter, htree, hfinished, hnew, haims⟩ := hused
  rcases hrun' : (write.run.run b').run v with ⟨⟨r', b₁'⟩, v'⟩
  dsimp only at htree hfinished hnew haims
  have hagree : FileTree.Agree Set.univ {q | q ∈ u'.lookups} leaflets v.tree := by
    rw [hlookups, htree]
    decide +kernel
  have hspares : v.Spares b.brief b.output.layout leaflets u' := by
    refine ⟨hagree.mono (Set.subset_univ _) (Set.Subset.refl _), ?_, fun o ho a ha => ?_⟩
    · rw [hlinked, hfinished]
      decide
    · rw [horigins] at ho
      have hnone := hnew o ho
      rw [ha] at hnone
      cases hnone
  have hcalm : ∀ s, b'.CopiesFrom v s → s.Calm u'.session.pagePlaces := by
    rintro s ⟨b₂, file, hpublish⟩
    rw [hpublish] at haims
    have hclear : ∀ w ∈ (s.session.store.loose 0).map Asset.aim, ∀ t ∈ w.2, w.1 ≠ t →
        placeOf t ∉ u'.session.pages.map fun page => placeOf page.file := by
      rw [haims, hpages]
      decide +kernel
    refine Bench.calm_of_scattered (haims ▸ by decide +kernel) fun w hw t ht hne hplace => ?_
    exact hclear w hw t ht hne (List.mem_map.2 hplace)
  have hcwd : (⟨"/"⟩ : Path).IsNormal := ⟨rfl, by decide +kernel⟩
  have hbefore := used_of_makeAfter hafter
  exact ⟨b, u, .ok report, b₁, u', b', v, r', b₁', v', hmade, hrun, hbefore, hspares, hcalm, hrun',
    write_recurs hcwd hmade hrun hbefore hspares hcalm hrun'⟩

/-- What the first bundle copied is copied and reported again, and a page that it has is not made
again, also when it changed nothing that the second one looks up. -/
theorem exists_write_otherwise :
    (leafletSettings "d.md" "out").plugins = [] ∧ (leafletSettings "b.md" "site").plugins = [] ∧
    ∃ b u report b₁ u' b' v report' b₁' v',
      ((leafletSettings "b.md" "site").make ⟨"/"⟩).run.run { tree := leaflets, session := .fresh } =
        (.ok b, u) ∧
      (write.run.run b).run u = ((.ok report, b₁), u') ∧
      Bench.Used leaflets ⟨"/"⟩ (leafletSettings "d.md" "out") (leafletSettings "b.md" "site") b' v ∧
      FileTree.Agree Set.univ {q | q ∈ u'.lookups} leaflets v.tree ∧
      (write.run.run b').run v = ((.ok report', b₁'), v') ∧
      ¬ report'.assets.Perm report.assets ∧
      v'.tree.content? ["site", "c.html"] ≠ u'.tree.content? ["site", "c.html"] := by
  have hused : ∃ x ∈ makeAfter (leafletSettings "d.md" "out") (leafletSettings "b.md" "site") ⟨"/"⟩
        leaflets,
      x.2.tree = { leaflets with
        directories := [["out"]]
        files := leaflets.files ++ [(["out", "c.html"], .text ""),
          (["out", "d.html"], .text "<p><a href=\"c.html\"></a><img src=\"p.png\" alt=\"\"></p>"),
          (["out", "p.png"], .text "p")] } ∧
      let done := (write.run.run x.1).run x.2
      done.1.1.toOption.map (·.assets.length) = some 2 ∧
      done.2.tree.content? ["site", "c.html"] = none := by
    decide +kernel
  obtain ⟨b, u, report, b₁, u', hmade, hrun, hassets, hlookups, -, -, -, hpage⟩ := exists_leaflet
  obtain ⟨⟨b', v⟩, hafter, htree, hassets', hpage'⟩ := hused
  rcases hrun' : (write.run.run b').run v with ⟨⟨r', b₁'⟩, v'⟩
  dsimp only at htree hassets' hpage'
  rw [hrun'] at hassets' hpage'
  cases r' with
  | error e => cases hassets'
  | ok report' =>
    refine ⟨rfl, rfl, b, u, report, b₁, u', b', v, report', b₁', v', hmade, hrun,
      used_of_makeAfter hafter, ?_, hrun', fun hperm => ?_, ?_⟩
    · rw [hlookups, htree]
      decide +kernel
    · have htwo : report'.assets.length = 2 := Option.some.inj hassets'
      rw [hperm.length_eq, hassets] at htwo
      exact absurd htwo (by decide)
    · rw [hpage, hpage']
      exact (Option.some_ne_none _).symm

end Bundle
end Bindery
