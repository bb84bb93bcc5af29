import Bindery.Proofs.Project.Alongside
import Bindery.Proofs.Project.Recopying
import Bindery.Proofs.Project.Sessions

/-! A bundle that is written in a used session. Its pages are those that it gets in a fresh one, and so
are the copies of its assets; but all that the session holds is copied with them. -/

namespace Bindery

open FileTree (placeOf)

variable {x : Reuse} {n : Nat} {b b' : Bundle} {s s' u v u' v' : Bench}

section RunBind

variable {α β : Type}

theorem Work.run_bind_of_ok {w : Work α} {f : α → Work β} {a : α}
    (h : w.run.run s = (.ok a, s')) : (w >>= f).run.run s = (f a).run.run s' := by
  rw [run_bind, h]
  rfl

theorem Work.run_bind_of_error {w : Work α} {f : α → Work β} {e : Failure}
    (h : w.run.run s = (.error e, s')) : (w >>= f).run.run s = (.error e, s') := by
  rw [run_bind, h]
  rfl

theorem Making.run_bind_of_ok {w : Making α} {f : α → Making β} {a : α}
    (h : (w.run.run b).run s = ((.ok a, b'), s')) :
    ((w >>= f).run.run b).run s = ((f a).run.run b').run s' := by
  rw [run_bind, h]
  rfl

theorem Making.run_bind_of_error {w : Making α} {f : α → Making β} {e : Failure}
    (h : (w.run.run b).run s = ((.error e, b'), s')) :
    ((w >>= f).run.run b).run s = ((.error e, b'), s') := by
  rw [run_bind, h]
  rfl

end RunBind

namespace Bundle

open Work (run_bind_of_ok run_bind_of_error)
open Making (bundle tracks_lift)

/-! What is done once the page is written. -/

/-- The session once it has told of assets. -/
def told (root : Path) (reports : List AssetReport) (s : Bench) : Bench :=
  { s with session := { s.session with events := s.session.events ++
    (if s.session.silent then [] else reports).map fun r => .logged r.level (r.line root) } }

/-- The bench once the assets below a root are copied. -/
def restocked (r : RegistryId) (s : Bench) : Bench := { s with
  tree := (copyAssets s.tree s.tree (s.session.store.loose r)).1
  asked := s.asked ++ (s.session.store.loose r).flatMap fun a => a.source :: a.target.toList }

theorem run_told (root : Path) (reports : List AssetReport) (s : Bench) :
    (reports.filterMapM (advise root)).run.run s =
      (.ok (AssetReport.advisories s.session.silent root reports), told root reports s) :=
  run_advises root reports s

theorem printed_told (root : Path) (reports : List AssetReport) (s : Bench) :
    (told root reports s).session.printed = s.session.printed :=
  s.session.printed_logged AssetReport.level (AssetReport.line root) _

/-- For the page of a bundle that is not nested, the assets of the whole session are copied. -/
theorem run_emitAssets (hb : b.isNested = false) (s : Bench) :
    let r := s.session.store.rootOf b.registry
    b.emitAssets.run.run s =
      (.ok (copyAssets s.tree s.tree (s.session.store.loose r)).2, restocked r s) := by
  have hrun : b.emitAssets.run.run s =
      (if b.isNested then pure [] else materialize (s.session.store.rootOf b.registry)
        : Work (List AssetReport)).run.run s := by
    unfold emitAssets
    cases b.isNested <;> rfl
  rw [hrun, hb]
  rfl

theorem run_emitReport (hb : b.isNested = false) (file : Path) (s : Bench) :
    let r := s.session.store.rootOf b.registry
    let assets := (copyAssets s.tree s.tree (s.session.store.loose r)).2
    let lines := AssetReport.advisories s.session.silent b.brief.root
    (emitReport b (some file)).run.run s =
      (.ok { outfile := some file, assets, advisories := lines (b.pageReports file) ++ lines assets },
        told b.brief.root assets (restocked r (told b.brief.root (b.pageReports file) s))) := by
  unfold emitReport
  dsimp only
  rw [run_bind_of_ok (run_told _ _ s),
    run_bind_of_ok (run_emitAssets hb (told b.brief.root (b.pageReports file) s)),
    run_bind_of_ok (run_told _ _ _)]
  rfl

/-- Reporting a page does nothing to the registries, and fails in no case. -/
theorem reported (hb : b.isNested = false) (file : Option Path) (s : Bench) :
    let ran := (emitReport b file).run.run s
    ran.1.isOk = true ∧ s.Grown ran.2 ∧ ran.2.session.store = s.session.store := by
  cases file with
  | none => exact ⟨rfl, .refl s, rfl⟩
  | some file =>
    rw [run_emitReport hb]
    exact ⟨rfl, ⟨List.subset_append_left _ _, List.Subset.refl _, List.Subset.refl _, Nat.le_refl _⟩, rfl⟩

theorem store_emitPage (g : Generated) (s : Bench) :
    ((emitPage g).run.run s).2.session.store = (g.plan.run g.html s.session.store g.registry).store := by
  unfold emitPage
  rw [run_bind_of_ok (run_settle g s)]
  cases g.plan.outfile with
  | none => rfl
  | some outfile =>
    dsimp only
    rw [← bind_assoc, Work.run_bind, Work.run_publish]
    dsimp only
    split <;> rfl

/-- Compiles a page, and writes or prints it, without a word. -/
def publish : Making (Option Path) := do
  let g ← generate
  emitPage g

/-- The page is published, and then it is reported. -/
theorem write_eq : write = publish >>= fun file => bundle >>= fun b => liftM (emitReport b file) := by
  unfold write publish
  rw [bind_assoc]
  refine bind_congr fun g => ?_
  funext b s
  have hlift : ((liftM (emitPage g) : Making (Option Path)).run.run b).run s =
      ((((emitPage g).run.run s).1, b), ((emitPage g).run.run s).2) := rfl
  have hemit : ((bundle >>= fun b => liftM (emit b g) : Making WriteReport).run.run b).run s =
      ((((emit b g).run.run s).1, b), ((emit b g).run.run s).2) := rfl
  refine hemit.trans (Eq.trans ?_ (Making.run_bind _ _ b s).symm)
  rw [hlift, emit_eq]
  rcases hpage : (emitPage g).run.run s with ⟨q, s₁⟩
  cases q with
  | error e => rw [run_bind_of_error hpage]; rfl
  | ok file => rw [run_bind_of_ok hpage]; rfl

theorem run_write_of_ok {file : Option Path} (h : (publish.run.run b).run s = ((.ok file, b'), s')) :
    (write.run.run b).run s =
      ((((emitReport b' file).run.run s').1, b'), ((emitReport b' file).run.run s').2) := by
  rw [write_eq, Making.run_bind_of_ok h]
  rfl

theorem run_write_of_error {e : Failure} (h : (publish.run.run b).run s = ((.error e, b'), s')) :
    (write.run.run b).run s = ((.error e, b'), s') := by
  rw [write_eq, Making.run_bind_of_error h]

theorem exists_generated {file : Option Path}
    (h : (publish.run.run b).run s = ((.ok file, b'), s')) :
    ∃ g s₁, (generate.run.run b).run s = ((.ok g, b'), s₁) ∧ (emitPage g).run.run s₁ = (.ok file, s') := by
  unfold publish at h
  rcases hgenerate : (generate.run.run b).run s with ⟨⟨q, b₁⟩, s₁⟩
  cases q with
  | error e =>
    rw [Making.run_bind_of_error hgenerate] at h
    cases h
  | ok g =>
    rw [Making.run_bind_of_ok hgenerate] at h
    obtain ⟨hresult, hbench⟩ := Prod.mk.inj h
    obtain ⟨hfile, rfl⟩ := Prod.mk.inj hresult
    exact ⟨g, s₁, rfl, Prod.ext hfile hbench⟩

/-! Publishing in both sessions. -/

/-- A greater depth makes no difference, since its own depth is enough for a bundle at hand. -/
theorem run_generateWithin (h : b.AtHand s) (hs : s.Regular) {depth : Nat}
    (hle : s.depth b.brief.mapping ≤ depth) :
    ((generateWithin depth).run.run b).run s = (generate.run.run b).run s := by
  rw [run_generate]
  rcases refines_generateWithin hle b s with hdeep | heq
  · have hexits := h.exits_generate hs
    unfold Making.Exits at hexits
    rw [run_generate] at hexits
    generalize ((generateWithin (s.depth b.brief.mapping)).run.run b).run s = ran at hdeep hexits
    obtain ⟨⟨q, b₁⟩, s₁⟩ := ran
    obtain rfl : q = .error .tooDeep := hdeep
    exact (hexits.2.depth rfl).elim
  · exact heq.symm

/-- What is known of a bundle that was published, when it is at hand. -/
theorem AtHand.of_publish (h : b.AtHand s) (hs : s.Regular) {file : Option Path}
    (hrun : (publish.run.run b).run s = ((.ok file, b'), s')) :
    b.Kept b' ∧ s'.session.store.Descends ∧ s'.session.store.Each (fun _ a => a.source.IsNormal) ∧
      b.registry < s'.session.store.registries.size := by
  obtain ⟨g, s₁, hgenerate, hpage⟩ := exists_generated hrun
  obtain ⟨hkept, hs₁, honward, -⟩ := (h.exits_generate hs).ok hgenerate
  have hstore := store_emitPage g s₁
  rw [hpage] at hstore
  refine ⟨hkept, hstore ▸ Relocation.descends_run hs₁.descends, hstore ▸ Relocation.each_run
    (hs₁.each.mono fun _ _ h => h.1) fun t a ha => ?_, ?_⟩
  · rwa [Relocation.source_place, ha.normalize_eq]
  · rw [hstore, Relocation.registries_run]
    exact (h.onward honward).housed.registry_lt

section Publish

variable (hb : x.Takes n false b) (hn : n ≤ u.session.store.registries.size)

include hb hn

theorem grown_generate : u.Grown ((generate.run.run b).run u).2 ∧
    x.Takes n false ((generate.run.run b).run u).1.2 := by
  rw [run_generate]
  exact ((repeats_generateWithin _).tracks n false).grown b u hb hn

theorem pos_generate {g : Generated} (hg : ((generate.run.run b).run u).1.1 = .ok g) :
    0 < g.registry := by
  rw [run_generate] at hg
  exact (repeats_generateWithin _).pos n false b u g hb hn hg

theorem grown_publish : u.Grown ((publish.run.run b).run u).2 ∧
    x.Takes n false ((publish.run.run b).run u).1.2 :=
  Making.grown_bind hn (grown_generate hb hn) fun _ hg =>
    (tracks_lift (tracks_emitPage (x := x) (n := n) (pos_generate hb hn hg))).grown

theorem grown_write : u.Grown ((write.run.run b).run u).2 := by
  obtain ⟨hgrown, htakes⟩ := grown_publish hb hn
  rcases hpublish : (publish.run.run b).run u with ⟨⟨q, b₁⟩, u₁⟩
  rw [hpublish] at hgrown htakes
  cases q with
  | error e =>
    rw [run_write_of_error hpublish]
    exact hgrown
  | ok file =>
    rw [run_write_of_ok hpublish]
    exact hgrown.trans (reported htakes.isNested file u₁).2.1

variable (hbu : b.AtHand u) (hu : u.Regular) (h : x.Mirrors u v) (hbv : (x.onBundle b).AtHand v)
  (hv : v.Regular)

include hbu hu h hbv hv

theorem follows_generate :
    Making.Follows x (fun g g' => g' = x.onGenerated g) generate generate b u v := by
  obtain ⟨depth, hle, hle'⟩ : ∃ depth, u.depth b.brief.mapping ≤ depth ∧
      v.depth (x.onBundle b).brief.mapping ≤ depth :=
    ⟨max (u.depth b.brief.mapping) (v.depth b.brief.mapping), Nat.le_max_left _ _, Nat.le_max_right _ _⟩
  have hfollows := ((repeats_generateWithin (x := x) depth).tracks n false).follows b u v hb h hn
  unfold Making.Follows at hfollows ⊢
  rwa [run_generateWithin hbu hu hle, run_generateWithin hbv hv hle'] at hfollows

theorem follows_publish : Making.Follows x Eq publish publish b u v := by
  obtain ⟨hgrown, htakes⟩ := grown_generate hb hn
  refine (follows_generate hb hn hbu hu h hbv hv).bind htakes (Nat.le_trans hn hgrown.size)
    (fun g => ⟨_, rfl⟩) ?_
  rintro g _ hg rfl
  exact tracks_lift (tracks_emitPage (pos_generate hb hn hg))

/-- Once the page is published, what the page refers to goes the same ways in both sessions. -/
theorem sameWays_publish (hone : b.registry = 1) {file file' : Option Path} {b₁ b₁' : Bundle}
    (hrun : (publish.run.run b).run u = ((.ok file, b₁), u'))
    (hrun' : (publish.run.run (x.onBundle b)).run v = ((.ok file', b₁'), v')) (hin : x.Within u') :
    u'.session.store.SameWays v'.session.store := by
  obtain ⟨g, u₁, hgenerate, hpage⟩ := exists_generated hrun
  obtain ⟨g', v₁, hgenerate', hpage'⟩ := exists_generated hrun'
  have hpos := pos_generate hb hn (congrArg (·.1.1) hgenerate)
  have hfollows := follows_generate hb hn hbu hu h hbv hv
  unfold Making.Follows at hfollows
  rw [hgenerate, hgenerate'] at hfollows
  have hgrown := (tracks_emitPage (x := x) (n := 0) hpos).grown u₁ (Nat.zero_le _)
  have hstore := store_emitPage g u₁
  have hstore' := store_emitPage g' v₁
  rw [hpage] at hgrown hstore
  rw [hpage'] at hstore'
  obtain ⟨hanswers, -, hleads⟩ := hfollows (hin.of_grown hgrown)
  cases hanswers with
  | ok heq =>
    subst heq
    obtain ⟨-, hu₁, -, hregistry, -⟩ := (hbu.exits_generate hu).ok hgenerate
    obtain ⟨-, hv₁, -⟩ := (hbv.exits_generate hv).ok hgenerate'
    have hsize : 1 < u₁.session.store.registries.size := by
      have hlt := Nat.lt_of_lt_of_le hb.lt (Nat.le_trans hn (grown_generate hb hn).1.size)
      rwa [hgenerate, hone] at hlt
    rw [hstore, hstore']
    refine hleads.mirrors.store.sameWays_run hpos ?_ (hu₁.each.mono fun _ _ h => h.1)
      (hv₁.each.mono fun _ _ h => h.1) g.plan g.html
    rw [hregistry, hone]
    exact (hleads.mirrors.store.young.funnels hsize).tokens

/-- The registries are as far as each other again when the bundle is written. -/
theorem mirrors_write {r r' : Except Failure WriteReport} {b₁ b₁' : Bundle}
    (hrun : (write.run.run b).run u = ((r, b₁), u'))
    (hrun' : (write.run.run (x.onBundle b)).run v = ((r', b₁'), v')) (hin : x.Within u') :
    Store.Mirrors x.number x.base.session.store u'.session.store v'.session.store := by
  have hfollows := follows_publish hb hn hbu hu h hbv hv
  have htakes := (grown_publish hb hn).2
  unfold Making.Follows at hfollows
  rcases hpublish : (publish.run.run b).run u with ⟨⟨q, b₂⟩, u₁⟩
  rcases hpublish' : (publish.run.run (x.onBundle b)).run v with ⟨⟨q', b₂'⟩, v₁⟩
  rw [hpublish] at htakes hfollows
  rw [hpublish'] at hfollows
  cases q with
  | error e =>
    rw [run_write_of_error hpublish] at hrun
    obtain ⟨-, rfl⟩ := Prod.mk.inj hrun
    obtain ⟨hanswers, -, hleads⟩ := hfollows hin
    cases hanswers
    rw [run_write_of_error hpublish'] at hrun'
    obtain ⟨-, rfl⟩ := Prod.mk.inj hrun'
    exact hleads.mirrors.store
  | ok file =>
    rw [run_write_of_ok hpublish] at hrun
    obtain ⟨-, rfl⟩ := Prod.mk.inj hrun
    obtain ⟨-, hgrown, hstore⟩ := reported htakes.isNested file u₁
    obtain ⟨hanswers, rfl, hleads⟩ := hfollows (hin.of_grown hgrown)
    cases hanswers with
    | ok heq =>
      subst heq
      rw [run_write_of_ok hpublish'] at hrun'
      obtain ⟨-, rfl⟩ := Prod.mk.inj hrun'
      have hstore' := (reported (b := x.onBundle b₂) htakes.isNested file v₁).2.2
      rw [hstore, hstore']
      exact hleads.mirrors.store

end Publish

end Bundle

/-- The report of a used session: the page, the assets that a fresh session `s` reports, and those that
were there before. If the one session is as silent as the other, the same lines are given. -/
structure WriteReport.Extended (base s : Bench) (report report' : WriteReport) : Prop where
  outfile : report'.outfile = report.outfile
  assets : ∃ earlier, report'.assets.Perm (report.assets ++ earlier) ∧
    ∀ r ∈ earlier, ∃ a ∈ base.session.store.loose 0, r.source = a.source ∧ r.target = a.target
  advisories : s.session.silent = base.session.silent →
    ∃ more, report'.advisories.Perm (report.advisories ++ more)

/-- What a fresh session does until it comes to `u'`, the session `base` does until it comes to `v'`:
the result is the same, and the same pages are written, printed and filled, and the same assets are
copied. -/
structure Bench.Recurs (base u' v' : Bench) (r r' : Except Failure WriteReport) : Prop where
  answers : Answers (WriteReport.Extended base u') r r'
  pages : v'.session.pages = base.session.pages ++ u'.session.pages
  printed : v'.session.printed = base.session.printed ++ u'.session.printed
  written : ∀ p ∈ u'.session.pagePlaces, v'.tree.content? p = u'.tree.content? p
  copied : ∀ report, r = .ok report → ∀ a ∈ report.assets, a.status = .ok → ∀ t ∈ a.target,
    a.source ≠ t → v'.tree.content? (placeOf t) = u'.tree.content? (placeOf t)

/-- The assets of the session can be copied in any order, and no copy takes the place of one of the
pages. -/
structure Bench.Calm (s : Bench) (pages : Set Place) : Prop where
  peaceful : Bundle.Peaceful s.tree (s.session.store.loose 0)
  apart : ∀ a ∈ s.session.store.loose 0, ∀ p c, Bundle.Delivers s.tree a p c → p ∉ pages

theorem Bench.calm_of_scattered {pages : Set Place}
    (h : Bundle.Scattered ((s.session.store.loose 0).map Asset.aim))
    (hpages : ∀ w ∈ (s.session.store.loose 0).map Asset.aim, ∀ t ∈ w.2, w.1 ≠ t → placeOf t ∉ pages) :
    s.Calm pages := by
  refine ⟨h.peaceful s.tree, ?_⟩
  rintro a ha p c ⟨⟨t, ht, hne, rfl⟩, -, -⟩
  exact hpages a.aim (List.mem_map_of_mem ha) t ht hne

/-- The assets are copied for the page of the bundle when the bench is `s'`. -/
def Bundle.CopiesFrom (b : Bundle) (s s' : Bench) : Prop :=
  ∃ b₁ file, (publish.run.run b).run s = ((.ok (some file), b₁), s')

namespace Bundle

theorem recurs_of_mirrors (h : x.Mirrors u v) (hpages : u.session.pagePlaces ⊆ x.places)
    {r r' : Except Failure WriteReport} (hanswers : Answers (WriteReport.Extended x.base u) r r')
    (hnone : ∀ report, r = .ok report → report.assets = []) : x.base.Recurs u v r r' where
  answers := hanswers
  pages := h.pages
  printed := h.printed
  written p hp := h.trees.content p (hpages hp) (.inr hp)
  copied report hr a ha := by
    rw [hnone report hr] at ha
    cases ha

section Report

variable {r r' : Except Failure WriteReport} (hin : x.Within u')
  (hpages : u'.session.pagePlaces ⊆ x.places)
  (hsources : ∀ a ∈ u'.session.store.loose 0, placeOf a.source ∈ x.reads)

include hin hpages hsources

/-- The assets of the fresh session are copied again among those of the used one. -/
theorem recurs_emitReport {file : Path} (h : x.Mirrors u v)
    (hways : u.session.store.SameWays v.session.store)
    (hu : u.session.store.Each fun _ a => a.source.IsNormal)
    (hv : v.session.store.Each fun _ a => a.source.IsNormal) (hb : b.isNested = false)
    (hlt : b.registry < u.session.store.registries.size)
    (hrun : (emitReport b (some file)).run.run u = (r, u'))
    (hrun' : (emitReport (x.onBundle b) (some file)).run.run v = (r', v'))
    (hcalm : v.Calm u'.session.pagePlaces) : x.base.Recurs u' v' r r' := by
  have hlt' : (x.onBundle b).registry < v.session.store.registries.size := h.store.number_lt hlt
  rw [run_emitReport hb, h.store.young.descends.rootOf_eq hlt] at hrun
  rw [run_emitReport (b := x.onBundle b) hb, h.store.descends.rootOf_eq hlt'] at hrun'
  obtain ⟨rfl, rfl⟩ := Prod.mk.inj hrun
  obtain ⟨rfl, rfl⟩ := Prod.mk.inj hrun'
  have hasked : ∀ a ∈ u.session.store.loose 0, ∀ p ∈ a.source :: a.target.toList,
      placeOf p ∈ x.places := fun a ha p hp =>
    hin.asked p (List.mem_append_right _ (List.mem_flatMap.2 ⟨a, ha, hp⟩))
  have hwithin : ∀ a ∈ u.session.store.loose 0,
      a.Within (x.reads ∪ u.session.pagePlaces) x.places := fun a ha => by
    obtain ⟨-, hnormal⟩ := hu.exists_of_loose ha
    refine ⟨hnormal, .inl (hsources a ha), hasked a ha _ List.mem_cons_self, fun t ht => ?_⟩
    exact hasked a ha t (List.mem_cons_of_mem _ (Option.mem_toList.2 ht))
  have hnormal' : ∀ a ∈ v.session.store.loose 0, a.source.IsNormal := fun a ha =>
    have ⟨_, hnormal⟩ := hv.exists_of_loose ha
    hnormal
  obtain ⟨again, earlier, hperm, haims, hearlier⟩ := h.store.loose_perm hways
  obtain ⟨hreports, hcopies, hrest⟩ :=
    copyAssets_again h.trees hwithin hnormal' hperm haims hcalm.peaceful
  refine ⟨.ok ⟨rfl, ⟨_, hreports, fun report hreport => ?_⟩, fun hsilent => ?_⟩, h.pages, ?_,
    fun p hp => ?_, fun report hreport a ha hok t ht hne => ?_⟩
  · obtain ⟨a, ha, rfl⟩ := List.mem_map.1 hreport
    exact ⟨a, hearlier a ha, rfl, rfl⟩
  · have hsame : v.session.silent = u.session.silent := h.silent.2.trans hsilent.symm
    refine ⟨AssetReport.advisories u.session.silent b.brief.root
      (earlier.map (AssetReport.alone v.tree)), ?_⟩
    dsimp only
    rw [hsame, pageReports_onBundle, List.append_assoc]
    exact (AssetReport.advisories_perm hreports).append_left _
  · rw [printed_told, printed_told]
    exact (printed_told _ _ v).trans (h.printed.trans (congrArg _ (printed_told _ _ u).symm))
  · exact hrest p (hpages hp) (.inr hp) fun a ha c hc => hcalm.apart a ha p c hc hp
  · obtain rfl := Except.ok.inj hreport
    exact hcopies a ha hok t ht hne

/-- A bundle is written in the used session as in the fresh one. -/
theorem recurs_write (h : x.Mirrors u v) (hb : x.Takes n false b)
    (hn : n ≤ u.session.store.registries.size) (hone : b.registry = 1) (hbu : b.AtHand u)
    (hu : u.Regular) (hbv : (x.onBundle b).AtHand v) (hv : v.Regular) {b₁ b₁' : Bundle}
    (hrun : (write.run.run b).run u = ((r, b₁), u'))
    (hrun' : (write.run.run (x.onBundle b)).run v = ((r', b₁'), v'))
    (hcalm : ∀ s, (x.onBundle b).CopiesFrom v s → s.Calm u'.session.pagePlaces) :
    x.base.Recurs u' v' r r' := by
  have hfollows := follows_publish hb hn hbu hu h hbv hv
  have htakes := (grown_publish hb hn).2
  unfold Making.Follows at hfollows
  rcases hpublish : (publish.run.run b).run u with ⟨⟨q, b₂⟩, u₁⟩
  rcases hpublish' : (publish.run.run (x.onBundle b)).run v with ⟨⟨q', b₂'⟩, v₁⟩
  rw [hpublish] at htakes hfollows
  rw [hpublish'] at hfollows
  cases q with
  | error e =>
    rw [run_write_of_error hpublish] at hrun
    obtain ⟨hresult, rfl⟩ := Prod.mk.inj hrun
    obtain ⟨rfl, rfl⟩ := Prod.mk.inj hresult
    obtain ⟨hanswers, -, hleads⟩ := hfollows hin
    cases hanswers
    rw [run_write_of_error hpublish'] at hrun'
    obtain ⟨hresult', rfl⟩ := Prod.mk.inj hrun'
    obtain ⟨rfl, rfl⟩ := Prod.mk.inj hresult'
    exact recurs_of_mirrors hleads.mirrors hpages (.error e) nofun
  | ok file =>
    rw [run_write_of_ok hpublish] at hrun
    obtain ⟨hresult, hbench⟩ := Prod.mk.inj hrun
    obtain ⟨hreport, rfl⟩ := Prod.mk.inj hresult
    have hgrown := (reported htakes.isNested file u₁).2.1
    rw [hbench] at hgrown
    have hin₁ := hin.of_grown hgrown
    obtain ⟨hanswers, rfl, hleads⟩ := hfollows hin₁
    cases hanswers with
    | ok heq =>
      subst heq
      rw [run_write_of_ok hpublish'] at hrun'
      obtain ⟨hresult', hbench'⟩ := Prod.mk.inj hrun'
      obtain ⟨hreport', -⟩ := Prod.mk.inj hresult'
      cases file with
      | none =>
        subst hreport hreport' hbench hbench'
        refine recurs_of_mirrors hleads.mirrors hpages (.ok ⟨rfl, ⟨[], .refl _, nofun⟩, fun _ => ⟨[], .refl _⟩⟩) fun _ hr => ?_
        obtain rfl := Except.ok.inj hr
        rfl
      | some file =>
        have hways := sameWays_publish hb hn hbu hu h hbv hv hone hpublish hpublish' hin₁
        obtain ⟨hkept, -, heach, hlt⟩ := hbu.of_publish hu hpublish
        obtain ⟨-, -, heach', -⟩ := hbv.of_publish hv hpublish'
        exact recurs_emitReport hin hpages hsources hleads.mirrors hways heach heach' htakes.isNested
          (hkept.registry ▸ hlt) (Prod.ext hreport hbench) (Prod.ext hreport' hbench')
          (hcalm v₁ ⟨_, file, hpublish'⟩)

end Report

end Bundle
end Bindery
