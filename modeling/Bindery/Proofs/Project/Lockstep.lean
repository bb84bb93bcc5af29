import Bindery.Proofs.Project.Tracking

/-! Bundles that are compiled in a used session as in a fresh one. -/

namespace Bindery

open FileTree (placeOf)

variable {x : Reuse} {n : Nat} {k : Bool}

namespace Store

theorem size_newChild (s : Store) (m : RegistryId) :
    (s.newChild m).1.registries.size = s.registries.size + 1 := by
  simp [newChild]

/-- The store with `count` more registries below `m`. -/
def children (s : Store) (m : RegistryId) : Nat → Store
  | 0 => s
  | count + 1 => (s.newChild m).1.children m count

theorem size_children (s : Store) (m : RegistryId) (count : Nat) :
    (s.children m count).registries.size = s.registries.size + count := by
  induction count generalizing s with
  | zero => rfl
  | succ count ih =>
    refine (ih (s.newChild m).1).trans ?_
    rw [size_newChild, Nat.add_assoc, Nat.add_comm 1]

theorem memos_children (s : Store) (m : RegistryId) (count : Nat) :
    (s.children m count).memos = s.memos := by
  induction count generalizing s with
  | zero => rfl
  | succ count ih => exact ih (s.newChild m).1

theorem extends_children {s : Store} (h : s.Descends) {m : RegistryId} (hm : m < s.registries.size)
    (count : Nat) : s.Extends (s.children m count) := by
  induction count generalizing s with
  | zero => exact .refl s
  | succ count ih =>
    obtain ⟨hdescends, hextends, hsize⟩ := h.newChild hm
    exact hextends.trans (ih hdescends (Nat.lt_of_lt_of_le hm hextends.size))

theorem Mirrors.children {number : RegistryId → RegistryId} {base u v : Store}
    (h : Mirrors number base u v) {m : RegistryId} (hpos : 0 < m) (hm : m < u.registries.size)
    (count : Nat) : Mirrors number base (u.children m count) (v.children (number m) count) := by
  induction count generalizing u v with
  | zero => exact h
  | succ count ih =>
    exact ih (h.newChild hm (.inl hpos)) (size_newChild u m ▸ Nat.lt_succ_of_lt hm)

/-- The store with a registry below `m`, and `count` registries below that one. -/
def family (s : Store) (m : RegistryId) (count : Nat) : Store :=
  (s.newChild m).1.children s.registries.size count

theorem size_family (s : Store) (m : RegistryId) (count : Nat) :
    (s.family m count).registries.size = s.registries.size + 1 + count := by
  unfold family
  rw [size_children, size_newChild]

theorem extends_family {s : Store} (h : s.Descends) {m : RegistryId} (hm : m < s.registries.size)
    (count : Nat) : s.Extends (s.family m count) := by
  obtain ⟨hdescends, hextends, hsize⟩ := h.newChild hm
  exact hextends.trans (extends_children hdescends (hsize ▸ Nat.lt_succ_self _) count)

theorem Mirrors.family {number : RegistryId → RegistryId} {base u v : Store}
    (h : Mirrors number base u v) {m : RegistryId} (hm : m < u.registries.size)
    (hlone : 0 < m ∨ u.registries.size = 1) (count : Nat) :
    Mirrors number base (u.family m count) (v.family (number m) count) := by
  have hchildren := (h.newChild hm hlone).children (Nat.zero_lt_of_lt hm)
    (size_newChild u m ▸ Nat.lt_succ_self _) count
  rwa [h.number_size] at hchildren

end Store

namespace Bundle

open Work

/-- A registry for a bundle or one of its documents. -/
def adopt (m : RegistryId) : Work RegistryId := do
  let (store, child) := (← Work.session).store.newChild m
  Work.modifyStore fun _ => store
  return child

theorem run_adopt (m : RegistryId) (s : Bench) : (adopt m).run.run s =
    (.ok s.session.store.registries.size, s.withStore (s.session.store.newChild m).1) := rfl

/-- Documents with registries in order. -/
def newDocuments (sources : List Path) (first : RegistryId) : List Document :=
  (sources.zipIdx first).map fun slot => { source := slot.1, registry := slot.2 }

theorem run_newDocuments (sources : List Path) (m : RegistryId) (s : Bench) :
    (sources.mapM fun source => do
      return { source, registry := ← adopt m : Document }).run.run s =
    (.ok (newDocuments sources s.session.store.registries.size),
      s.withStore (s.session.store.children m sources.length)) := by
  induction sources generalizing s with
  | nil => rfl
  | cons source sources ih =>
    have hfirst : (do return { source, registry := ← adopt m : Document } : Work Document).run.run s =
        (.ok { source, registry := s.session.store.registries.size },
          s.withStore (s.session.store.newChild m).1) := rfl
    rw [List.mapM_cons, run_bind, hfirst]
    refine (run_bind _ _ _).trans ?_
    rw [ih]
    have hsize : (s.withStore (s.session.store.newChild m).1).session.store.registries.size =
        s.session.store.registries.size + 1 := s.session.store.size_newChild m
    rw [hsize]
    rfl

/-- What is read of the documents of a bundle. -/
def readAll (brief : Brief) (documents : List Document) : Work (List Document) :=
  documents.mapM (·.read (brief.declare.map (brief.root.resolve ·)) brief.plugins brief.marked)

theorem make_eq (brief : Brief) (output : Output) (master : RegistryId) (target : Option Path) :
    make brief output master target = (do
      let registry ← adopt master
      let documents ← (brief.input.files brief.mapping brief.root).mapM fun source => do
        return { source, registry := ← adopt registry : Document }
      let documents ← readAll brief documents
      return { brief, output, registry, documents, target }) := rfl

/-- The documents are read once all registries are there. -/
theorem run_make (brief : Brief) (output : Output) (master : RegistryId) (target : Option Path)
    (s : Bench) :
    let sources := brief.input.files brief.mapping brief.root
    let first := s.session.store.registries.size
    (make brief output master target).run.run s =
      (readAll brief (newDocuments sources (first + 1)) >>= fun documents =>
        pure { brief, output, registry := first, documents, target }).run.run
        (s.withStore (s.session.store.family master sources.length)) := by
  intro sources first
  have hchildren := run_newDocuments sources first (s.withStore (s.session.store.newChild master).1)
  have hsize : (s.withStore (s.session.store.newChild master).1).session.store.registries.size =
      first + 1 := s.session.store.size_newChild master
  rw [hsize] at hchildren
  rw [make_eq, run_bind, run_adopt]
  refine (run_bind _ _ _).trans ?_
  rw [hchildren]
  rfl

theorem onDocument_newDocuments {u v : Bench} (h : x.Mirrors u v) (sources : List Path) (i : Nat) :
    newDocuments sources (v.session.store.registries.size + i) =
      (newDocuments sources (u.session.store.registries.size + i)).map x.onDocument := by
  unfold newDocuments
  rw [List.map_map]
  induction sources generalizing i with
  | nil => rfl
  | cons source sources ih =>
    rw [List.zipIdx_cons, List.zipIdx_cons, List.map_cons, List.map_cons, Nat.add_assoc,
      Nat.add_assoc, ih]
    refine congrArg (· :: _) ?_
    unfold Reuse.onDocument
    dsimp only [Function.comp]
    rw [h.store.next]

theorem tracks_readAll {input : Entry} {documents : List Document}
    (hdocuments : ∀ d ∈ documents, d.source.IsNormal ∧ placeOf d.source ∈ x.reads) :
    Tracks x n (fun ds ds' => ds' = ds.map x.onDocument)
      (readAll { x.brief with input } documents)
      (readAll { x.brief with input } (documents.map x.onDocument)) := by
  refine tracks_mapM fun d hd => ?_
  refine Document.tracks_read (hdocuments d hd).1 (hdocuments d hd).2 (fun path hpath => ?_) _ _
  obtain ⟨p, hp, rfl⟩ := Option.mem_map.1 hpath
  exact ⟨Path.isNormal_resolve_of_absolute x.root.absolute p, x.declared p hp⟩

theorem grown_readAll {input : Entry} {documents : List Document}
    (hdocuments : ∀ d ∈ documents, d.source.IsNormal) (s : Bench) :
    s.Grown ((readAll { x.brief with input } documents).run.run s).2 :=
  (tracks_readAll (x := x.anywhere) (n := 0) fun d hd => ⟨hdocuments d hd, trivial⟩).grown s
    (Nat.zero_le _)

theorem ends_readAll (brief : Brief) (documents : List Document) (s : Bench) :
    (readAll brief documents).Ends s
      (fun ds _ => ds.map (·.registry) = documents.map (·.registry)) fun _ => True := by
  unfold readAll
  induction documents generalizing s with
  | nil => rfl
  | cons d ds ih =>
    rw [List.mapM_cons, ends_bind]
    refine (Document.ends_read_registry d _ _ _ s).mono (fun c s₁ hc => ?_) fun _ _ => trivial
    rw [ends_bind]
    refine (ih s₁).mono (fun cs s₂ hcs => ?_) fun _ _ => trivial
    rw [ends_pure, List.map_cons, List.map_cons, hc, hcs]

section Make

variable {input : Entry} {output : Output} {master : RegistryId} {target : Option Path}

theorem isNormal_newDocuments {root : Path} (hroot : root.IsNormal) (input : Entry) (mapping : Mapping)
    (first : RegistryId) :
    ∀ d ∈ newDocuments (input.files mapping root) first, d.source.IsNormal := by
  intro d hd
  obtain ⟨slot, hslot, rfl⟩ := List.mem_map.1 hd
  obtain ⟨p, -, hp⟩ := List.mem_map.1 (List.fst_mem_of_mem_zipIdx hslot)
  exact hp ▸ Path.isNormal_resolve_of_absolute hroot.absolute _

theorem registry_newDocuments (sources : List Path) (first : RegistryId) :
    (newDocuments sources first).map (·.registry) = List.range' first sources.length := by
  unfold newDocuments
  rw [List.map_map, ← List.zipIdx_map_snd]
  rfl

theorem grown_family (s : Bench) (m : RegistryId) (count : Nat) :
    s.Grown (s.withStore (s.session.store.family m count)) where
  asked := List.Subset.refl _
  linked := List.Subset.refl _
  origins := by
    have hmemos : (s.session.store.family m count).memos = s.session.store.memos :=
      Store.memos_children _ _ _
    unfold Store.askedIn
    exact hmemos ▸ List.Subset.refl _
  size := by
    refine Nat.le_trans ?_ (Nat.le_of_eq (s.session.store.size_family m count).symm)
    rw [Nat.add_assoc]
    exact Nat.le_add_right _ _

theorem grown_make (s : Bench) :
    s.Grown ((make { x.brief with input } output master target).run.run s).2 := by
  rw [run_make]
  refine (grown_family s master _).trans (grown_bind (n := 0) (Nat.zero_le _) ?_ fun _ _ u _ => .refl u)
  exact grown_readAll (isNormal_newDocuments x.root input x.brief.mapping _) _

/-- What is made in the fresh session. -/
theorem takes_make (hlayout : output.layout = x.layout) {s : Bench}
    (hs : 0 < s.session.store.registries.size) {b : Bundle}
    (h : ((make { x.brief with input } output master target).run.run s).1 = .ok b) :
    x.Takes ((make { x.brief with input } output master target).run.run
      s).2.session.store.registries.size target.isSome b := by
  rw [run_make] at h ⊢
  dsimp only at h ⊢
  generalize hsources : input.files x.brief.mapping x.brief.root = sources at h ⊢
  have hends := ends_readAll { x.brief with input }
    (newDocuments sources (s.session.store.registries.size + 1))
    (s.withStore (s.session.store.family master sources.length))
  have hgrown : (s.withStore (s.session.store.family master sources.length)).Grown
      ((readAll { x.brief with input } (newDocuments sources
        (s.session.store.registries.size + 1))).run.run
          (s.withStore (s.session.store.family master sources.length))).2 :=
    grown_readAll (hsources ▸ isNormal_newDocuments x.root input x.brief.mapping
      (s.session.store.registries.size + 1)) _
  have hsize := hgrown.size
  have hfamily : (s.withStore (s.session.store.family master
      sources.length)).session.store.registries.size =
        s.session.store.registries.size + 1 + sources.length := Store.size_family _ _ _
  rw [hfamily] at hsize
  rw [run_bind] at h ⊢
  unfold Ends at hends
  generalize (readAll { x.brief with input } (newDocuments sources
    (s.session.store.registries.size + 1))).run.run
      (s.withStore (s.session.store.family master sources.length)) = ran at h hends hsize ⊢
  obtain ⟨r, s₁⟩ := ran
  cases r with
  | error e => cases h
  | ok documents =>
    obtain rfl := Except.ok.inj h
    refine ⟨⟨input, rfl⟩, hlayout, rfl, hs, ?_, fun d hd => ?_⟩
    · exact Nat.lt_of_lt_of_le (Nat.lt_succ_self _) (Nat.le_trans (Nat.le_add_right _ _) hsize)
    · have hmem : d.registry ∈ documents.map (·.registry) := List.mem_map_of_mem hd
      rw [hends, registry_newDocuments, List.mem_range'_1] at hmem
      exact ⟨Nat.lt_of_lt_of_le (Nat.succ_pos _) hmem.1, Nat.lt_of_lt_of_le hmem.2 hsize⟩

/-- Making a bundle is the same in both sessions, up to the numbers of its registries. -/
theorem follows_make {u v : Bench} (h : x.Mirrors u v) (hm : master < u.session.store.registries.size)
    (hlone : 0 < master ∨ u.session.store.registries.size = 1)
    (hreads : ∀ p ∈ input.files x.brief.mapping x.brief.root, placeOf p ∈ x.reads) :
    Follows x (fun b b' => b' = x.onBundle b)
      (make { x.brief with input } output master target)
      (make { x.brief with input } output (x.number master) target) u v := by
  unfold Follows
  rw [run_make, run_make]
  dsimp only
  have hdocuments := onDocument_newDocuments h (input.files x.brief.mapping x.brief.root) 1
  rw [hdocuments]
  generalize hsources : input.files x.brief.mapping x.brief.root = sources at hreads hdocuments ⊢
  have hstore := h.store.family hm hlone sources.length
  have hleads : x.Leads u v (u.withStore (u.session.store.family master sources.length))
      (v.withStore (v.session.store.family (x.number master) sources.length)) :=
    ⟨{ h with store := hstore }, Store.extends_family h.store.young.descends hm _,
      Store.extends_family h.store.descends (h.store.number_lt hm) _⟩
  have hread : Tracks x 0 (fun ds ds' => ds' = ds.map x.onDocument)
      (readAll { x.brief with input } (newDocuments sources (u.session.store.registries.size + 1)))
      (readAll { x.brief with input }
        ((newDocuments sources (u.session.store.registries.size + 1)).map x.onDocument)) :=
    tracks_readAll fun d hd => by
      have hnormal := isNormal_newDocuments x.root input x.brief.mapping
        (u.session.store.registries.size + 1)
      rw [hsources] at hnormal
      refine ⟨hnormal d hd, ?_⟩
      obtain ⟨slot, hslot, rfl⟩ := List.mem_map.1 hd
      exact hreads _ (List.fst_mem_of_mem_zipIdx hslot)
  intro hin
  refine (Tracks.follows (n := 0) (hread.bind (fun ds => ⟨_, rfl⟩) ?_) _ _ hleads.mirrors
    (Nat.zero_le _) hin).imp_right hleads.trans
  rintro ds _ rfl
  refine tracks_pure ?_
  rw [← h.store.number_size]
  rfl

end Make

/-! Advisories depend on the session being silent, and nothing depends on them. -/

end Bundle

namespace AssetReport

def level (r : AssetReport) : Level := if r.status = .ok then .info else .warning

/-- The line that tells of an asset. -/
def line (root : Path) (r : AssetReport) : String :=
  let source := (root.relative r.source).text
  let target := ((r.target.map (root.relative ·)).map (·.text)).getD ""
  match r.status with
  | .ok => source ++ " => " ++ target ++ "    ok"
  | .notFound => source ++ " => " ++ target ++ "    not found"
  | .outside => source ++ "    not in working directory"
  | .failed f => source ++ " => " ++ target ++ "    failed: " ++ f.message

/-- What is told of assets. -/
def advisories (silent : Bool) (root : Path) (reports : List AssetReport) : List String :=
  if silent then [] else reports.map (line root)

theorem advisories_perm {silent : Bool} {root : Path} {reports reports' more : List AssetReport}
    (h : reports'.Perm (reports ++ more)) : (advisories silent root reports').Perm
      (advisories silent root reports ++ advisories silent root more) := by
  unfold advisories
  split
  · exact .refl _
  · rw [← List.map_append]
    exact h.map _

end AssetReport

namespace Bundle

open Work

theorem run_advise (root : Path) (r : AssetReport) (s : Bench) : (advise root r).run.run s =
    if s.session.silent then (.ok none, s)
    else (.ok (some (r.line root)), { s with session := { s.session with
      events := s.session.events ++ [.logged r.level (r.line root)] } }) := by
  have hsession (f : Session → Work (Option String)) :
      (session >>= f).run.run s = (f s.session).run.run s := rfl
  unfold advise
  rw [hsession]
  dsimp only
  split <;> rfl

theorem run_advises (root : Path) (reports : List AssetReport) (s : Bench) :
    (reports.filterMapM (advise root)).run.run s =
      (.ok (AssetReport.advisories s.session.silent root reports),
        { s with session := { s.session with events := s.session.events ++
          (if s.session.silent then [] else reports).map fun r => .logged r.level (r.line root) } }) := by
  unfold AssetReport.advisories
  induction reports generalizing s with
  | nil => simp [List.filterMapM_nil]; rfl
  | cons r reports ih =>
    rw [List.filterMapM_cons, run_bind, run_advise]
    cases hsilent : s.session.silent with
    | true =>
      have hrest := ih s
      rw [hsilent] at hrest
      exact hrest
    | false =>
      refine (run_bind _ _ _).trans ?_
      simp only [Bool.false_eq_true, if_false]
      rw [ih]
      simp only [hsilent, Bool.false_eq_true, if_false, List.append_assoc, List.map_cons]
      rfl

theorem tracks_advises (root : Path) (reports : List AssetReport) :
    Tracks x n (fun _ _ => True) (reports.filterMapM (advise root))
      (reports.filterMapM (advise root)) where
  grown u _ := by
    rw [run_advises]
    exact .of_session (List.Subset.refl _) rfl
  follows u v h _ _ := by
    rw [run_advises, run_advises]
    refine ⟨.ok trivial, { h with printed := ?_ }, .refl _, .refl _⟩
    have hu := u.session.printed_logged AssetReport.level (AssetReport.line root)
      (if u.session.silent then [] else reports)
    have hv := v.session.printed_logged AssetReport.level (AssetReport.line root)
      (if v.session.silent then [] else reports)
    exact hv.trans (h.printed.trans (congrArg _ hu.symm))

/-! A page gets paths for its tokens. -/

theorem run_settle (g : Generated) (s : Bench) :
    (settle g).run.run s = (.ok (g.plan.run g.html s.session.store g.registry),
      { s with session := { s.session with
        store := (g.plan.run g.html s.session.store g.registry).store
        events := s.session.events ++ (g.plan.run g.html s.session.store g.registry).made.map
          fun link => .logged .debug ("relocate " ++ link.1.text ++ " -> " ++ link.2) } }) := by
  have hrun : (settle g).run.run s = ((do
      (g.plan.run g.html s.session.store g.registry).made.forM fun link =>
        log .debug ("relocate " ++ link.1.text ++ " -> " ++ link.2)
      return g.plan.run g.html s.session.store g.registry : Work Relocation.Pass)).run.run
      (s.withStore (g.plan.run g.html s.session.store g.registry).store) := rfl
  rw [hrun, run_bind, run_forM_log]
  rfl

/-- The text and the paths put in it are the same. -/
theorem tracks_settle {g : Generated} (hpos : 0 < g.registry) :
    Tracks x n (fun pass pass' => pass'.html = pass.html ∧ pass'.made = pass.made) (settle g)
      (settle (x.onGenerated g)) where
  grown u _ := by
    rw [run_settle]
    refine ⟨List.Subset.refl _, List.Subset.refl _, ?_, Nat.le_of_eq ?_⟩
    · have hmemos : (g.plan.run g.html u.session.store g.registry).store.memos =
          u.session.store.memos :=
        Relocation.run_induction (P := fun s => s.memos = u.session.store.memos) rfl fun _ _ h => h
      unfold Store.askedIn
      exact hmemos ▸ List.Subset.refl _
    · exact congrArg Array.size Relocation.registries_run.symm
  follows u v h _ _ := by
    rw [run_settle, run_settle]
    have hrun := Relocation.mirrors_run h.store g.plan g.html hpos
    refine ⟨.ok ⟨hrun.html, hrun.made⟩, { h with store := hrun.store, printed := ?_ },
      Relocation.extends_run, Relocation.extends_run⟩
    have hu := Session.printed_logged { u.session with store := (g.plan.run g.html u.session.store g.registry).store }
      (fun _ => .debug) (fun link => "relocate " ++ link.1.text ++ " -> " ++ link.2)
      (g.plan.run g.html u.session.store g.registry).made
    have hv := Session.printed_logged { v.session with store := (g.plan.run g.html v.session.store (x.number g.registry)).store }
      (fun _ => .debug) (fun link => "relocate " ++ link.1.text ++ " -> " ++ link.2)
      (g.plan.run g.html v.session.store (x.number g.registry)).made
    exact hv.trans (h.printed.trans (congrArg _ hu.symm))

/-- Writes or prints the page. -/
def emitPage (g : Generated) : Work (Option Path) := do
  let pass ← settle g
  match g.plan.outfile with
  | none =>
    Work.put (.printed (String.ofList (Listing.render Listing.printWidth pass.html.toList)))
    return none
  | some outfile =>
    Work.write outfile pass.html
    Work.record ⟨outfile, pass.made⟩
    return some outfile

/-- What is reported of the documents of a page. -/
def pageReports (b : Bundle) (outfile : Path) : List AssetReport :=
  b.documents.map fun d => ⟨d.source, some outfile, .ok⟩

theorem pageReports_onBundle (b : Bundle) (outfile : Path) :
    (x.onBundle b).pageReports outfile = b.pageReports outfile := by
  unfold pageReports Reuse.onBundle
  rw [List.map_map]
  rfl

/-- Copies the assets of the session for the bundle that was asked for. -/
def emitAssets (b : Bundle) : Work (List AssetReport) := do
  if b.isNested then pure []
  else materialize ((← Work.session).store.rootOf b.registry)

/-- Reports the page and its assets. -/
def emitReport (b : Bundle) : Option Path → Work WriteReport
  | none => return {}
  | some outfile => do
    let lines ← (b.pageReports outfile).filterMapM (advise b.brief.root)
    let assets ← b.emitAssets
    let more ← assets.filterMapM (advise b.brief.root)
    return { outfile := some outfile, assets, advisories := lines ++ more }

theorem emit_eq (b : Bundle) (g : Generated) : emit b g = emitPage g >>= emitReport b := by
  unfold emit emitPage
  rw [bind_assoc]
  refine congrArg (settle g >>= ·) (funext fun pass => ?_)
  cases g.plan.outfile with
  | none => rfl
  | some outfile =>
    simp only [emitReport, emitAssets, pageReports, bind_assoc, pure_bind]
    cases b.isNested <;> simp only [Bool.false_eq_true, if_true, if_false, bind_assoc, pure_bind]

theorem tracks_emitPage {g : Generated} (hpos : 0 < g.registry) :
    Tracks x n Eq (emitPage g) (emitPage (x.onGenerated g)) := by
  refine (tracks_settle hpos).bind (fun pass => ⟨pass, rfl, rfl⟩) ?_
  rintro pass pass' ⟨hhtml, hmade⟩
  rw [hhtml, hmade]
  cases houtfile : g.plan.outfile with
  | none =>
    simp only [Reuse.onGenerated, houtfile]
    exact (tracks_print _).andThen fun _ => tracks_pure rfl
  | some outfile =>
    simp only [Reuse.onGenerated, houtfile]
    rw [← bind_assoc]
    exact (tracks_publish outfile pass.html pass.made).andThen fun _ => tracks_pure rfl

/-- A nested bundle copies nothing. -/
theorem tracks_emit {b : Bundle} (hb : b.isNested = true) {g : Generated} (hpos : 0 < g.registry) :
    Tracks x n (fun _ _ => True) (emit b g) (emit (x.onBundle b) (x.onGenerated g)) := by
  rw [emit_eq, emit_eq]
  refine (tracks_emitPage hpos).andThen fun outfile => ?_
  cases outfile with
  | none => exact tracks_pure trivial
  | some outfile =>
    have hnested : (x.onBundle b).isNested = true := hb
    unfold emitReport emitAssets
    dsimp only
    rw [if_pos hb, if_pos hnested, pageReports_onBundle]
    refine (tracks_advises _ _).bind (fun _ => ⟨[], trivial⟩) fun _ _ _ => ?_
    refine Tracks.andThen (tracks_pure rfl) fun assets => ?_
    exact (tracks_advises _ assets).bind (fun _ => ⟨[], trivial⟩) fun _ _ _ => tracks_pure trivial

end Bundle
end Bindery
