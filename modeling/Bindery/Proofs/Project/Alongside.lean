import Bindery.Proofs.Project.Lockstep

/-! The first pass over a bundle in a used session goes as in a fresh one. -/

namespace Bindery

/-- The session once a link is taken up. -/
def Bench.noted (s : Bench) (link : Bundle.Link) : Bench := { s with session := { s.session with
  events := s.session.events ++
    [.logged .debug ("nested bundle " ++ link.source.text ++ " -> " ++ link.target.text)]
  linked := s.session.linked ++ [link.source] } }

namespace Bundle

open Making (bundle modifyBundle modifyDocument tracks_pure tracks_lift tracks_bundle Tracks Follows)

variable {x : Reuse} {n : Nat} {k : Bool} {inner : Making Generated} {plan : Relocation}
  {b : Bundle} {u v : Bench}

theorem tracks_modifyDocument (i : Nat) {f : Document → Document}
    (hf : ∀ d, (f d).registry = d.registry) (hcomm : ∀ d, f (x.onDocument d) = x.onDocument (f d)) :
    Tracks x n k Eq (modifyDocument i f) (modifyDocument i f) := by
  refine Making.tracks_modifyBundle fun b hb => ⟨{ hb with documents := fun d hd => ?_ }, ?_⟩
  · obtain ⟨j, hj⟩ := List.mem_iff_getElem?.1 hd
    rw [List.getElem?_modify] at hj
    obtain ⟨c, hc, rfl⟩ := Option.map_eq_some_iff.1 hj
    have hregistry := hb.documents c (List.mem_of_getElem? hc)
    split
    · rwa [hf]
    · exact hregistry
  · unfold Reuse.onBundle
    dsimp only
    refine congrArg (fun documents => { b with registry := x.number b.registry, documents }) ?_
    apply List.ext_getElem?
    intro j
    simp only [List.getElem?_modify, List.getElem?_map]
    cases b.documents[j]? with
    | none => rfl
    | some d =>
      simp only [Option.map_some, Option.map_eq_map]
      split
      · rw [hcomm]
      · rfl

theorem tracks_transform (i : Nat) {d : Document} (hpos : 0 < d.registry) (hlt : d.registry < n) :
    Tracks x n k Eq (transform i d) (transform i (x.onDocument d)) := by
  unfold transform
  refine (tracks_lift (Document.tracks_render hpos hlt)).andThen fun rendered => ?_
  obtain ⟨html, outline⟩ := rendered
  refine .andThen (tracks_modifyDocument i (fun _ => rfl) fun _ => rfl) fun _ => ?_
  refine tracks_bundle fun b hb => ?_
  refine .andThen (tracks_lift (Work.tracks_runPlugins _ _ _ _)) fun ran => ?_
  obtain ⟨result, options⟩ := ran
  refine .andThen (tracks_modifyDocument i (fun _ => rfl) fun _ => rfl) fun _ => ?_
  refine .andThen (tracks_lift (Work.tracks_ofExcept _ _)) fun result => ?_
  refine .andThen (tracks_modifyDocument i (fun _ => rfl) fun _ => rfl) fun _ => ?_
  have hsession : Work.Tracks x n (fun _ _ => True) Work.session Work.session :=
    ⟨fun u _ => .refl u, fun _ _ h _ _ => ⟨.ok trivial, .refl h⟩⟩
  exact (tracks_lift hsession).bind (fun _ => ⟨.fresh, trivial⟩) fun _ _ _ =>
    tracks_lift (Work.tracks_log _ _ _)

theorem tracks_wrap (i : Nat) : Tracks x n k Eq (wrap i) (wrap i) := by
  unfold wrap
  refine tracks_bundle fun b hb => ?_
  have hdocument : (x.onBundle b).documents[i]? = b.documents[i]?.map x.onDocument :=
    List.getElem?_map ..
  have hlength : (x.onBundle b).documents.length = b.documents.length := List.length_map ..
  rw [hdocument, hlength]
  cases b.documents[i]? with
  | none => exact tracks_pure rfl
  | some d =>
    refine .andThen (Making.tracks_modifyBundle fun b hb => ⟨{ hb with }, rfl⟩) fun _ => ?_
    exact tracks_modifyDocument i (fun _ => rfl) fun _ => rfl

/-! Links. -/

theorem run_markLink (plan : Relocation) (current : Path) (c : CellId) (s : Bench) :
    (markLink? plan current c).run.run s =
    match s.session.store.asset? c with
    | none => (.ok none, s)
    | some a =>
      if a.isMarked || !a.source.isMarkdown then (.ok none, s)
      else
        let page := a.source.normalize.withExtension "html"
        let placed := plan.place { a with source := page, isMarked := true }
        (.ok (if plan.isPreview || a.source.normalize = current then none
          else some ⟨a.source.normalize, placed.target.getD page⟩),
          s.withStore (s.session.store.modifyCell c fun _ => placed)) := by
  have hsession (f : Session → Work (Option Link)) :
      (Work.session >>= f).run.run s = (f s.session).run.run s := rfl
  unfold markLink?
  rw [hsession]
  cases s.session.store.asset? c with
  | none => rfl
  | some a =>
    dsimp only
    split
    · rfl
    · cases hstop : plan.isPreview || decide (a.source.normalize = current) with
      | true =>
        simp only [if_true]
        rfl
      | false =>
        simp only [Bool.false_eq_true, if_false]
        rfl

theorem grown_markLink (plan : Relocation) (current : Path) (c : CellId) (s : Bench) :
    s.Grown ((markLink? plan current c).run.run s).2 := by
  rw [run_markLink]
  cases s.session.store.asset? c with
  | none => exact .refl s
  | some a =>
    dsimp only
    split
    · exact .refl s
    · refine ⟨List.Subset.refl _, List.Subset.refl _, List.Subset.refl _, Nat.le_refl _⟩

/-- The cells of one token are marked alike. -/
theorem follows_markLink (h : x.Mirrors u v) (plan : Relocation) (current : Path) {t : Token}
    {c c' : CellId} {r r' : RegistryId} (hslot : (t, c) ∈ u.session.store.snapshot r)
    (hslot' : (t, c') ∈ v.session.store.snapshot r') :
    Work.Follows x Eq (markLink? plan current c) (markLink? plan current c') u v := by
  obtain ⟨a, a', ha, ha', hakin⟩ := h.store.exists_assets hslot hslot'
  intro _
  rw [run_markLink, run_markLink, ha, ha']
  dsimp only
  rw [hakin.source, hakin.isMarked]
  split
  · exact ⟨.ok rfl, .refl h⟩
  · generalize hpage : a.source.normalize.withExtension "html" = page
    have hplaced : Asset.Akin { a with source := page, isMarked := true }
        { a' with source := page, isMarked := true } := ⟨rfl, rfl⟩
    have htarget := (plan.target_place_akin hplaced).1
    have hmarked := plan.akin_place hplaced
    rw [htarget]
    have hstore := h.store.modifyCell hslot hslot'
      (f := fun _ => plan.place { a with source := page, isMarked := true })
      (g := fun _ => plan.place { a' with source := page, isMarked := true }) fun _ _ _ _ _ => hmarked
    refine ⟨.ok rfl, { h with store := hstore }, ?_, ?_⟩
    · exact ⟨Nat.le_refl _, fun _ _ h => h⟩
    · exact ⟨Nat.le_refl _, fun _ _ h => h⟩

/-- Compiles a linked document that was taken up. -/
def compileLink (inner : Making Generated) (b : Bundle) (link : Link) : Work Unit := do
  let nb ← b.nested link
  let _ ← Making.within nb do
    let g ← inner
    emit (← bundle) g

theorem run_bundle {α : Type} (f : Bundle → Making α) (b : Bundle) (s : Bench) :
    ((bundle >>= f).run.run b).run s = ((f b).run.run b).run s := rfl

theorem run_lift_forget {α β : Type} (w : Work α) (f : α → Work β) (b : Bundle) (s : Bench) :
    let done := (do
      let a ← w
      let _ ← f a : Work Unit).run.run s
    ((do
      let a ← (liftM w : Making α)
      let _ ← (liftM (f a) : Making β) : Making Unit).run.run b).run s = ((done.1, b), done.2) := by
  have hlift {γ : Type} (w : Work γ) (s : Bench) : ((liftM w : Making γ).run.run b).run s =
    (((w.run.run s).1, b), (w.run.run s).2) := rfl
  dsimp only
  rw [Making.run_bind, Work.run_bind, hlift]
  rcases w.run.run s with ⟨r, s₁⟩
  cases r with
  | error e => rfl
  | ok a =>
    refine (Making.run_bind _ _ _ _).trans ?_
    have hrest : (ExceptT.bindCont (fun a => f a >>= fun _ => pure ()) (.ok a) : StateM Bench _).run
        s₁ = (f a >>= fun _ => (pure () : Work Unit)).run.run s₁ := rfl
    dsimp only
    rw [hrest, Work.run_bind, hlift]
    rcases (f a).run.run s₁ with ⟨r, s₂⟩
    cases r <;> rfl

theorem run_follow (inner : Making Generated) (link : Link) (b : Bundle) (s : Bench) :
    let done := (compileLink inner b link).run.run (s.noted link)
    ((follow inner link).run.run b).run s =
      if s.session.finished.contains link.source then ((.ok (), b), s)
      else ((done.1, b), done.2) := by
  have hsession (f : Session → Making Unit) :
      (((Work.session : Work Session) >>= f : Making Unit).run.run b).run s =
        ((f s.session).run.run b).run s := rfl
  have hstart (f : Making Unit) : ((do
      Work.log .debug ("nested bundle " ++ link.source.text ++ " -> " ++ link.target.text)
      Work.noteLinked link.source
      f : Making Unit).run.run b).run s = (f.run.run b).run (s.noted link) := rfl
  unfold follow
  rw [hsession]
  split
  · rfl
  · refine (hstart _).trans ?_
    rw [run_bundle]
    exact run_lift_forget (b.nested link) _ b (s.noted link)

/-- A first pass that goes the same way in both sessions. -/
structure Repeats (x : Reuse) (inner : Making Generated) : Prop where
  tracks : ∀ n k, Tracks x n k (fun g g' => g' = x.onGenerated g) inner inner
  pos : ∀ n k b u g, x.Takes n k b → n ≤ u.session.store.registries.size →
    ((inner.run.run b).run u).1.1 = .ok g → 0 < g.registry

theorem Repeats.within (hinner : Repeats x inner) {nb : Bundle} (hnb : x.Takes n true nb) :
    let work : Making WriteReport := do
      let g ← inner
      emit (← bundle) g
    Work.Tracks x n (fun _ _ => True) (Making.within nb work) (Making.within (x.onBundle nb) work) := by
  refine Work.tracks_within (k := true) ?_ hnb
  refine (hinner.tracks n true).bind_of (fun g => ⟨_, rfl⟩) (hinner.pos n true) ?_
  rintro g _ hpos rfl
  exact tracks_bundle fun b hb => tracks_lift (tracks_emit hb.isNested hpos)

theorem grown_compileLink (hinner : Repeats x inner) (hb : x.Takes n k b)
    (hn : n ≤ u.session.store.registries.size) (link : Link) :
    u.Grown ((compileLink inner b link).run.run u).2 := by
  obtain ⟨⟨input, hbrief⟩, hlayout⟩ := hb.brief, hb.layout
  unfold compileLink nested
  rw [hbrief]
  refine Work.grown_bind (Nat.le_refl _) (grown_make u) fun nb hmade u₁ hsize => ?_
  have hpos : 0 < u.session.store.registries.size :=
    Nat.lt_of_lt_of_le hb.pos (Nat.le_trans (Nat.le_of_lt hb.lt) hn)
  have htakes := takes_make hlayout hpos hmade
  exact Work.grown_bind (Nat.zero_le _) ((hinner.within htakes).grown u₁ hsize) fun _ _ u _ => .refl u

theorem follows_compileLink (hinner : Repeats x inner) (hb : x.Takes n k b) (h : x.Mirrors u v)
    (hn : n ≤ u.session.store.registries.size) {link : Link} (hlink : link.source ∈ x.documents) :
    Work.Follows x Eq (compileLink inner b link) (compileLink inner (x.onBundle b) link) u v := by
  obtain ⟨⟨input, hbrief⟩, hlayout⟩ := hb.brief, hb.layout
  have hbrief' : (x.onBundle b).brief = { x.brief with input } := hbrief
  have hoffer := x.linked link.source hlink
  unfold compileLink nested
  rw [hbrief, hbrief']
  have hlt := Nat.lt_of_lt_of_le hb.lt hn
  refine Work.Follows.bind (follows_make h hlt (.inl hb.pos) hoffer) (Nat.le_refl _)
    (fun nb => ⟨_, rfl⟩) ?_
  rintro nb _ hmade rfl
  have htakes := takes_make hlayout (Nat.zero_lt_of_lt hlt) hmade
  exact (hinner.within htakes).bind (fun _ => ⟨{}, trivial⟩) fun _ _ _ => Work.tracks_pure rfl

theorem grown_noted (s : Bench) (link : Link) : s.Grown (s.noted link) :=
  .of_session (List.subset_append_left _ _) rfl

theorem mirrors_noted (h : x.Mirrors u v) (link : Link) : x.Mirrors (u.noted link) (v.noted link) := by
  refine { h with printed := ?_ }
  have hnoted (s : Session) := s.printed_logged (fun _ : Unit => .debug)
    (fun _ => "nested bundle " ++ link.source.text ++ " -> " ++ link.target.text) [()]
  exact (hnoted v.session).trans (h.printed.trans (congrArg _ (hnoted u.session).symm))

/-- A linked document that the fresh session compiles was not compiled in the used one. -/
theorem tracks_follow (hinner : Repeats x inner) (link : Link) :
    Tracks x n k Eq (follow inner link) (follow inner link) where
  grown b u hb hn := by
    rw [run_follow]
    split
    · exact ⟨.refl u, hb⟩
    · exact ⟨(grown_noted u link).trans (grown_compileLink (u := u.noted link) hinner hb hn link), hb⟩
  follows b u v hb h hn := by
    unfold Follows
    rw [run_follow, run_follow]
    dsimp only
    intro hin
    cases hfinished : u.session.finished.contains link.source with
    | true =>
      have hfinished' : v.session.finished.contains link.source = true := by
        rw [List.contains_iff_mem] at hfinished ⊢
        rw [h.finished]
        exact List.mem_append_left _ hfinished
      rw [hfinished', if_pos rfl, if_pos rfl]
      exact ⟨.ok rfl, rfl, .refl h⟩
    | false =>
      rw [hfinished, if_neg Bool.false_ne_true] at hin
      have hgrown := grown_compileLink (u := u.noted link) hinner hb hn link
      have hlink : link.source ∈ x.documents :=
        hin.linked _ (hgrown.linked (List.mem_append_right _ List.mem_cons_self))
      have hfinished' : v.session.finished.contains link.source = false := by
        rw [Bool.eq_false_iff] at hfinished ⊢
        rw [Ne, List.contains_iff_mem] at hfinished ⊢
        rw [h.finished, List.mem_append]
        exact not_or.2 ⟨hfinished, x.unfinished _ hlink⟩
      rw [hfinished', if_neg Bool.false_ne_true, if_neg Bool.false_ne_true]
      obtain ⟨hanswers, hleads⟩ :=
        follows_compileLink hinner hb (mirrors_noted h link) hn hlink hin
      exact ⟨hanswers, rfl, hleads.mirrors, hleads.fresh, hleads.used⟩

theorem grown_followCell (hinner : Repeats x inner) (plan : Relocation) (current : Path) (c : CellId)
    (hb : x.Takes n k b) (hn : n ≤ u.session.store.registries.size) :
    u.Grown (((followCell inner plan current c).run.run b).run u).2 ∧
      x.Takes n k (((followCell inner plan current c).run.run b).run u).1.2 := by
  unfold followCell
  refine Making.grown_bind hn ⟨grown_markLink plan current c u, hb⟩ fun link _ b u hb hn => ?_
  cases link with
  | none => exact ⟨.refl u, hb⟩
  | some link => exact (tracks_follow hinner link).grown b u hb hn

theorem follows_followCell (hinner : Repeats x inner) (plan : Relocation) (current : Path)
    (hb : x.Takes n k b) (h : x.Mirrors u v) (hn : n ≤ u.session.store.registries.size)
    {t : Token} {c c' : CellId} {r r' : RegistryId} (hslot : (t, c) ∈ u.session.store.snapshot r)
    (hslot' : (t, c') ∈ v.session.store.snapshot r') :
    Follows x Eq (followCell inner plan current c) (followCell inner plan current c') b u v := by
  unfold followCell
  have hmark : Follows x Eq (liftM (markLink? plan current c)) (liftM (markLink? plan current c')) b u
      v := fun hin =>
    have ⟨hanswers, hleads⟩ := follows_markLink h plan current hslot hslot' hin
    ⟨hanswers, rfl, hleads⟩
  refine hmark.bind (n := n) (k := k) hb (Nat.le_trans hn (grown_markLink plan current c u).size)
    (fun link => ⟨link, rfl⟩) ?_
  rintro link _ - rfl
  cases link with
  | none => exact tracks_pure rfl
  | some link => exact tracks_follow hinner link

def followCells (inner : Making Generated) (plan : Relocation) (current : Path)
    (slots : List (Token × CellId)) : Making Unit :=
  slots.forM fun slot => followCell inner plan current slot.2

theorem followCells_cons (inner : Making Generated) (plan : Relocation) (current : Path)
    (slot : Token × CellId) (slots : List (Token × CellId)) :
    followCells inner plan current (slot :: slots) =
      followCell inner plan current slot.2 >>= fun _ => followCells inner plan current slots := rfl

theorem grown_followCells (hinner : Repeats x inner) (plan : Relocation) (current : Path)
    (slots : List (Token × CellId)) (hb : x.Takes n k b)
    (hn : n ≤ u.session.store.registries.size) :
    u.Grown (((followCells inner plan current slots).run.run b).run u).2 ∧
      x.Takes n k (((followCells inner plan current slots).run.run b).run u).1.2 := by
  induction slots generalizing b u with
  | nil => exact ⟨.refl u, hb⟩
  | cons slot slots ih =>
    rw [followCells_cons]
    exact Making.grown_bind hn (grown_followCell hinner plan current slot.2 hb hn)
      fun _ _ b u hb hn => ih hb hn

/-- The cells of a document are gone through in the order of their tokens. -/
theorem follows_followCells (hinner : Repeats x inner) (plan : Relocation) (current : Path)
    {r r' : RegistryId} {slots slots' : List (Token × CellId)}
    (htokens : slots'.map Prod.fst = slots.map Prod.fst)
    (hb : x.Takes n k b) (h : x.Mirrors u v) (hn : n ≤ u.session.store.registries.size)
    (hslots : ∀ slot ∈ slots, slot ∈ u.session.store.snapshot r)
    (hslots' : ∀ slot ∈ slots', slot ∈ v.session.store.snapshot r') :
    Follows x Eq (followCells inner plan current slots) (followCells inner plan current slots') b u
      v := by
  induction slots generalizing slots' b u v with
  | nil =>
    obtain rfl := List.map_eq_nil_iff.1 htokens
    exact (tracks_pure rfl).follows b u v hb h hn
  | cons slot slots ih =>
    obtain ⟨⟨t', c'⟩, rest', rfl, htoken, hrest⟩ := List.map_eq_cons_iff.1 htokens
    obtain ⟨t, c⟩ := slot
    obtain rfl : t' = t := htoken
    have hfirst := follows_followCell hinner plan current hb h hn (hslots _ List.mem_cons_self)
      (hslots' _ List.mem_cons_self)
    obtain ⟨hgrown, htakes⟩ := grown_followCell hinner plan current c hb hn (u := u)
    have hsize := Nat.le_trans hn hgrown.size
    rw [followCells_cons, followCells_cons]
    refine hfirst.bind_of (fun _ b₁ u₁ hrun => ?_) fun _ _ b₁ u₁ v₁ hrun _ hleads => ?_
    · rw [hrun] at htakes hsize
      exact (grown_followCells hinner plan current slots htakes hsize).1
    · rw [hrun] at htakes hsize
      exact ih hrest htakes hleads.mirrors hsize
        (fun slot hslot => hleads.fresh.slots r slot (hslots slot (List.mem_cons_of_mem _ hslot)))
        fun slot hslot => hleads.used.slots r' slot (hslots' slot (List.mem_cons_of_mem _ hslot))

theorem run_followAll (inner : Making Generated) (plan : Relocation) (d : Document) (b : Bundle)
    (s : Bench) : ((followAll inner plan d).run.run b).run s =
      ((followCells inner plan d.source (s.session.store.snapshot d.registry)).run.run b).run s := rfl

theorem tracks_followAll (hinner : Repeats x inner) (plan : Relocation) {d : Document}
    (hpos : 0 < d.registry) :
    Tracks x n k Eq (followAll inner plan d) (followAll inner plan (x.onDocument d)) where
  grown b u hb hn := by
    rw [run_followAll]
    exact grown_followCells hinner plan d.source _ hb hn
  follows b u v hb h hn := by
    unfold Follows
    rw [run_followAll, run_followAll]
    exact follows_followCells hinner plan d.source (h.store.tokens d.registry hpos) hb h hn
      (fun _ h => h) fun _ h => h

theorem tracks_pass (hinner : Repeats x inner) (plan : Relocation) (i : Nat) {d : Document}
    (hpos : 0 < d.registry) (hlt : d.registry < n) :
    Tracks x n k Eq (pass inner plan i d) (pass inner plan i (x.onDocument d)) := by
  unfold pass
  refine (tracks_lift (Work.tracks_enter _)).andThen fun _ => ?_
  refine (tracks_transform i hpos hlt).andThen fun _ => (tracks_wrap i).andThen fun _ => ?_
  exact (tracks_followAll hinner plan hpos).andThen fun _ => tracks_lift (Work.tracks_leave _)

/-- The page of a bundle once its documents are set. -/
def fillPage (layout : Layout) (plan : Relocation) (root : Path) : Making Generated := do
  let b ← bundle
  let outline := b.documents.flatMap (·.outline)
  let content := "\n".intercalate (b.documents.map (·.result))
  let html ← layout.render content outline b.output.data b.registry root
  return { html, outline, registry := b.registry, plan }

theorem tracks_fillPage (layout : Layout) (plan : Relocation) (root : Path) :
    Tracks x n k (fun g g' => g' = x.onGenerated g) (fillPage layout plan root)
      (fillPage layout plan root) := by
  refine tracks_bundle fun b hb => ?_
  have houtline : (x.onBundle b).documents.flatMap (·.outline) = b.documents.flatMap (·.outline) := by
    unfold Reuse.onBundle
    rw [List.flatMap_map]
    rfl
  have hresults : (x.onBundle b).documents.map (·.result) = b.documents.map (·.result) := by
    unfold Reuse.onBundle
    rw [List.map_map]
    rfl
  dsimp only
  rw [houtline, hresults]
  exact (tracks_lift (Layout.tracks_render layout _ _ _ hb.pos hb.lt root)).andThen
    fun html => tracks_pure rfl

theorem registry_fillPage {layout : Layout} {root : Path} {g : Generated}
    (h : (((fillPage layout plan root).run.run b).run u).1.1 = .ok g) : g.registry = b.registry := by
  have hends : (fillPage layout plan root).Ends b u (fun g _ _ => g.registry = b.registry)
      fun _ => True := by
    unfold fillPage
    simp only [Making.ends_bind, Making.ends_bundle, Making.ends_lift, Making.ends_pure]
    unfold Work.Ends
    split <;> trivial
  unfold Making.Ends at hends
  generalize ((fillPage layout plan root).run.run b).run u = ran at h hends
  obtain ⟨⟨r, b'⟩, u'⟩ := ran
  cases h
  exact hends

/-- Where a bundle with a layout sets its assets. -/
def planFor (b : Bundle) (layout : Layout) : Relocation :=
  ⟨b.brief.root, b.output.distDir b.brief.root, layout.dir, b.outfile⟩

theorem planFor_onBundle (b : Bundle) (layout : Layout) :
    (x.onBundle b).planFor layout = b.planFor layout := rfl

/-- Sets the documents of a bundle in the page of a layout. -/
def setIn (inner : Making Generated) (b : Bundle) (layout : Layout) : Making Generated := do
  b.documents.zipIdx.forM fun slot => pass inner (b.planFor layout) slot.2 slot.1
  fillPage layout (b.planFor layout) b.brief.root

theorem setPage_eq (inner : Making Generated) : setPage inner = bundle >>= fun b =>
    liftM (Layout.load b.output.layout b.brief.root) >>= fun layout => setIn inner b layout := rfl

theorem tracks_passes (hinner : Repeats x inner) (plan : Relocation) (hb : x.Takes n k b) :
    Tracks x n k Eq (b.documents.zipIdx.forM fun slot => pass inner plan slot.2 slot.1)
      ((x.onBundle b).documents.zipIdx.forM fun slot => pass inner plan slot.2 slot.1) := by
  have hzip : (x.onBundle b).documents.zipIdx =
      b.documents.zipIdx.map (Prod.map x.onDocument id) := List.zipIdx_map ..
  rw [hzip]
  refine Making.tracks_forM fun slot hslot => ?_
  obtain ⟨hpos, hlt⟩ := hb.documents slot.1 (List.fst_mem_of_mem_zipIdx hslot)
  exact tracks_pass hinner plan slot.2 hpos hlt

theorem tracks_loadLayout (hb : x.Takes n k b) : Work.Tracks x n Eq
    (Layout.load b.output.layout b.brief.root) (Layout.load b.output.layout b.brief.root) := by
  obtain ⟨input, hbrief⟩ := hb.brief
  rw [hb.layout, hbrief]
  exact Layout.tracks_load

theorem tracks_setIn (hinner : Repeats x inner) (layout : Layout) (hb : x.Takes n k b) :
    Tracks x n k (fun g g' => g' = x.onGenerated g) (setIn inner b layout)
      (setIn inner (x.onBundle b) layout) := by
  unfold setIn
  rw [planFor_onBundle]
  exact (tracks_passes hinner _ hb).andThen fun _ => tracks_fillPage _ _ _

theorem pos_setIn (hinner : Repeats x inner) {layout : Layout} (hb : x.Takes n k b) {b₁ : Bundle}
    (hb₁ : x.Takes n k b₁) (hn : n ≤ u.session.store.registries.size) {g : Generated}
    (hrun : (((setIn inner b layout).run.run b₁).run u).1.1 = .ok g) : 0 < g.registry := by
  unfold setIn at hrun
  refine (tracks_passes hinner (b.planFor layout) hb).ok_of_bind (P := fun g => 0 < g.registry) ?_
    hb₁ hn hrun
  intro _ b₂ u₂ g hb₂ _ hrun
  rw [registry_fillPage hrun]
  exact hb₂.pos

theorem repeats_setPage (hinner : Repeats x inner) : Repeats x (setPage inner) where
  tracks n k := by
    rw [setPage_eq]
    refine tracks_bundle fun b hb => (tracks_lift ?_).andThen fun layout => ?_
    · exact tracks_loadLayout hb
    · exact tracks_setIn hinner layout hb
  pos n k b u g hb hn hrun := by
    rw [setPage_eq, run_bundle] at hrun
    have hload : Tracks x n k Eq (liftM (Layout.load b.output.layout b.brief.root))
        (liftM (Layout.load b.output.layout b.brief.root)) := tracks_lift (tracks_loadLayout hb)
    exact hload.ok_of_bind (P := fun g => 0 < g.registry)
      (fun layout b₁ u₁ g hb₁ hn₁ hrun => pos_setIn hinner hb hb₁ hn₁ hrun) hb hn hrun

theorem repeats_generateWithin (depth : Nat) : Repeats x (generateWithin depth) := by
  induction depth with
  | zero => exact ⟨fun _ _ => Making.tracks_throw _, fun _ _ _ _ _ _ _ hrun => by cases hrun⟩
  | succ depth ih => exact repeats_setPage ih

end Bundle
end Bindery
