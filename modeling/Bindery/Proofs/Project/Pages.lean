import Bindery.Proofs.Project.Standing

/-! Every step of a run keeps what holds in its course. A page that a link asks for is on its way
until it is written, and the steps in between take up no document that is neither gathered nor
asked for. -/

namespace Bindery

variable {brief : Brief} {output : Output} {tree t : FileTree} {pending : List Path} {s s' : Bench}
  {b : Bundle} {plan : Relocation} {d : Path}

/-- What a part of a run keeps apart from its course. -/
structure Bench.Keeps (s s' : Bench) : Prop where
  extends_store : s.session.store.Extends s'.session.store
  inFlight : s'.session.inFlight = s.session.inFlight
  grows : s.tree.Grows s'.tree

theorem Bench.Keeps.refl (s : Bench) : s.Keeps s := ⟨.refl _, rfl, .refl _⟩

theorem Bench.Keeps.trans {s₁ s₂ s₃ : Bench} (h : s₁.Keeps s₂) (h' : s₂.Keeps s₃) : s₁.Keeps s₃ :=
  ⟨h.extends_store.trans h'.extends_store, h'.inFlight.trans h.inFlight, h.grows.trans h'.grows⟩

theorem Bench.Same.keeps (h : s.Same s') : s.Keeps s' :=
  ⟨h.store.symm ▸ .refl _, h.inFlight, h.tree.symm ▸ .refl _⟩

/-- A plan of the run, whose layout was looked for in `t` or before. -/
structure Relocation.Suits (brief : Brief) (output : Output) (tree t : FileTree)
    (plan : Relocation) : Prop where
  root_eq : plan.root = brief.root
  dist_eq : plan.dist = output.distDir brief.root
  normal : ∀ dir ∈ plan.layoutDir, dir.IsNormal
  steady : brief.Steady output tree t → plan.layoutDir = output.layoutDir brief.root tree

theorem Relocation.Suits.eq (h : plan.Suits brief output tree t)
    (ht : brief.Steady output tree t) : plan = { brief.plan output tree with outfile := plan.outfile } := by
  obtain ⟨root, dist, layoutDir, outfile⟩ := plan
  obtain ⟨rfl, rfl, -, hlayout⟩ := h
  obtain rfl := hlayout ht
  rfl

theorem Relocation.Suits.of_grows {t' : FileTree} (h : plan.Suits brief output tree t)
    (htree : tree.Grows t) (hgrows : t.Grows t') : plan.Suits brief output tree t' :=
  ⟨h.root_eq, h.dist_eq, h.normal, fun ht => h.steady (ht.of_grows htree hgrows)⟩

theorem Layout.ends_load (hroot : brief.root.IsNormal) {Q : Layout → Bench → Prop}
    (h : ∀ layout s', s.Same s' → layout.dir = output.layoutDir brief.root s.tree →
      (∀ dir ∈ layout.dir, dir.IsNormal) → Q layout s') :
    (Layout.load output.layout brief.root).Ends s Q fun _ => True :=
  Bundle.ends_load (fun _ _ _ => trivial) fun layout s' hfound hs' =>
    h layout s' hs' hfound.dir_eq (hfound.isNormal_dir hroot)

namespace Bundle

/-- A bundle of the run whose documents may be taken up. -/
structure Ready (brief : Brief) (output : Output) (pending : List Path) (s : Bench) (b : Bundle) :
    Prop extends b.Of brief output s where
  documents : ∀ doc ∈ b.documents, doc.registry < s.session.store.registries.size ∧
    (∃ dir, doc.source.parent? = some dir ∧ dir.IsNormal) ∧
    (brief.Gathers doc.source ∨ doc.source ∈ pending)

theorem Ready.keep (h : b.Ready brief output pending s) (hs : s.Keeps s') :
    b.Ready brief output pending s' where
  brief_eq := h.brief_eq
  output_eq := h.output_eq
  registry_lt := Nat.lt_of_lt_of_le h.registry_lt hs.extends_store.size
  documents doc hdoc := by
    obtain ⟨hlt, hrest⟩ := h.documents doc hdoc
    exact ⟨Nat.lt_of_lt_of_le hlt hs.extends_store.size, hrest⟩

/-- A document that was read has a directory. -/
theorem exists_parent_of_reads {doc : Document} (hfree : s.tree.hasFile [] = false)
    (hnormal : doc.source.IsNormal) (hreads : Reads s.tree brief doc) :
    ∃ dir, doc.source.parent? = some dir ∧ dir.IsNormal := by
  obtain ⟨-, body, -, hbody, -⟩ := hreads
  exact FileTree.exists_parent_of_read hfree hnormal hbody

theorem ready_of_made (h : Course brief output tree pending s) (hroot : brief.root.IsNormal)
    {input : Entry} {data : Json.Fields} {target : Option Path}
    (hmade : Made { brief with input } { output with data } target s b s')
    (hinput : ∀ d ∈ input.files brief.mapping brief.root, brief.Gathers d ∨ d ∈ pending) :
    b.Ready brief output pending s' := by
  refine ⟨⟨⟨input, hmade.brief_eq⟩, ⟨data, hmade.output_eq⟩, hmade.registry_lt⟩, fun doc hdoc => ?_⟩
  obtain ⟨-, hlt, hreads⟩ := hmade.documents doc hdoc
  have hmem : doc.source ∈ input.files brief.mapping brief.root :=
    hmade.sources ▸ List.mem_map_of_mem hdoc
  obtain ⟨path, -, hpath⟩ := List.mem_map.1 hmem
  have hnormal : doc.source.IsNormal :=
    hpath ▸ Path.isNormal_resolve_of_absolute hroot.absolute ⟨path⟩
  exact ⟨hlt, exists_parent_of_reads h.root_free hnormal hreads, hinput _ hmem⟩

/-- `inner` keeps the course of a run, with a plan that suits it. -/
def Runs (brief : Brief) (output : Output) (tree : FileTree) (inner : Making Generated) : Prop :=
  ∀ ⦃pending b s⦄, b.Ready brief output pending s → b.outfile.isSome = true →
    Course brief output tree pending s →
    inner.Ends b s (fun g b' s' => b.Alike b' ∧ g.plan.Suits brief output tree s'.tree ∧
      g.plan.outfile = b.outfile ∧ Course brief output tree pending s' ∧ s.Keeps s') fun _ => True

end Bundle

namespace Course

variable {inner : Making Generated} {target : Path}

open Bindery.Bundle

/-- What a link brings under way is gathered, or the document itself. -/
theorem gathers_or_mem_files (hd : d.IsNormal) :
    ∀ x ∈ (Entry.one d.text).files brief.mapping brief.root, brief.Gathers x ∨ x ∈ d :: pending := by
  intro x hx
  unfold Entry.files at hx
  dsimp only at hx
  cases hlookup : brief.mapping.lookup d.text with
  | some e =>
    rw [hlookup] at hx
    exact .inl (.inr ⟨d.text, e, hlookup, hx⟩)
  | none =>
    rw [hlookup] at hx
    have hx' : x = brief.root.resolve d := List.mem_singleton.1 hx
    have hself : brief.root.resolve d = d := by
      unfold Path.resolve Path.join
      rw [if_pos hd.absolute, hd.normalize_eq]
    exact .inr (hx'.trans hself ▸ List.mem_cons_self)

/-- A document that a link asks for comes to have its page. -/
theorem follow (hplugins : brief.plugins = []) (hroot : brief.root.IsNormal)
    (hinner : Runs brief output tree inner) (hb : b.Of brief output s)
    (h : Course brief output tree (d :: pending) s) (hd : d.IsNormal) (htarget : target.IsNormal)
    (hgoal : brief.Steady output tree s.tree →
      target = (brief.plan output tree).goal (d.withExtension "html"))
    (hfinished : d ∈ s.session.finished → brief.Steady output tree s.tree → brief.Gathers d) :
    (Bundle.follow inner ⟨d, target⟩).Ends b s
      (fun _ b' s' => b' = b ∧ Course brief output tree pending s' ∧ s.Keeps s') fun _ => True := by
  unfold Bundle.follow
  simp only [Making.ends_bind, Making.ends_lift, Work.ends_session, List.contains_iff_mem]
  split
  · next hmem => exact ⟨rfl, h.settle fun hsteady => .inl (hfinished hmem hsteady), .refl s⟩
  · simp only [Making.ends_bind, Making.ends_lift, Work.ends_log, Work.ends_noteLinked,
      Making.ends_bundle]
    obtain ⟨input, hbrief⟩ := hb.brief_eq
    obtain ⟨data, hdata⟩ := hb.output_eq
    unfold nested
    rw [hbrief, hdata]
    refine ends_make hplugins h.descends hb.registry_lt (fun _ _ => trivial) fun nb s₁ hmade => ?_
    have hsame : (s.withStore s₁.session.store).Same s₁ :=
      ⟨hmade.same.tree, rfl, hmade.same.inFlight, hmade.same.finished, hmade.same.pages⟩
    have hcourse := h.widen hmade.widens hsame
    have hlogged : ∀ events linked, Course brief output tree (d :: pending)
        { s with session := { s.session with events, linked } } :=
      fun _ _ => h.of_same ⟨rfl, rfl, rfl, rfl, rfl⟩
    have hready := ready_of_made (hlogged _ _) hroot hmade (gathers_or_mem_files hd)
    have houtfile : nb.outfile = some target := by
      unfold outfile
      rw [hmade.target_eq, Option.some_or]
    simp only [Making.ends_bind, Making.ends_pure, Making.ends_within]
    refine (hinner hready (houtfile ▸ rfl) hcourse).mono ?_ fun _ h => h
    rintro g nb' s₂ ⟨halike, hsuits, hplan, hcourse₂, hkeeps⟩
    have hnested : nb'.isNested = true := by
      unfold isNested
      rw [halike.target, hmade.target_eq]
      rfl
    simp only [Making.ends_bundle, Making.ends_lift]
    have hfile : g.plan.outfile = some target := hplan.trans houtfile
    refine ends_emit_nested hfile hnested (fun _ _ => trivial) fun _ after s₃ hwrite hs₃ => ?_
    have hgrows := FileTree.grows_write hwrite
    have hwritten := hcourse₂.write g htarget
      (fun hsteady => (hsuits.eq hsteady).trans (hfile ▸ rfl)) hwrite
    have hkept : s.Keeps s₃ := by
      have hwiden : s.Keeps s₁ := ⟨hmade.widens.extends, hmade.same.inFlight, hmade.same.tree ▸ .refl _⟩
      refine (hwiden.trans hkeeps).trans (Bench.Keeps.trans ?_ hs₃.keeps)
      exact ⟨Relocation.extends_run, rfl, hgrows⟩
    refine ⟨trivial, (hwritten.of_same hs₃).settle fun hsteady => .inr ?_, hkept⟩
    rw [hs₃.pages]
    refine ⟨_, List.mem_append_right _ List.mem_cons_self, hgoal ?_⟩
    exact hsteady.of_grows h.grows hkept.grows

/-- What a reference of a document brings about. -/
theorem followCell (hplugins : brief.plugins = []) (hroot : brief.root.IsNormal)
    (hinner : Runs brief output tree inner) (hb : b.Of brief output s)
    (h : Course brief output tree pending s) (hplan : plan.Suits brief output tree s.tree)
    (hpreview : plan.isPreview = false) (hd : d ∈ s.session.inFlight) {r : RegistryId} {t : Token}
    {c : CellId} (hslot : (t, c) ∈ s.session.store.snapshot r) :
    (Bundle.followCell inner plan d c).Ends b s
      (fun _ b' s' => b' = b ∧ Course brief output tree pending s' ∧ s.Keeps s') fun _ => True := by
  have hin := h.descends.inRoot r _ hslot
  obtain ⟨a, ha, hnormal⟩ := h.normal _ hin
  unfold Bundle.followCell
  simp only [Making.ends_bind, Making.ends_lift]
  by_cases hknown : a.isMarked = true ∨ a.source.isMarkdown = false
  · exact ends_markLink_of_known ha hknown ⟨rfl, h, .refl s⟩
  · obtain ⟨hunmarked, hmarkdown⟩ := not_or.1 hknown
    rw [Bool.not_eq_true] at hunmarked
    rw [Bool.not_eq_false] at hmarkdown
    -- A document that was taken up without a mark is one of those that the project gathers.
    have hgathers : a.source ∈ s.session.inFlight ∨ a.source ∈ s.session.finished →
        brief.Steady output tree s.tree → brief.Gathers a.source := by
      intro htaken hsteady
      obtain ⟨a', ha', hstands⟩ := (h.standing hsteady).each _ hin
      obtain rfl : a = a' := Option.some.inj (ha.symm.trans ha')
      have htakes : s.Takes pending a.source := htaken.imp_right .inl
      refine (hstands.taken _ htakes (hstands.origin hunmarked)).resolve_right fun hmarked => ?_
      rw [hunmarked] at hmarked
      cases hmarked
    refine ends_markLink_of_new ha hunmarked hmarkdown hnormal hpreview fun placed hplaced => ?_
    have hplace : brief.Steady output tree s.tree →
        ∀ x, plan.place x = (brief.plan output tree).place x := by
      intro hsteady x
      rw [hplan.eq hsteady, Relocation.place_outfile]
    have hmarked := h.mark hplace hslot ha hunmarked hmarkdown hplaced
    have hkeeps : s.Keeps (s.withStore (s.session.store.modifyCell c fun _ => placed)) :=
      ⟨⟨Nat.le_refl _, fun _ _ h => h⟩, rfl, .refl _⟩
    by_cases hself : a.source = d
    · rw [if_pos hself]
      exact ⟨rfl, hmarked.settle fun hsteady => .inl (hgathers (.inl (hself ▸ hd)) hsteady), hkeeps⟩
    · rw [if_neg hself]
      obtain ⟨-, -, -, -, -, hhtml, -⟩ := Path.withExtension_html hnormal hmarkdown
      have hsource : placed.source = a.source.withExtension "html" := by
        rw [hplaced, Relocation.source_place, hhtml.normalize_eq]
      have htarget : (placed.target.getD (a.source.withExtension "html")).IsNormal := by
        rw [← hsource, hplaced]
        exact Relocation.isNormal_place (hplan.dist_eq ▸ output.isNormal_distDir hroot)
          (hplan.root_eq ▸ hroot) hplan.normal hhtml.absolute
      have hgoal : brief.Steady output tree s.tree → placed.target.getD (a.source.withExtension "html") =
          (brief.plan output tree).goal (a.source.withExtension "html") := by
        intro hsteady
        have hplaced' := hplaced.trans (hplace hsteady _)
        calc placed.target.getD (a.source.withExtension "html")
            = placed.target.getD placed.source := by rw [hsource]
          _ = (brief.plan output tree).goal (a.source.withExtension "html") := by
            rw [hplaced']
            exact Relocation.goal_source.symm
      have hb' : b.Of brief output (s.withStore (s.session.store.modifyCell c fun _ => placed)) :=
        ⟨hb.brief_eq, hb.output_eq, hb.registry_lt⟩
      refine (follow hplugins hroot hinner hb' hmarked hnormal htarget hgoal
        fun hfinished => hgathers (.inr hfinished)).mono ?_ fun _ h => h
      rintro _ b' s' ⟨rfl, hcourse, hkeeps'⟩
      exact ⟨rfl, hcourse, hkeeps.trans hkeeps'⟩

/-- The references of a document are gone along in their order. -/
theorem followCells (hplugins : brief.plugins = []) (hroot : brief.root.IsNormal)
    (hinner : Runs brief output tree inner) (hb : b.Of brief output s)
    (h : Course brief output tree pending s) (hplan : plan.Suits brief output tree s.tree)
    (hpreview : plan.isPreview = false) (hd : d ∈ s.session.inFlight) {r : RegistryId}
    {slots : List (Token × CellId)} (hslots : ∀ slot ∈ slots, slot ∈ s.session.store.snapshot r) :
    (slots.forM fun (_, cell) => Bundle.followCell inner plan d cell).Ends b s
      (fun _ b' s' => b' = b ∧ Course brief output tree pending s' ∧ s.Keeps s') fun _ => True := by
  induction slots generalizing s with
  | nil => exact ⟨rfl, h, .refl s⟩
  | cons slot slots ih =>
    rw [List.forM_eq_forM, List.forM_cons, Making.ends_bind]
    refine (followCell hplugins hroot hinner hb h hplan hpreview hd
      (hslots slot List.mem_cons_self)).mono ?_ fun _ h => h
    rintro _ b' s₁ ⟨rfl, hcourse, hkeeps⟩
    have hb' : b'.Of brief output s₁ :=
      ⟨hb.brief_eq, hb.output_eq, Nat.lt_of_lt_of_le hb.registry_lt hkeeps.extends_store.size⟩
    refine (ih hb' hcourse (hplan.of_grows h.grows hkeeps.grows) (hkeeps.inFlight ▸ hd)
      fun slot' hslot' => ?_).mono ?_ fun _ h => h
    · exact hkeeps.extends_store.slots r _ (hslots slot' (List.mem_cons_of_mem _ hslot'))
    · rintro _ b'' s' ⟨rfl, hcourse', hkeeps'⟩
      exact ⟨rfl, hcourse', hkeeps.trans hkeeps'⟩

/-- A document is taken up, rendered and laid down. -/
theorem pass (hplugins : brief.plugins = []) (hroot : brief.root.IsNormal)
    (hinner : Runs brief output tree inner) (hb : b.Of brief output s)
    (h : Course brief output tree pending s) (hplan : plan.Suits brief output tree s.tree)
    (hpreview : plan.isPreview = false) {doc : Document}
    (hlt : doc.registry < s.session.store.registries.size)
    (hdir : ∃ dir, doc.source.parent? = some dir ∧ dir.IsNormal)
    (hdoc : brief.Gathers doc.source ∨ doc.source ∈ pending) {i : Nat} :
    (Bundle.pass inner plan i doc).Ends b s
      (fun _ b' s' => b.Alike b' ∧ Course brief output tree pending s' ∧ s.Keeps s')
      fun _ => True := by
  unfold Bundle.pass
  simp only [Making.ends_bind, Making.ends_lift]
  refine Work.ends_enter (fun _ => trivial) fun hnew => ?_
  have hentered : Course brief output tree pending
      { s with session := { s.session with inFlight := doc.source :: s.session.inFlight } } := by
    refine h.retake fun x hx => ?_
    rcases hx with hx | hx
    · rcases List.mem_cons.1 hx with rfl | hx
      · exact hdoc.imp_right fun hpending => .inr (.inr hpending)
      · exact .inr (.inl hx)
    · exact .inr (.inr (.inl hx))
  obtain ⟨dir, hparent, hnormal⟩ := hdir
  obtain ⟨result, origins, outline, horigins, hrender⟩ := Rendering.linkedDocument_eq doc.options
    (doc.source.parent?.getD ⟨"."⟩) doc.nodes
  have horigins' : ∀ o ∈ origins, (⟨o⟩ : Path).IsNormal := by
    intro o ho
    obtain ⟨target, rfl⟩ := horigins o ho
    rw [hparent]
    exact Path.isNormal_resolve_of_absolute hnormal.absolute target
  have hplugins' : b.brief.plugins = [] := by
    obtain ⟨input, hbrief⟩ := hb.brief_eq
    rw [hbrief]
    exact hplugins
  refine ends_transform hplugins' (fun _ _ => trivial) hrender fun b₁ s₁ _ halike₁ hs₁ => ?_
  refine ends_wrap fun b₂ halike₂ => ?_
  have halike := halike₁.trans halike₂
  have hcourse := (hentered.registerAll hlt horigins').of_same hs₁
  have hextends : s.session.store.Extends s₁.session.store :=
    hs₁.store.symm ▸ (h.descends.registerAll hlt origins).2.1
  have hflight : s₁.session.inFlight = doc.source :: s.session.inFlight := hs₁.inFlight
  have hgrows : s.tree.Grows s₁.tree := hs₁.tree.symm ▸ .refl s.tree
  unfold followAll
  simp only [Making.ends_bind, Making.ends_lift, Work.ends_session]
  refine (followCells hplugins hroot hinner (hb.alike halike hextends.size) hcourse
    (hplan.of_grows h.grows hgrows) hpreview (hflight.symm ▸ List.mem_cons_self)
    fun _ h => h).mono ?_ fun _ h => h
  rintro _ b' s₂ ⟨rfl, hcourse₂, hkeeps⟩
  have hflight₂ : s₂.session.inFlight = doc.source :: s.session.inFlight :=
    hkeeps.inFlight.trans hflight
  refine ⟨halike, hcourse₂.retake fun x hx => ?_, hextends.trans hkeeps.extends_store, ?_,
    hgrows.trans hkeeps.grows⟩
  · rcases hx with hx | hx
    · exact .inr (.inl (List.mem_of_mem_erase hx))
    · rcases List.mem_cons.1 hx with rfl | hx
      · exact .inr (.inl (hflight₂.symm ▸ List.mem_cons_self))
      · exact .inr (.inr (.inl hx))
  · exact (congrArg (List.erase · doc.source) hflight₂).trans (List.erase_cons_head _ _)

theorem passes (hplugins : brief.plugins = []) (hroot : brief.root.IsNormal)
    (hinner : Runs brief output tree inner) (hpreview : plan.isPreview = false)
    {docs : List (Document × Nat)} (hplan : plan.Suits brief output tree s.tree)
    (hb : b.Of brief output s) (h : Course brief output tree pending s)
    (hdocs : ∀ x ∈ docs, x.1.registry < s.session.store.registries.size ∧
      (∃ dir, x.1.source.parent? = some dir ∧ dir.IsNormal) ∧
      (brief.Gathers x.1.source ∨ x.1.source ∈ pending)) :
    (docs.forM fun (doc, i) => Bundle.pass inner plan i doc).Ends b s
      (fun _ b' s' => b.Alike b' ∧ Course brief output tree pending s' ∧ s.Keeps s')
      fun _ => True := by
  induction docs generalizing b s with
  | nil => exact ⟨.refl b, h, .refl s⟩
  | cons x docs ih =>
    rw [List.forM_eq_forM, List.forM_cons, Making.ends_bind]
    obtain ⟨hlt, hdir, hdoc⟩ := hdocs x List.mem_cons_self
    refine (pass hplugins hroot hinner hb h hplan hpreview hlt hdir hdoc).mono ?_ fun _ h => h
    rintro _ b₁ s₁ ⟨halike, hcourse, hkeeps⟩
    have hsize := hkeeps.extends_store.size
    refine (ih (hplan.of_grows h.grows hkeeps.grows) (hb.alike halike hsize) hcourse
      fun y hy => ?_).mono ?_ fun _ h => h
    · obtain ⟨hlt', hrest⟩ := hdocs y (List.mem_cons_of_mem _ hy)
      exact ⟨Nat.lt_of_lt_of_le hlt' hsize, hrest⟩
    · rintro _ b₂ s₂ ⟨halike', hcourse', hkeeps'⟩
      exact ⟨halike.trans halike', hcourse', hkeeps.trans hkeeps'⟩

end Course
end Bindery
