import Bindery.Proofs.FileTree
import Bindery.Proofs.Project.Operations

/-! What holds in the middle of a run of its assets and of the pages written so far. A page that a
link asked for is written already, or on its way, or it is that of a document that the project
gathers in a page with others. All of this is said of a run whose layout stays where it is. -/

namespace Bindery

/-- A document that the input or a name of the mapping puts in a page. -/
def Brief.Gathers (brief : Brief) (d : Path) : Prop :=
  d ∈ brief.input.files brief.mapping brief.root ∨ ∃ name e, brief.mapping.lookup name = some e ∧
    d ∈ e.paths.map fun p => brief.root.resolve ⟨p⟩

/-- Where the assets of a project go, from the tree at the start. -/
def Brief.plan (brief : Brief) (output : Output) (tree : FileTree) : Relocation :=
  ⟨brief.root, output.distDir brief.root, output.layoutDir brief.root tree, none⟩

/-- No directory has come up where the layout is looked for. -/
def Brief.Steady (brief : Brief) (output : Output) (tree t : FileTree) : Prop :=
  ∀ layout ∈ output.layout,
    t.isDirectory (brief.root.resolve layout) = tree.isDirectory (brief.root.resolve layout)

/-- A document that was taken up, or whose page is on its way. -/
def Bench.Takes (s : Bench) (pending : List Path) (d : Path) : Prop :=
  d ∈ s.session.inFlight ∨ d ∈ s.session.finished ∨ d ∈ pending

/-- What is known of the asset of a token. -/
structure Stands (brief : Brief) (plan : Relocation) (pending : List Path)
    (pages : List WrittenPage) (taken : Path → Prop) (t : Token) (a : Asset) : Prop where
  origin : a.isMarked = false → t = .ofOrigin a.source.text
  page : a.isMarked = true → ∃ d : Path, t = .ofOrigin d.text ∧
    a.source = d.withExtension "html" ∧
    (d ∈ pending ∨ brief.Gathers d ∨ ∃ page ∈ pages, page.file = plan.goal a.source)
  taken : ∀ d : Path, taken d → t = .ofOrigin d.text → brief.Gathers d ∨ a.isMarked = true
  links : ∀ page ∈ pages, ∀ new, (t, new) ∈ page.links → plan.place a = a ∧
    (new = plan.wayTo page.file a.source ∨ a.isMarked = true ∧ ∃ d : Path, d.IsNormal ∧
      t = .ofOrigin d.text ∧ new = plan.wayTo page.file d)

/-- The assets and the pages while the pages of some documents are on their way. -/
structure Standing (brief : Brief) (plan : Relocation) (pending : List Path) (s : Bench) :
    Prop where
  each : s.session.store.Each (Stands brief plan pending s.session.pages (s.Takes pending))
  taken : ∀ d, s.Takes pending d →
    brief.Gathers d ∨ .ofOrigin d.text ∈ s.session.store.tokens 0
  links : ∀ page ∈ s.session.pages, ∀ link ∈ page.links, link.1 ∈ s.session.store.tokens 0
  files : ∀ page ∈ s.session.pages, page.file.IsNormal ∧ s.tree.isFile page.file = true

/-- A bench in the middle of a run that began with `tree`. -/
structure Course (brief : Brief) (output : Output) (tree : FileTree) (pending : List Path)
    (s : Bench) : Prop where
  descends : s.session.store.Descends
  normal : s.session.store.Each fun _ a => a.source.IsNormal
  grows : tree.Grows s.tree
  root_free : s.tree.hasFile [] = false
  standing : brief.Steady output tree s.tree → Standing brief (brief.plan output tree) pending s

namespace FileTree

theorem isDirectory_of_grows {t t' : FileTree} (h : t.Grows t') {p : Path}
    (hp : t.isDirectory p = true) : t'.isDirectory p = true := by
  unfold isDirectory at hp ⊢
  cases hlocate : t.locate p with
  | error e => simp [hlocate] at hp
  | ok place =>
    rw [hlocate] at hp
    rw [locate_of_grows h hlocate]
    exact h.directory place hp

end FileTree

variable {brief : Brief} {output : Output} {tree : FileTree} {pending : List Path} {s s' : Bench}

theorem Brief.Steady.of_grows {t t' : FileTree} (h : brief.Steady output tree t')
    (htree : tree.Grows t) (hgrows : t.Grows t') : brief.Steady output tree t := by
  intro layout hlayout
  have hsame := h layout hlayout
  rw [Bool.eq_iff_iff] at hsame ⊢
  refine ⟨fun hmid => ?_, fun hdir => FileTree.isDirectory_of_grows htree hdir⟩
  exact hsame.1 (FileTree.isDirectory_of_grows hgrows hmid)

/-- Placing an asset changes nothing of this. -/
theorem Stands.place {plan : Relocation} {pages : List WrittenPage} {taken : Path → Prop} {t : Token}
    {a : Asset} (h : Stands brief plan pending pages taken t a) (ha : a.source.IsNormal) :
    Stands brief plan pending pages taken t (plan.place a) := by
  have hsource : (plan.place a).source = a.source := Relocation.source_place.trans ha.normalize_eq
  have hmarked : (plan.place a).isMarked = a.isMarked := Relocation.isMarked_place
  refine ⟨?_, ?_, ?_, fun page hpage new hnew => ?_⟩
  · rw [hmarked, hsource]
    exact h.origin
  · rw [hmarked, hsource]
    exact h.page
  · rw [hmarked]
    exact h.taken
  · rw [hmarked, hsource]
    exact ⟨Relocation.place_place ha, (h.links page hpage new hnew).2⟩

namespace Course

/-- What was looked up, logged and called does not matter. -/
theorem of_same (h : Course brief output tree pending s) (hs : s.Same s') :
    Course brief output tree pending s' := by
  obtain ⟨tree', ⟨store', root', silent', inFlight', finished', events', calls', pages'⟩, asked'⟩ := s'
  obtain ⟨rfl, rfl, rfl, rfl, rfl⟩ := hs
  refine ⟨h.descends, h.normal, h.grows, h.root_free, fun hsteady => ?_⟩
  obtain ⟨heach, htaken, hlinks, hfiles⟩ := h.standing hsteady
  exact ⟨heach, htaken, hlinks, hfiles⟩

/-- New registries change nothing. -/
theorem widen (h : Course brief output tree pending s)
    (hw : s.session.store.Widens s'.session.store)
    (hs : (s.withStore s'.session.store).Same s') : Course brief output tree pending s' := by
  have hwidened : Course brief output tree pending (s.withStore s'.session.store) := by
    refine ⟨hw.descends, hw.each h.normal, h.grows, h.root_free, fun hsteady => ?_⟩
    obtain ⟨heach, htaken, hlinks, hfiles⟩ := h.standing hsteady
    have htokens : s'.session.store.tokens 0 = s.session.store.tokens 0 :=
      congrArg (List.map Prod.fst) (hw.snapshot 0)
    refine ⟨hw.each heach, fun d hd => (htaken d hd).imp_right fun hknown => ?_,
      fun page hpage link hlink => ?_, hfiles⟩
    · exact htokens.symm ▸ hknown
    · exact htokens.symm ▸ hlinks page hpage link hlink
  exact hwidened.of_same hs

/-- Registering files adds their assets, which no page has and no document on its way. -/
theorem registerAll (h : Course brief output tree pending s) {r : RegistryId}
    (hr : r < s.session.store.registries.size) {origins : List String}
    (horigins : ∀ o ∈ origins, (⟨o⟩ : Path).IsNormal) :
    Course brief output tree pending (s.withStore (s.session.store.registerAll r origins)) := by
  obtain ⟨hdescends, hextends, -⟩ := h.descends.registerAll hr origins
  refine ⟨hdescends, ?_, h.grows, h.root_free, fun hsteady => ?_⟩
  · exact h.normal.registerAll_of_mem h.descends hr (fun _ _ _ h => h) origins
      fun o ho _ => horigins o ho
  · obtain ⟨heach, htaken, hlinks, hfiles⟩ := h.standing hsteady
    refine ⟨?_, fun d hd => ?_, fun page hpage link hlink => ?_, hfiles⟩
    · refine heach.registerAll_of_mem h.descends hr ?_ origins fun o ho hnew => ?_
      · intro t a isMaster ha
        refine ⟨ha.origin, ha.page, ha.taken, fun page hpage new hnew => ?_⟩
        obtain ⟨hplaced, hway⟩ := ha.links page hpage new hnew
        exact ⟨by rw [Relocation.place_isMaster, hplaced], hway⟩
      · refine ⟨fun _ => rfl, nofun, fun d hd htoken => ?_, fun page hpage new hlink => ?_⟩
        · refine .inl ((htaken d hd).resolve_right fun hknown => hnew ?_)
          exact htoken ▸ hknown
        · exact absurd (hlinks page hpage _ hlink) hnew
    · exact (htaken d hd).imp_right fun hknown => hextends.tokens_subset 0 hknown
    · exact hextends.tokens_subset 0 (hlinks page hpage link hlink)

variable {r : RegistryId} {t : Token} {c : CellId} {a : Asset} {plan : Relocation} {d : Path}

/-- A link marks the asset of a document, whose page is on its way from then on. -/
theorem mark (h : Course brief output tree pending s)
    (hplan : brief.Steady output tree s.tree → ∀ a, plan.place a = (brief.plan output tree).place a)
    (hslot : (t, c) ∈ s.session.store.snapshot r) (ha : s.session.store.asset? c = some a)
    (hunmarked : a.isMarked = false) (hmarkdown : a.source.isMarkdown = true) {placed : Asset}
    (hplaced : placed = plan.place { a with
      source := a.source.withExtension "html", isMarked := true }) :
    Course brief output tree (a.source :: pending)
      (s.withStore (s.session.store.modifyCell c fun _ => placed)) := by
  have hroot := h.descends.inRoot r _ hslot
  obtain ⟨a', ha', hnormal⟩ := h.normal _ hroot
  obtain rfl : a = a' := Option.some.inj (ha.symm.trans ha')
  obtain ⟨-, -, -, -, -, hhtml, -⟩ := Path.withExtension_html hnormal hmarkdown
  have hsource : placed.source = a.source.withExtension "html" := by
    rw [hplaced, Relocation.source_place, hhtml.normalize_eq]
  have hmarked : placed.isMarked = true := by
    rw [hplaced]
    exact Relocation.isMarked_place
  refine ⟨h.descends.modifyCell c _, ?_, h.grows, h.root_free, fun hsteady => ?_⟩
  · exact h.normal.modifyCell h.descends hslot (fun _ _ _ => hsource.symm ▸ hhtml)
      fun _ _ _ hother => hother
  · obtain ⟨heach, htaken, hlinks, hfiles⟩ := h.standing hsteady
    obtain ⟨b, hb, hstands⟩ := heach _ hroot
    obtain rfl : a = b := Option.some.inj (ha.symm.trans hb)
    have htoken := hstands.origin hunmarked
    refine ⟨heach.modifyCell h.descends hslot ?_ ?_, fun d hd => ?_, hlinks, hfiles⟩
    · intro _ _ _
      refine ⟨fun hnot => ?_, fun _ => ?_, fun _ _ _ => .inr hmarked, fun page hpage new hnew => ?_⟩
      · rw [hmarked] at hnot
        cases hnot
      · exact ⟨a.source, htoken, hsource, .inl List.mem_cons_self⟩
      · obtain ⟨-, hway⟩ := hstands.links page hpage new hnew
        have hold : new = (brief.plan output tree).wayTo page.file a.source :=
          hway.resolve_right fun h => by
            rw [hunmarked] at h
            cases h.1
        refine ⟨?_, .inr ⟨hmarked, a.source, hnormal, htoken, hold⟩⟩
        rw [hplaced, hplan hsteady]
        exact Relocation.place_place hhtml
    · intro u b hu hother
      refine ⟨hother.origin, fun hb => ?_, fun d hd htoken' => ?_, hother.links⟩
      · obtain ⟨d, hd, hsource, hleft⟩ := hother.page hb
        exact ⟨d, hd, hsource, hleft.imp_left (List.mem_cons_of_mem _)⟩
      · have hne : d ≠ a.source := fun heq => hu (htoken'.trans (heq ▸ htoken.symm))
        refine hother.taken d (hd.imp_right (Or.imp_right fun hd => ?_)) htoken'
        exact (List.mem_cons.1 hd).resolve_left hne
    · rcases hd with hd | hd | hd
      · exact htaken d (.inl hd)
      · exact htaken d (.inr (.inl hd))
      · rcases List.mem_cons.1 hd with rfl | hd
        · exact .inr (htoken ▸ List.mem_map_of_mem hroot)
        · exact htaken d (.inr (.inr hd))

/-- A page is on its way no longer when it is written, or when the project gathers its document. -/
theorem settle (h : Course brief output tree (d :: pending) s)
    (hd : brief.Steady output tree s.tree → brief.Gathers d ∨
      ∃ page ∈ s.session.pages, page.file = (brief.plan output tree).goal (d.withExtension "html")) :
    Course brief output tree pending s := by
  refine ⟨h.descends, h.normal, h.grows, h.root_free, fun hsteady => ?_⟩
  obtain ⟨heach, htaken, hlinks, hfiles⟩ := h.standing hsteady
  have hmore : ∀ x, s.Takes pending x → s.Takes (d :: pending) x := fun x hx =>
    hx.imp_right (Or.imp_right (List.mem_cons_of_mem _))
  refine ⟨heach.mono fun u b hb => ?_, fun x hx => htaken x (hmore x hx), hlinks, hfiles⟩
  refine ⟨hb.origin, fun hmarked => ?_, fun x hx => hb.taken x (hmore x hx), hb.links⟩
  obtain ⟨x, hx, hsource, hleft⟩ := hb.page hmarked
  refine ⟨x, hx, hsource, ?_⟩
  rcases hleft with hleft | hleft
  · rcases List.mem_cons.1 hleft with rfl | hleft
    · exact .inr (hsource ▸ hd hsteady)
    · exact .inl hleft
  · exact .inr hleft

/-- Documents are taken up and laid down. -/
theorem retake (h : Course brief output tree pending s) {inFlight finished : List Path}
    (hnew : ∀ d, d ∈ inFlight ∨ d ∈ finished → brief.Gathers d ∨ s.Takes pending d) :
    Course brief output tree pending
      { s with session := { s.session with inFlight, finished } } := by
  refine ⟨h.descends, h.normal, h.grows, h.root_free, fun hsteady => ?_⟩
  obtain ⟨heach, htaken, hlinks, hfiles⟩ := h.standing hsteady
  have htakes : ∀ d, (d ∈ inFlight ∨ d ∈ finished ∨ d ∈ pending) →
      brief.Gathers d ∨ s.Takes pending d := by
    rintro d (hd | hd | hd)
    · exact hnew d (.inl hd)
    · exact hnew d (.inr hd)
    · exact .inr (.inr (.inr hd))
  refine ⟨heach.mono fun u b hb => ?_, fun d hd => ?_, hlinks, hfiles⟩
  · refine ⟨hb.origin, hb.page, fun d hd htoken => ?_, hb.links⟩
    exact (htakes d hd).elim .inl fun hd => hb.taken d hd htoken
  · exact (htakes d hd).elim .inl (htaken d)

/-- A page is relocated and written. -/
theorem write (h : Course brief output tree pending s) (g : Generated) {file : Path}
    {text : Content} {after : FileTree} (hfile : file.IsNormal)
    (hplan : brief.Steady output tree s.tree →
      g.plan = { brief.plan output tree with outfile := some file })
    (hwrite : s.tree.write file text = .ok after) :
    let done := g.plan.run g.html s.session.store g.registry
    Course brief output tree pending
      ((s.withStore done.store).withPage after ⟨file, done.made⟩) := by
  obtain ⟨html, outline, r, plan⟩ := g
  intro done
  have hgrows := FileTree.grows_write hwrite
  have hsettled : done.store.Each (Relocation.Settled plan done.made) ∧
      done.made.map Prod.fst ⊆ s.session.store.tokens r :=
    Relocation.settled_run h.descends h.normal
  refine ⟨Relocation.descends_run h.descends, hsettled.1.mono fun _ _ h => h.1,
    h.grows.trans hgrows, FileTree.hasFile_nil_of_write hwrite h.root_free, fun hafter => ?_⟩
  have hsteady := hafter.of_grows h.grows hgrows
  obtain ⟨heach, htaken, hlinks, hfiles⟩ := h.standing hsteady
  obtain rfl := hplan hsteady
  have htokens : done.store.tokens 0 = s.session.store.tokens 0 :=
    congrArg (List.map Prod.fst) (Store.snapshot_of_registries Relocation.registries_run 0)
  have hplaced : done.store.Each fun t a => a.source.IsNormal ∧
      Stands brief (brief.plan output tree) pending s.session.pages (s.Takes pending) t a := by
    refine Relocation.each_run (h.normal.and heach) fun t a ha => ?_
    rw [Relocation.place_outfile]
    exact ⟨(Relocation.source_place (a := a)).symm ▸ ha.1.normalize_eq.symm ▸ ha.1, ha.2.place ha.1⟩
  refine ⟨(hplaced.and hsettled.1).mono fun t a ha => ?_, fun d hd => htokens.symm ▸ htaken d hd,
    fun page hpage link hlink => ?_, fun page hpage => ?_⟩
  · obtain ⟨⟨-, hstands⟩, -, hway⟩ := ha
    refine ⟨hstands.origin, fun hmarked => ?_, hstands.taken, fun page hpage new hnew => ?_⟩
    · obtain ⟨d, htoken, hsource, hleft⟩ := hstands.page hmarked
      refine ⟨d, htoken, hsource, hleft.imp_right (Or.imp_right fun hwritten => ?_)⟩
      obtain ⟨page, hpage, hfile⟩ := hwritten
      exact ⟨page, List.mem_append_left _ hpage, hfile⟩
    · rcases List.mem_append.1 hpage with hpage | hpage
      · exact hstands.links page hpage new hnew
      · obtain rfl := List.mem_singleton.1 hpage
        obtain ⟨hplace, hreplacement⟩ := hway new hnew
        have hpath := hreplacement.trans (Relocation.replacement_eq_wayTo rfl hplace)
        rw [Relocation.place_outfile] at hplace
        rw [Relocation.wayTo_outfile] at hpath
        exact ⟨hplace, .inl hpath⟩
  · rcases List.mem_append.1 hpage with hpage | hpage
    · exact htokens.symm ▸ hlinks page hpage link hlink
    · obtain rfl := List.mem_singleton.1 hpage
      exact htokens.symm ▸ h.descends.tokens_subset r (hsettled.2 (List.mem_map_of_mem hlink))
  · rcases List.mem_append.1 hpage with hpage | hpage
    · exact ⟨(hfiles page hpage).1, FileTree.isFile_of_grows hgrows (hfiles page hpage).2⟩
    · obtain rfl := List.mem_singleton.1 hpage
      exact ⟨hfile, FileTree.isFile_of_write hfile hwrite⟩

end Course
end Bindery
