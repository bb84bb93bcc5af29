import Bindery.Proofs.Project.Course
import Bindery.Proofs.Project.Tokens

/-! What the first pass of a bundle leaves in the tree of files. It writes the pages of the documents
to which a link leads for the first time, one after the other, each of them where the entry of its
document sends it. A pass that fails has done the same up to where it failed. -/

namespace Bindery

open FileTree (placeOf)

/-- A page with its text. -/
structure Deposit where
  page : WrittenPage
  text : String

namespace FileTree

variable {t t' : FileTree} {d : Deposit} {ds ds' before after : List Deposit} {q : Place}

/-- Writes pages, in order. -/
def deposit (t : FileTree) (ds : List Deposit) : Except FileFault FileTree :=
  ds.foldlM (fun t d => t.write d.page.file (.text d.text)) t

theorem deposit_cons : t.deposit (d :: ds) = .ok t' ↔
    ∃ made, t.write d.page.file (.text d.text) = .ok made ∧ made.deposit ds = .ok t' := by
  unfold deposit
  rw [List.foldlM_cons]
  cases t.write d.page.file (.text d.text) <;> simp [bind, Except.bind]

theorem deposit_append : t.deposit (ds ++ ds') = .ok t' ↔
    ∃ made, t.deposit ds = .ok made ∧ made.deposit ds' = .ok t' := by
  unfold deposit
  rw [List.foldlM_append]
  cases ds.foldlM (fun t d => t.write d.page.file (.text d.text)) t <;> simp [bind, Except.bind]

/-- Pages leave every file alone that is in the place of none of them. -/
theorem content_deposit (h : t.deposit ds = .ok t') (hq : ∀ d ∈ ds, placeOf d.page.file ≠ q) :
    t'.content? q = t.content? q := by
  induction ds generalizing t with
  | nil =>
    obtain rfl := Except.ok.inj h
    rfl
  | cons d ds ih =>
    obtain ⟨made, hwrite, hrest⟩ := deposit_cons.1 h
    rw [ih hrest fun d' hd' => hq d' (List.mem_cons_of_mem _ hd'), (write_spec hwrite).1,
      if_neg (hq d List.mem_cons_self).symm]

theorem exists_of_content_deposit (h : t.deposit ds = .ok t') (hq : t'.content? q ≠ t.content? q) :
    ∃ d ∈ ds, placeOf d.page.file = q := by
  by_contra hnone
  exact hq (content_deposit h fun d hd hplace => hnone ⟨d, hd, hplace⟩)

end FileTree

variable {brief : Brief} {output : Output} {tree : FileTree} {old : List Path} {s s' : Bench}
  {b b' : Bundle} {deep : Prop} {root : Path} {preview : Bool} {d : Deposit}

/-- In `s` the entry of the document `p` sends its page to `file`. The page has its place there when
it lies in the directory `root`, and otherwise goes beside the document. -/
def Bench.Sends (s : Bench) (root p file : Path) : Prop :=
  ∃ cell a, (.ofOrigin p.text, cell) ∈ s.session.store.snapshot s.session.root ∧
    s.session.store.asset? cell = some a ∧ a.isMarked = true ∧
    a.source = p.withExtension "html" ∧
    (root.isWithin a.source = true ∧ a.target = some file ∨
      root.isWithin a.source = false ∧ a.target = none ∧ file = a.source)

/-- A page was made of the bundle between `s` and `s'`, and this is its text with paths for tokens. -/
def Bundle.Shows (b : Bundle) (s : Bench) (d : Deposit) (s' : Bench) : Prop :=
  ∃ s₀ g s₁, s.Onward s₀ ∧ b.Puts s₀ g s₁ d.page ∧ d.text = Bundle.settled g s₁ ∧ s₁.Onward s'

/-- The page that a generated one comes to in a file. -/
def Generated.deposit (g : Generated) (s : Bench) (file : Path) : Deposit :=
  ⟨⟨file, (g.plan.run g.html s.session.store g.registry).made⟩, Bundle.settled g s⟩

theorem Bundle.shows_deposit {depth : Nat} {s₀ s₁ : Bench} {g : Generated} {file : Path}
    (hrun : ((generateWithin depth).run.run b).run s₀ = ((.ok g, b'), s₁))
    (hfile : g.plan.outfile = some file) (hs : s.Onward s₀) (hs' : s₁.Onward s') :
    b.Shows s (g.deposit s₁ file) s' :=
  ⟨s₀, g, s₁, hs, ⟨⟨depth, b', hrun⟩, hfile, rfl⟩, rfl, hs'⟩

/-- Between `s` and `s'` a link led to a document for the first time, and its page was made. -/
def Bench.Compiles (root : Path) (s : Bench) (d : Deposit) (s' : Bench) : Prop :=
  ∃ (p : Path) (m : Bench) (nb : Bundle), s.Onward m ∧ p ∉ m.session.linked ∧
    m.Sends root p d.page.file ∧ nb.brief.input = .one p.text ∧ nb.Shows m d s' ∧
    p ∈ s'.session.linked

theorem Bench.Compiles.mono {s₀ s₁ : Bench} (h : s.Compiles root d s') (hs : s₀.Onward s)
    (hs' : s'.Onward s₁) : s₀.Compiles root d s₁ := by
  obtain ⟨p, m, nb, hm, hnew, hsends, hinput, ⟨n, g, n', hn, hputs, htext, hn'⟩, hlinked⟩ := h
  exact ⟨p, m, nb, hs.trans hm, hnew, hsends, hinput, ⟨n, g, n', hn, hputs, htext, hn'.trans hs'⟩,
    hs'.linked.subset hlinked⟩

/-- A part of a run in which nothing is written but pages that are made for links, and none in a
preview. -/
structure Bench.Lays (root : Path) (preview : Bool) (s s' : Bench) : Prop
    extends s.Onward s' where
  deposits : ∃ ds, s'.session.pages = s.session.pages ++ ds.map (·.page) ∧
    s.tree.deposit ds = .ok s'.tree ∧ (preview = true → ds = []) ∧ ∀ d ∈ ds, s.Compiles root d s'

namespace Bench.Lays

theorem of_tree (h : s.Onward s') (htree : s'.tree = s.tree)
    (hpages : s'.session.pages = s.session.pages) : s.Lays root preview s' :=
  ⟨h, [], hpages.trans (List.append_nil _).symm, congrArg Except.ok htree.symm, fun _ => rfl, nofun⟩

theorem stocks (h : s.Stocks s') : s.Lays root preview s' := of_tree h.onward h.tree h.pages

theorem refl (s : Bench) : s.Lays root preview s := of_tree (.refl s) rfl rfl

theorem trans {s₁ s₂ s₃ : Bench} (h : s₁.Lays root preview s₂) (h' : s₂.Lays root preview s₃) :
    s₁.Lays root preview s₃ := by
  obtain ⟨ds, hpages, htree, hnone, hall⟩ := h.deposits
  obtain ⟨ds', hpages', htree', hnone', hall'⟩ := h'.deposits
  refine ⟨h.toOnward.trans h'.toOnward, ds ++ ds', ?_, ?_, fun hpreview => ?_, fun d hd => ?_⟩
  · rw [hpages', hpages, List.append_assoc, List.map_append]
  · exact FileTree.deposit_append.2 ⟨_, htree, htree'⟩
  · rw [hnone hpreview, hnone' hpreview, List.append_nil]
  · rcases List.mem_append.1 hd with hd | hd
    · exact (hall d hd).mono (.refl s₁) h'.toOnward
    · exact (hall' d hd).mono h.toOnward (.refl s₃)

/-- A page is written after the ones that it links to. -/
theorem write {s₁ : Bench} (h : s.Lays root false s₁) (hs : s₁.Onward s')
    (hwrite : s₁.tree.write d.page.file (.text d.text) = .ok s'.tree)
    (hpages : s'.session.pages = s₁.session.pages ++ [d.page]) (hd : s.Compiles root d s') :
    s.Lays root false s' := by
  obtain ⟨ds, hds, htree, -, hall⟩ := h.deposits
  have hlast : s₁.tree.deposit [d] = .ok s'.tree := FileTree.deposit_cons.2 ⟨_, hwrite, rfl⟩
  refine ⟨h.toOnward.trans hs, ds ++ [d], ?_, FileTree.deposit_append.2 ⟨_, htree, hlast⟩, nofun,
    fun d' hd' => ?_⟩
  · rw [hpages, hds, List.append_assoc, List.map_append]
    rfl
  · rcases List.mem_append.1 hd' with hd' | hd'
    · exact (hall d' hd').mono (.refl s) hs
    · exact List.mem_singleton.1 hd' ▸ hd

end Bench.Lays

theorem Bench.Course.lays : Bench.Course (Bench.Lays root preview) :=
  ⟨fun _ _ => .stocks, fun _ _ _ => .trans⟩

namespace Bundle

/-- `inner` keeps a run in its course, as far as it comes, and writes nothing but the pages it
compiles. -/
structure Leaves (brief : Brief) (output : Output) (tree : FileTree) (old : List Path)
    (inner : Making Generated) (count : Nat) (deep : Prop) : Prop
    extends Goes brief output tree old inner count deep where
  lays : ∀ ⦃b s⦄, b.Housed brief output s → s.Underway brief output tree old →
    old.length + count ≤ s.session.linked.length →
    inner.Exits b s (fun _ _ s' => s.Lays brief.root b.outfile.isNone s')
      fun _ _ s' => s.Lays brief.root b.outfile.isNone s'

variable {inner : Making Generated} {count : Nat} {plan : Relocation} {r : RegistryId}

/-- The page of a document that a link leads to for the first time is compiled and written. -/
theorem lays_follow (hroot : brief.root.IsNormal)
    (hinner : Leaves brief output tree old inner (count + 1) deep) (hb : b.Housed brief output s)
    (h : s.Underway brief output tree old) (hcount : old.length + count ≤ s.session.linked.length)
    {p target : Path} {c : CellId} {a : Asset}
    (hslot : (.ofOrigin p.text, c) ∈ s.session.store.snapshot r)
    (ha : s.session.store.asset? c = some a) (hmarked : a.isMarked = true) (hp : p.IsNormal)
    (hmarkdown : p.isMarkdown = true) (hnew : p ∉ s.session.linked)
    (hsends : s.Sends brief.root p target) :
    (follow inner ⟨p, target⟩).Exits b s (fun _ _ s' => s.Lays brief.root false s')
      fun _ _ s' => s.Lays brief.root false s' := by
  obtain ⟨depth, hdepth⟩ := hinner.within_depth
  unfold follow
  simp only [Making.exits_bind, Making.exits_lift, Work.exits_session]
  split
  · exact .refl s
  · simp only [Making.exits_bind, Making.exits_lift, Work.exits_log, Work.exits_noteLinked,
      Making.exits_bundle]
    -- How the run goes on is known already; that the making of the bundle writes nothing is not.
    refine Work.Exits.assuming
      (exits_nested hroot hb h hslot ha hmarked hp hmarkdown hnew _ : Work.Exits _ _ _ (s.Falls deep)) ?_
    have honward := Bench.Regular.onward_noteLinked s p
    unfold nested
    refine exits_make (h.regular.noteLinked hslot ha hmarked hnew _) hb.registry_lt
      (fun e s' _ hs => .of_tree ((honward _).trans hs.onward) hs.tree hs.pages) fun nb s₁ hbegun => ?_
    rintro ⟨hhoused, htarget, hunderway, -, hlength, -⟩
    have hmade : s.Lays brief.root false s₁ :=
      .of_tree ((honward _).trans hbegun.stocks.onward) hbegun.stocks.tree hbegun.stocks.pages
    have houtfile : nb.outfile = some target := by
      unfold outfile
      rw [htarget, Option.some_or]
    have hlays := hinner.lays hhoused hunderway (by omega)
    rw [houtfile] at hlays
    simp only [Making.exits_bind, Making.exits_pure, Making.exits_within]
    refine ((hinner.exits hhoused hunderway (by omega)).of_run.and hlays).mono ?_
      fun e nb' s' hfails => hmade.trans hfails.2
    rintro g nb' s₂ ⟨⟨hrun, hkept, hunderway₂, -, hyields⟩, hlaid⟩
    replace hlaid := hmade.trans hlaid
    -- A bundle for a link copies nothing, so its page is all that is written after its first pass.
    have hnested : nb'.isNested = true :=
      hkept.isNested_eq.trans (congrArg Option.isSome htarget)
    have hfile : g.plan.outfile = some target := hyields.outfile.trans houtfile
    simp only [Making.exits_bundle, Making.exits_lift]
    refine exits_emit hunderway₂.regular (fun e s' _ hs => hlaid.trans (.stocks hs))
      (fun hnone => ?_) fun file after assets report s₃ hfile' hwrite hassets hs₃ => ?_
    · rw [hfile] at hnone
      cases hnone
    · obtain rfl := Option.some.inj (hfile.symm.trans hfile')
      obtain ⟨-, honward₃⟩ := regular_of_written hunderway₂.regular hwrite hs₃
      have htree : s₃.tree = after := by
        rw [hs₃.tree, hassets.nested hnested]
        rfl
      have hshows : nb.Shows s (g.deposit s₂ target) s₃ :=
        shows_deposit (hdepth ▸ hrun) hfile hmade.toOnward honward₃
      have hlinked : p ∈ s₁.session.linked := by
        rw [hbegun.stocks.linked]
        exact List.mem_append_right _ List.mem_cons_self
      have hcompiles : s.Compiles brief.root (g.deposit s₂ target) s₃ :=
        ⟨p, s, nb, .refl s, hnew, hsends, congrArg Brief.input hbegun.brief_eq, hshows,
          (hyields.onward.trans honward₃).linked.subset hlinked⟩
      exact hlaid.write (d := g.deposit s₂ target) honward₃ (htree ▸ hwrite) hs₃.pages hcompiles

/-- A link that is found leads to a document whose entry sends its page to the link's target, and
nothing is written for it yet. -/
theorem exits_markLink_sends (h : s.Regular) {current : Path} {t : Token} {c : CellId}
    (hslot : (t, c) ∈ s.session.store.snapshot r) {E : Failure → Bench → Prop} :
    (markLink? plan current c).Exits s (fun found s' => s'.tree = s.tree ∧
      s'.session.pages = s.session.pages ∧ ∀ link ∈ found, plan.isPreview = false ∧
        s'.Sends plan.root link.source link.target) E := by
  refine exits_markLink h hslot (fun _ => ⟨rfl, rfl, nofun⟩) ?_
  rintro a placed _ ha ⟨hnormal, hunlinked⟩ hunmarked hmarkdown hplaced rfl
  refine ⟨⟨rfl, rfl, nofun⟩, fun hpreview => ⟨rfl, rfl, fun link hlink => ⟨hpreview, ?_⟩⟩⟩
  obtain rfl := Option.some.inj hlink
  obtain ⟨rfl, -⟩ := hunlinked hunmarked
  obtain ⟨-, -, -, -, -, hpage, -⟩ := Path.withExtension_html hnormal hmarkdown
  have hsource : placed.source = a.source.withExtension "html" := by
    rw [hplaced, Relocation.source_place, hpage.normalize_eq]
  have hmarked : placed.isMarked = true := by
    rw [hplaced]
    exact Relocation.isMarked_place
  have hslot₀ := h.root.symm ▸ h.descends.inRoot r _ hslot
  have hasset : (s.session.store.modifyCell c fun _ => placed).asset? c = some placed := by
    rw [Store.asset?_modifyCell, if_pos rfl, ha, Option.map_some]
  refine ⟨c, placed, hslot₀, hasset, hmarked, hsource, ?_⟩
  have hnormalized : (a.source.withExtension "html").normalize = placed.source :=
    hpage.normalize_eq.trans hsource.symm
  -- The entry was placed as a page, and whether it has a place depends on where the page's source is.
  cases hwithin : plan.root.isWithin placed.source with
  | false =>
    have htarget : placed.target = none := by
      rw [hplaced]
      exact (Relocation.place_of_not_within (hnormalized ▸ hwithin)).2
    refine .inr ⟨rfl, htarget, ?_⟩
    rw [htarget, Option.getD_none, hsource]
  | true =>
    obtain ⟨via, hvia⟩ : ∃ via, placed.target = some via := by
      rw [hplaced, Relocation.target_place, Relocation.via_place_of_within (hnormalized ▸ hwithin)]
      exact ⟨_, rfl⟩
    refine .inl ⟨rfl, ?_⟩
    rw [hvia, Option.getD_some]

/-- Following a reference of a document writes nothing but pages that are made for links. -/
theorem lays_followCell (hroot : brief.root.IsNormal)
    (hinner : Leaves brief output tree old inner (count + 1) deep) (hplan : Fits brief output plan) :
    Keeps brief output tree old inner count (Bench.Lays brief.root plan.isPreview) plan := by
  intro b s hb h hcount r t c hslot current
  unfold followCell
  simp only [Making.exits_bind, Making.exits_lift]
  refine Work.Exits.assuming (exits_markLink_sends (E := fun _ _ => True) h.regular hslot) ?_
  refine exits_markLink_underway hroot h hplan hslot ?_ ?_
  · rintro s₁ - honward - - ⟨htree, hpages, -⟩
    exact .of_tree honward htree hpages
  · rintro p target a s₁ hunderway honward - - hlinked hslot₁ ha hmarked hp hmarkdown hnew - -
      ⟨htree, hpages, hfound⟩
    obtain ⟨hpreview, hsends⟩ := hfound _ rfl
    have hmark : s.Lays brief.root false s₁ := .of_tree honward htree hpages
    rw [hpreview]
    exact (lays_follow hroot hinner (hb.onward honward) hunderway (hlinked.symm ▸ hcount) hslot₁ ha
      hmarked hp hmarkdown hnew (hplan.root ▸ hsends)).mono (fun _ _ _ hrest => hmark.trans hrest)
      fun _ _ _ hrest => hmark.trans hrest

theorem leaves_setPage (hroot : brief.root.IsNormal)
    (hinner : Leaves brief output tree old inner (count + 1) deep) :
    Leaves brief output tree old (setPage inner) count deep := by
  refine ⟨goes_setPage hroot hinner.toGoes, fun b s hb h hcount => ?_⟩
  refine keeps_setPage hroot hinner.toGoes .lays hb h hcount fun plan hfits hfile => ?_
  have hpreview : plan.isPreview = b.outfile.isNone := congrArg Option.isNone hfile
  exact hpreview ▸ lays_followCell hroot hinner hfits

theorem leaves_generateWithin (hroot : brief.root.IsNormal) (depth : Nat) : ∀ count,
    Leaves brief output tree old (generateWithin depth) count
      (depth + count ≤ brief.mapping.length + 2 * (tree.files.length + 1)) := by
  induction depth with
  | zero => exact fun count => ⟨goes_generateWithin hroot 0 count, fun b s _ _ _ => .refl s⟩
  | succ depth ih =>
    intro count
    have hinner := ih (count + 1)
    rw [← Nat.add_assoc, Nat.add_right_comm] at hinner
    exact leaves_setPage hroot hinner

end Bundle
end Bindery
