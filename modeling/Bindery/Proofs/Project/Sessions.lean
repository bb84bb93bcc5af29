import Bindery.Proofs.Project.Depth
import Bindery.Proofs.Project.Nesting

/-! What programs can do in a session, with the bundles at hand, and what holds after all of it. -/

namespace Bindery

namespace Bundle

open Making (bundle)

/-- Follows a reference up to the bundle that is made for it. -/
def openLink (plan : Relocation) (current : Path) (cell : CellId) : Making (Option Bundle) := do
  match ← markLink? plan current cell with
  | none => return none
  | some link =>
    if (← Work.session).finished.contains link.source then return none
    Work.log .debug ("nested bundle " ++ link.source.text ++ " -> " ++ link.target.text)
    Work.noteLinked link.source
    return some (← (← bundle).nested link)

/-- What a reference brings about is that the bundle made for it is written. -/
theorem followCell_eq (depth : Nat) (plan : Relocation) (current : Path) (cell : CellId) :
    followCell (generateWithin depth) plan current cell = (do
      (← openLink plan current cell).forM fun nb => do
        let _ ← Making.within nb (writeWithin depth)) := by
  unfold followCell openLink
  rw [bind_assoc]
  refine bind_congr fun link => ?_
  cases link with
  | none => simp
  | some link =>
    simp only [follow, writeWithin, bind_assoc]
    refine bind_congr fun session => ?_
    split
    · simp
    · simp

/-- Takes a document up, and follows its references up to the bundle that is made for the `j`-th of
them. -/
def openReference (inner : Making Generated) (plan : Relocation) (i j : Nat) (d : Document) :
    Making (Option Bundle) := do
  Work.enter d.source
  transform i d
  wrap i
  let slots := (← Work.session).store.snapshot d.registry
  (slots.take j).forM fun (_, cell) => followCell inner plan d.source cell
  match slots[j]? with
  | none => return none
  | some (_, cell) => openLink plan d.source cell

/-- The first pass of a bundle up to the bundle that is made for the `j`-th reference of its `i`-th
document. -/
def approach (inner : Making Generated) (i j : Nat) : Making (Option Bundle) := do
  let b ← bundle
  let root := b.brief.root
  let layout ← Layout.load b.output.layout root
  let plan : Relocation := ⟨root, b.output.distDir root, layout.dir, b.outfile⟩
  (b.documents.zipIdx.take i).forM fun (d, i) => pass inner plan i d
  match b.documents[i]? with
  | none => return none
  | some d => openReference inner plan i j d

variable {brief : Brief} {output : Output} {tree : FileTree} {old : List Path} {s s' : Bench}
  {b b' : Bundle} {deep : Prop} {inner : Making Generated} {count : Nat} {plan : Relocation}
  {r : RegistryId}

/-- A part of a pass that comes to a bundle, or to none. -/
structure Opens (brief : Brief) (output : Output) (b : Bundle) (s : Bench) (found : Option Bundle)
    (b' : Bundle) (s' : Bench) : Prop where
  kept : b.Kept b'
  regular : s'.Regular
  onward : s.Onward s'
  housed : ∀ nb ∈ found, nb.Housed brief output s'

theorem opens_none (hb : b.Kept b') (h : s'.Underway brief output tree old) (hs : s.Onward s') :
    Opens brief output b s none b' s' :=
  ⟨hb, h.regular, hs, fun _ hnb => absurd hnb (Option.not_mem_none _)⟩

theorem Opens.after {found : Option Bundle} {b₁ : Bundle} {s₁ : Bench} (hb : b.Kept b₁)
    (hs : s.Onward s₁) (h : Opens brief output b₁ s₁ found b' s') :
    Opens brief output b s found b' s' :=
  ⟨hb.trans h.kept, h.regular, hs.trans h.onward, h.housed⟩

theorem exits_openLink (hroot : brief.root.IsNormal) (hb : b.Housed brief output s)
    (h : s.Underway brief output tree old) (hplan : Fits brief output plan) {d : Path} {t : Token}
    {c : CellId} (hslot : (t, c) ∈ s.session.store.snapshot r) :
    (openLink plan d c).Exits b s (Opens brief output b s) fun _ _ _ => True := by
  unfold openLink
  simp only [Making.exits_bind, Making.exits_lift]
  refine exits_markLink_underway hroot h hplan hslot
    (fun s' hunderway honward _ _ => Making.exits_pure.2 (opens_none (.refl b) hunderway honward)) ?_
  intro p target a s₁ hunderway honward _ _ hlinked hslot₁ ha hmarked hp hmarkdown hnew _ htarget
  simp only [Making.exits_bind, Making.exits_lift, Work.exits_session]
  split
  · exact Making.exits_pure.2 (opens_none (.refl b) hunderway honward)
  · simp only [Making.exits_bind, Making.exits_lift, Work.exits_log, Work.exits_noteLinked,
      Making.exits_bundle]
    refine Work.Exits.mono (E := s₁.Falls True) (exits_nested hroot (hb.onward honward) hunderway
      hslot₁ ha hmarked hp hmarkdown hnew _) ?_ fun _ _ _ => trivial
    rintro nb s₂ ⟨hhoused, -, hunderway₂, hadvances, -⟩
    refine ⟨.refl b, hunderway₂.regular, honward.trans hadvances.toOnward, fun nb' hnb' => ?_⟩
    exact Option.some.inj hnb' ▸ hhoused

theorem exits_openReference (hroot : brief.root.IsNormal)
    (hinner : Goes brief output tree old inner (count + 1) deep) (hb : b.Housed brief output s)
    (h : s.Underway brief output tree old) (hcount : old.length + count ≤ s.session.linked.length)
    (hplan : Fits brief output plan) {d : Document}
    (hlt : d.registry < s.session.store.registries.size)
    (hdir : ∃ dir, d.source.parent? = some dir ∧ dir.IsNormal) (i j : Nat) :
    (openReference inner plan i j d).Exits b s (Opens brief output b s) fun _ _ _ => True := by
  unfold openReference
  simp only [Making.exits_bind, Making.exits_lift, Work.exits_session]
  refine exits_takeUp h.regular hlt hdir (fun _ _ _ _ _ _ => trivial) fun b₁ s₁ hkept hs _ => ?_
  have hb₁ := (hb.onward hs.onward).kept hkept
  refine (goes_followCells hroot hinner hb₁ (h.stocks hs) (hs.linked.symm ▸ hcount) hplan
    fun _ hslot => List.mem_of_mem_take hslot).mono ?_ fun _ _ _ _ => trivial
  rintro _ b₂ s₂ ⟨rfl, hunderway, hadvances, -⟩
  have honward := hadvances.toOnward
  cases hj : (s₁.session.store.snapshot d.registry)[j]? with
  | none => exact Making.exits_pure.2 (opens_none hkept hunderway (hs.onward.trans honward))
  | some slot =>
    have hslot := honward.extends_store.slots _ _ (List.mem_of_getElem? hj)
    exact (exits_openLink hroot (hb₁.onward honward) hunderway hplan hslot).mono
      (fun _ _ _ hopens => hopens.after hkept (hs.onward.trans honward)) fun _ _ _ h => h

theorem exits_approach (hroot : brief.root.IsNormal)
    (hinner : Goes brief output tree old inner (count + 1) deep) (hb : b.Housed brief output s)
    (h : s.Underway brief output tree old) (hcount : old.length + count ≤ s.session.linked.length)
    (i j : Nat) :
    (approach inner i j).Exits b s (Opens brief output b s) fun _ _ _ => True := by
  unfold approach
  simp only [Making.exits_bind, Making.exits_bundle, Making.exits_lift]
  refine exits_loadLayout hroot hb h.regular (fun _ _ _ _ => trivial)
    fun page s₁ _ hs₁ hroot' _ hfits => ?_
  have hb₁ := hb.onward hs₁.onward
  refine (goes_passes hroot hinner hb₁ (h.stocks hs₁) (hs₁.linked.symm ▸ hcount) hfits
    fun x hx => ?_).mono ?_ fun _ _ _ _ => trivial
  · obtain ⟨hlt, -, hparent⟩ :=
      hb₁.documents x.1 (List.fst_mem_of_mem_zipIdx (List.mem_of_mem_take hx))
    exact ⟨hlt, hparent⟩
  · rintro _ b₂ s₂ ⟨hkept, hunderway, hadvances, -⟩
    have honward := hs₁.onward.trans hadvances.toOnward
    cases hi : b.documents[i]? with
    | none => exact Making.exits_pure.2 (opens_none hkept hunderway honward)
    | some d =>
      have hb₂ := hb.onward honward
      obtain ⟨hlt, -, hdir⟩ := hb₂.documents d (List.mem_of_getElem? hi)
      refine (exits_openReference hroot hinner (hb₂.kept hkept) hunderway
        (Nat.le_trans hcount honward.linked.length_le) hfits hlt hdir i j).mono
        (fun _ _ _ hopens => hopens.after hkept honward) fun _ _ _ h => h

/-- A bundle that is at hand: the directory it works in is a normal path, and its documents are
housed. -/
structure AtHand (s : Bench) (b : Bundle) : Prop where
  root : b.brief.root.IsNormal
  housed : b.Housed b.brief b.output s

theorem Housed.atHand (h : b.Housed brief output s) (hroot : brief.root.IsNormal) : b.AtHand s := by
  refine ⟨?_, ⟨⟨_, rfl⟩, ⟨_, rfl⟩, h.registry_lt⟩, h.documents⟩
  obtain ⟨input, hbrief⟩ := h.brief_eq
  rw [hbrief]
  exact hroot

theorem AtHand.onward (h : b.AtHand s) (hs : s.Onward s') : b.AtHand s' :=
  ⟨h.root, h.housed.onward hs⟩

theorem AtHand.kept (h : b.AtHand s) (hb : b.Kept b') : b'.AtHand s :=
  (h.housed.kept hb).atHand h.root

/-- A bundle that is at hand is generated within any depth. -/
theorem AtHand.exits_generateWithin (h : b.AtHand s) (hs : s.Regular) (depth : Nat) :
    (generateWithin depth).Exits b s
      (fun g b' s' => b.Kept b' ∧ s'.Regular ∧ s.Onward s' ∧ g.registry = b.registry ∧
        b.Covered s s')
      fun e b' s' => b.Kept b' ∧ s.Falls (depth < s.depth b.brief.mapping) e s' := by
  have hgoes := (goes_generateWithin h.root depth 0).exits h.housed (.start hs b.brief b.output)
    (Nat.le_refl _)
  refine hgoes.mono ?_ ?_
  · rintro g b' s' ⟨hkept, -, -, hyields⟩
    exact ⟨hkept, hyields.regular, hyields.onward, hyields.registry, hyields.covered⟩
  · rintro e b' s' ⟨hkept, hfalls⟩
    refine ⟨hkept, hfalls.mono fun hle => ?_⟩
    unfold Bench.depth
    omega

theorem AtHand.exits_generate (h : b.AtHand s) (hs : s.Regular) :
    generate.Exits b s
      (fun g b' s' => b.Kept b' ∧ s'.Regular ∧ s.Onward s' ∧ g.registry = b.registry ∧
        b.Covered s s')
      fun e b' s' => b.Kept b' ∧ s.Falls False e s' := by
  unfold generate
  simp only [Making.exits_bind, Making.exits_bundle, Making.exits_lift, Work.exits_get]
  refine (h.exits_generateWithin hs _).mono (fun _ _ _ h => h) ?_
  rintro e b' s' ⟨hkept, hfalls⟩
  exact ⟨hkept, hfalls.mono (Nat.lt_irrefl _)⟩

/-- The page of a bundle that is at hand is written or printed, unless something else than its depth
stops it. -/
theorem AtHand.exits_write (h : b.AtHand s) (hs : s.Regular) :
    write.Exits b s (fun _ b' s' => b.Kept b' ∧ s'.Regular ∧ s.Onward s')
      fun e b' s' => b.Kept b' ∧ s.Falls False e s' := by
  unfold write
  simp only [Making.exits_bind, Making.exits_bundle, Making.exits_lift]
  refine (h.exits_generate hs).mono ?_ fun _ _ _ h => h
  rintro g b' s₁ ⟨hkept, hs₁, honward, -, -⟩
  refine exits_emit hs₁ (fun e s' he hs' => ⟨hkept, Bench.bears_falls honward e s' he hs'⟩)
    (fun _ s' hs' _ => ?_) fun _ _ _ _ s' _ hwrite _ hs' => ?_
  · have hrelocated := hs₁.relocate g.plan g.html g.registry
    have hstocks := hrelocated.trans (hrelocated.regular.stocks_of_quiet hs')
    exact ⟨hkept, hstocks.regular, honward.trans hstocks.onward⟩
  · obtain ⟨hregular, honward'⟩ := regular_of_written hs₁ hwrite hs'
    exact ⟨hkept, hregular, honward.trans honward'⟩

end Bundle

theorem Settings.exits_make {s : Bench} (settings : Settings) {cwd : Path} (h : s.Regular)
    (hcwd : cwd.IsNormal) : (settings.make cwd).Exits s
      (fun b s' => s'.Regular ∧ s.Onward s' ∧ b.AtHand s') fun _ s' => s'.Regular ∧ s.Onward s' := by
  have hmade : ∀ {s₁ : Bench} {brief : Brief}, s.Stocks s₁ → brief.root.IsNormal →
      (Bundle.make brief settings.output s₁.session.root).Exits s₁
        (fun b s' => s'.Regular ∧ s.Onward s' ∧ b.AtHand s') fun _ s' => s'.Regular ∧ s.Onward s' := by
    intro s₁ brief hs₁ hroot
    have hlt : s₁.session.root < s₁.session.store.registries.size :=
      hs₁.regular.root ▸ hs₁.regular.descends.pos
    refine Bundle.exits_make hs₁.regular hlt
      (fun _ s' _ hs' => ⟨hs'.regular, hs₁.onward.trans hs'.onward⟩) fun b s' hbegun => ?_
    have hhoused : b.Housed brief settings.output s' :=
      hbegun.housed brief.input settings.output.data hs₁.regular hroot
    exact ⟨hbegun.stocks.regular, hs₁.onward.trans hbegun.stocks.onward, hhoused.atHand hroot⟩
  unfold make
  cases settings.input with
  | none => exact ⟨h, .refl s⟩
  | some input =>
    dsimp only
    split
    · exact ⟨h, .refl s⟩
    · cases settings.silent with
      | none =>
        simp only [Work.exits_bind, Work.exits_session]
        cases settings.root with
        | none => exact hmade h.stocks_refl hcwd
        | some root =>
          exact hmade h.stocks_refl (Path.isNormal_resolve_of_absolute hcwd.absolute root)
      | some silent =>
        simp only [Work.exits_bind, Work.exits_modifySession, Work.exits_session]
        have hsilent : s.Stocks { s with session := { s.session with silent } } :=
          h.stocks_of_quiet ⟨rfl, rfl, rfl, rfl, rfl⟩
        cases settings.root with
        | none => exact hmade hsilent hcwd
        | some root => exact hmade hsilent (Path.isNormal_resolve_of_absolute hcwd.absolute root)

/-- A bench that a program can come to, with the bundles that it has at hand: in a new session it
makes bundles, generates, relocates and writes them in any order, while others change the files. A
bundle is also at hand where a first pass is about to compile it for a link. -/
inductive Bench.Arises : Bench → List Bundle → Prop
  | fresh (tree : FileTree) (hfree : tree.hasFile [] = false) :
    Arises { tree, session := .fresh } []
  | change {s : Bench} {bs : List Bundle} (h : Arises s bs) (tree : FileTree)
    (hfree : tree.hasFile [] = false) : Arises { s with tree } bs
  | make {s s' : Bench} {bs : List Bundle} (h : Arises s bs) {settings : Settings} {cwd : Path}
    (hcwd : cwd.IsNormal) {r : Except Failure Bundle}
    (hrun : (settings.make cwd).run.run s = (r, s')) : Arises s' (r.toOption.toList ++ bs)
  | generate {s s' : Bench} {bs : List Bundle} (h : Arises s bs) {b b' : Bundle} (hb : b ∈ bs)
    {r : Except Failure Generated} (hrun : (Bundle.generate.run.run b).run s = ((r, b'), s')) :
    Arises s' (b' :: bs)
  | relocate {s s' : Bench} {bs : List Bundle} (h : Arises s bs) (g : Generated)
    {r : Except Failure String} (hrun : (Bundle.relocate g).run.run s = (r, s')) : Arises s' bs
  | write {s s' : Bench} {bs : List Bundle} (h : Arises s bs) {b b' : Bundle} (hb : b ∈ bs)
    {r : Except Failure WriteReport} (hrun : (Bundle.write.run.run b).run s = ((r, b'), s')) :
    Arises s' (b' :: bs)
  | approach {s s' : Bench} {bs : List Bundle} (h : Arises s bs) {b b' nb : Bundle} (hb : b ∈ bs)
    (depth i j : Nat)
    (hrun : ((Bundle.approach (Bundle.generateWithin depth) i j).run.run b).run s =
      ((.ok (some nb), b'), s')) :
    Arises s' (nb :: b' :: bs)

namespace Bench.Arises

theorem regular_fresh {tree : FileTree} (hfree : tree.hasFile [] = false) :
    ({ tree, session := .fresh } : Bench).Regular := by
  have hnone : ∀ slot, slot ∉ Session.fresh.store.snapshot 0 := fun _ => List.not_mem_nil
  exact ⟨.act .newRoot .empty rfl, Store.descends_newRoot, rfl, hfree,
    fun slot hslot => absurd hslot (hnone slot), nofun, List.nodup_nil⟩

/-- Whatever a program did, the bench is regular and its bundles stay at hand. -/
theorem regular {s : Bench} {bs : List Bundle} (h : s.Arises bs) :
    s.Regular ∧ ∀ b ∈ bs, b.AtHand s := by
  have hgone : ∀ {s s' : Bench} {b b' : Bundle} {bs : List Bundle}, (∀ b ∈ bs, b.AtHand s) →
      b ∈ bs → b.Kept b' → s.Onward s' → ∀ x ∈ b' :: bs, x.AtHand s' := by
    intro s s' b b' bs hall hb hkept honward x hx
    rcases List.mem_cons.1 hx with rfl | hx
    · exact ((hall b hb).onward honward).kept hkept
    · exact (hall x hx).onward honward
  induction h with
  | fresh tree hfree => exact ⟨regular_fresh hfree, fun b hb => absurd hb List.not_mem_nil⟩
  | change h tree hfree ih =>
    refine ⟨ih.1.withTree hfree, fun b hb => (ih.2 b hb).onward ?_⟩
    exact Bench.onward_of_store rfl (List.prefix_refl _)
  | @make s s' bs h settings cwd hcwd r hrun ih =>
    have hmake := Settings.exits_make settings ih.1 hcwd
    cases r with
    | error e =>
      obtain ⟨hs', honward⟩ := (hmake.mono (fun _ _ h => ⟨h.1, h.2.1⟩) fun _ _ h => h).any
        (P := fun s' => s'.Regular ∧ s.Onward s') hrun
      exact ⟨hs', fun b hb => (ih.2 b hb).onward honward⟩
    | ok b =>
      obtain ⟨hs', honward, hb⟩ := hmake.ok hrun
      refine ⟨hs', fun x hx => ?_⟩
      rcases List.mem_cons.1 hx with rfl | hx
      · exact hb
      · exact (ih.2 x hx).onward honward
  | @generate s s' bs h b b' hb r hrun ih =>
    have hends := (ih.2 b hb).exits_generate ih.1
    obtain ⟨hkept, hs', honward⟩ := (hends.mono (fun _ _ _ h => ⟨h.1, h.2.1, h.2.2.1⟩)
      fun _ _ _ h => ⟨h.1, h.2.regular, h.2.onward⟩).any
      (P := fun b' s' => b.Kept b' ∧ s'.Regular ∧ s.Onward s') hrun
    exact ⟨hs', hgone ih.2 hb hkept honward⟩
  | @relocate s s' bs h g r hrun ih =>
    have hends : (Bundle.relocate g).Exits s (fun _ => s.Stocks) fun _ => s.Stocks := by
      unfold Bundle.relocate
      rw [Work.exits_bind]
      have hrelocated := ih.1.relocate g.plan g.html g.registry
      exact Bundle.exits_settle fun s' hs' =>
        hrelocated.trans (hrelocated.regular.stocks_of_quiet hs')
    have hs' := hends.any hrun
    exact ⟨hs'.regular, fun b hb => (ih.2 b hb).onward hs'.onward⟩
  | @write s s' bs h b b' hb r hrun ih =>
    have hends := (ih.2 b hb).exits_write ih.1
    obtain ⟨hkept, hs', honward⟩ := (hends.mono (fun _ _ _ h => h)
      fun _ _ _ h => ⟨h.1, h.2.regular, h.2.onward⟩).any
      (P := fun b' s' => b.Kept b' ∧ s'.Regular ∧ s.Onward s') hrun
    exact ⟨hs', hgone ih.2 hb hkept honward⟩
  | @approach s s' bs h b b' nb hb depth i j hrun ih =>
    have hatHand := ih.2 b hb
    have hopens := (Bundle.exits_approach hatHand.root
      (Bundle.goes_generateWithin hatHand.root depth 1) hatHand.housed
      (.start ih.1 b.brief b.output) (Nat.le_refl _) i j).ok hrun
    refine ⟨hopens.regular, fun x hx => ?_⟩
    rcases List.mem_cons.1 hx with rfl | hx
    · exact (hopens.housed _ rfl).atHand hatHand.root
    · exact hgone ih.2 hb hopens.kept hopens.onward x hx

end Bench.Arises
end Bindery
