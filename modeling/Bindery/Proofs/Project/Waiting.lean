import Bindery.Proofs.Project.WrittenAgain

/-! A bundle that was made in a used session waits there until it is compiled. It is the bundle that is
made in a fresh session, but for the numbers of its registries, and these hold nothing, whatever else
is made and written in the meantime. -/

namespace Bindery

open FileTree (placeOf)

/-! Reading documents changes next to nothing. -/

/-- The benches differ at most in what was looked up, logged and called. -/
structure Bench.Aside (s s' : Bench) : Prop where
  tree : s'.tree = s.tree
  store : s'.session.store = s.session.store
  inFlight : s'.session.inFlight = s.session.inFlight
  finished : s'.session.finished = s.session.finished
  pages : s'.session.pages = s.session.pages
  linked : s'.session.linked = s.session.linked
  printed : s'.session.printed = s.session.printed

theorem Bench.Aside.refl (s : Bench) : s.Aside s := ⟨rfl, rfl, rfl, rfl, rfl, rfl, rfl⟩

theorem Bench.Aside.trans {s₁ s₂ s₃ : Bench} (h : s₁.Aside s₂) (h' : s₂.Aside s₃) : s₁.Aside s₃ where
  tree := h'.tree.trans h.tree
  store := h'.store.trans h.store
  inFlight := h'.inFlight.trans h.inFlight
  finished := h'.finished.trans h.finished
  pages := h'.pages.trans h.pages
  linked := h'.linked.trans h.linked
  printed := h'.printed.trans h.printed

namespace Work

variable {α β : Type} {w : Work α} {f : α → Work β}

/-- Work that only looks things up. -/
def Looks (w : Work α) : Prop := ∀ s : Bench, s.Aside (w.run.run s).2

theorem looks_pure (a : α) : (pure a : Work α).Looks := Bench.Aside.refl

theorem Looks.bind (hw : w.Looks) (hf : ∀ a, (f a).Looks) : (w >>= f).Looks := by
  intro s
  have hfirst := hw s
  rcases hrun : w.run.run s with ⟨r, s₁⟩
  rw [hrun] at hfirst
  cases r with
  | error e =>
    rw [run_bind_of_error hrun]
    exact hfirst
  | ok a =>
    rw [run_bind_of_ok hrun]
    exact hfirst.trans (hf a s₁)

theorem looks_mapM (hf : ∀ a, (f a).Looks) (l : List α) : (l.mapM f).Looks := by
  induction l with
  | nil => exact looks_pure []
  | cons a l ih =>
    rw [List.mapM_cons]
    exact (hf a).bind fun _ => ih.bind fun _ => looks_pure _

theorem looks_ofExcept {ε : Type} (wrap : ε → Failure) (r : Except ε α) :
    (ofExcept wrap r).Looks := by
  cases r <;> exact Bench.Aside.refl

theorem looks_log (level : Level) (line : String) : (log level line).Looks := fun s =>
  ⟨rfl, rfl, rfl, rfl, rfl, rfl, s.session.printed_logged (fun _ => level) (fun _ => line) [()]⟩

theorem looks_read (path : Path) : (read path).Looks := by
  intro s
  rw [run_read]
  exact ⟨rfl, rfl, rfl, rfl, rfl, rfl, rfl⟩

theorem looks_runPlugins (h : Plugin.Hook α) (plugins : List Plugin) (value : α)
    (options : Markdown.Options) : (runPlugins h plugins value options).Looks :=
  fun _ => ⟨rfl, rfl, rfl, rfl, rfl, rfl, rfl⟩

end Work

theorem Document.looks_read (declaration : Option Path) (plugins : List Plugin)
    (options : Markdown.Options) (d : Document) : (d.read declaration plugins options).Looks := by
  have hsplit (text : String) : (d.split text plugins options).Looks :=
    (Work.looks_runPlugins _ _ _ _).bind fun _ => (Work.looks_ofExcept _ _).bind fun _ =>
      (Work.looks_log _ _).bind fun _ => Work.looks_pure _
  cases declaration with
  | none =>
    rw [read_none]
    exact (Work.looks_read _).bind fun _ => hsplit _
  | some path =>
    rw [read_some]
    exact (Work.looks_read _).bind fun _ => (Work.looks_read _).bind fun _ => hsplit _

/-! Making a bundle. -/

/-- The session once it was told whether to be silent. -/
def Bench.hushed (s : Bench) (silent : Option Bool) : Bench :=
  { s with session := { s.session with silent := silent.getD s.session.silent } }

/-- The bundle whose registries have other numbers. -/
def Bundle.numbered (f : RegistryId → RegistryId) (b : Bundle) : Bundle := { b with
  registry := f b.registry
  documents := b.documents.map fun d => { d with registry := f d.registry } }

variable {tree : FileTree} {settings : Settings} {cwd : Path} {input : Entry} {b b' : Bundle}
  {s s' u v v' : Bench} {x : Reuse}

namespace Bundle

variable {brief : Brief} {output : Output} {master : RegistryId} {target : Option Path}

theorem looks_readAll (brief : Brief) (documents : List Document) : (readAll brief documents).Looks :=
  Work.looks_mapM (Document.looks_read _ _ _) documents

/-- All that is made are registries. -/
theorem aside_make (brief : Brief) (output : Output) (master : RegistryId) (target : Option Path)
    (s : Bench) : ∃ count, (s.withStore (s.session.store.family master count)).Aside
      ((make brief output master target).run.run s).2 := by
  rw [run_make]
  exact ⟨_, ((looks_readAll _ _).bind fun _ => Work.looks_pure _) _⟩

theorem made_of_run (h : (make brief output master target).run.run s = (.ok b, s')) :
    b.brief = brief ∧ b.output = output ∧ b.registry = s.session.store.registries.size := by
  have hends : (make brief output master target).Ends s
      (fun b _ => b.brief = brief ∧ b.output = output ∧ b.registry = s.session.store.registries.size)
      fun _ => True := by
    unfold Work.Ends
    rw [run_make]
    exact Work.Ends.last (w := readAll brief _) fun _ _ => ⟨rfl, rfl, rfl⟩
  unfold Work.Ends at hends
  rw [h] at hends
  exact hends

end Bundle

namespace Settings

/-- What the bundle of an input is made from. -/
def brief (s : Settings) (cwd : Path) (input : Entry) : Brief :=
  ⟨input, s.root.elim cwd cwd.resolve, s.declare, s.mapping, s.marked, s.plugins⟩

theorem run_make (hinput : settings.input = some input) (hne : input.isEmpty = false) (s : Bench) :
    (settings.make cwd).run.run s =
      (Bundle.make (settings.brief cwd input) settings.output s.session.root).run.run
        (s.hushed settings.silent) := by
  unfold make brief Bench.hushed
  rw [hinput]
  dsimp only
  rw [hne]
  cases settings.silent <;> cases settings.root <;> rfl

theorem exists_input (h : (settings.make cwd).run.run s = (.ok b, s')) :
    ∃ input, settings.input = some input ∧ input.isEmpty = false := by
  unfold make at h
  cases hinput : settings.input with
  | none =>
    rw [hinput] at h
    cases h
  | some input =>
    refine ⟨input, rfl, ?_⟩
    rw [hinput] at h
    cases hempty : input.isEmpty with
    | false => rfl
    | true =>
      dsimp only at h
      rw [hempty] at h
      cases h

end Settings

/-! Registries that are the same in two stores, and hold nothing. -/

namespace Store

variable {f g number : RegistryId → RegistryId} {base u u' v v' : Store}

theorem tokens_newChild (s : Store) (m r : RegistryId) : (s.newChild m).1.tokens r = s.tokens r :=
  congrArg (List.map Prod.fst) (snapshot_newChild s m r)

theorem tokens_children (s : Store) (m : RegistryId) (count : Nat) (r : RegistryId) :
    (s.children m count).tokens r = s.tokens r := by
  induction count generalizing s with
  | zero => rfl
  | succ count ih => exact (ih (s.newChild m).1).trans (tokens_newChild s m r)

theorem tokens_family (s : Store) (m : RegistryId) (count : Nat) (r : RegistryId) :
    (s.family m count).tokens r = s.tokens r :=
  (tokens_children _ _ count r).trans (tokens_newChild s m r)

/-- The store `v` has the registries of `u`, under the numbers `f`, and they hold nothing there. -/
structure Hosts (f : RegistryId → RegistryId) (u v : Store) : Prop where
  mono : ∀ r x, r < x → x < u.registries.size → f r < f x
  lt : ∀ r, r < u.registries.size → f r < v.registries.size
  zero : f 0 = 0
  master : ∀ r, r < u.registries.size → v.master? (f r) = (u.master? r).map f
  tokens : ∀ r, 0 < r → r < u.registries.size → v.tokens (f r) = []

namespace Hosts

theorem of_mirrors (h : Mirrors number base u v) (hempty : ∀ r, u.tokens r = []) :
    Hosts number u v where
  mono _ _ hrx _ := h.mono hrx
  lt _ hr := h.number_lt hr
  zero := h.zero
  master r _ := h.master r
  tokens r hpos _ := (h.tokens r hpos).trans (hempty r)

theorem mirrors (h : Hosts f u v) (hu : u.Young) (hreachable : v.Reachable) (hdescends : v.Descends)
    (hempty : ∀ r, u.tokens r = []) : Mirrors (continued f u.registries.size v.registries.size) v u v :=
  mirrors_continued hu hreachable hdescends hempty h.mono h.lt h.zero h.master h.tokens

/-- They are still there as long as nothing is put in them. -/
theorem later (h : Hosts f u v) (hsize : v.registries.size ≤ v'.registries.size)
    (hmaster : ∀ r, r < v.registries.size → v'.master? r = v.master? r)
    (htokens : ∀ r, 0 < r → r < u.registries.size → v'.tokens (f r) = v.tokens (f r)) :
    Hosts f u v' where
  mono := h.mono
  lt r hr := Nat.lt_of_lt_of_le (h.lt r hr) hsize
  zero := h.zero
  master r hr := (hmaster _ (h.lt r hr)).trans (h.master r hr)
  tokens r hpos hr := (htokens r hpos hr).trans (h.tokens r hpos hr)

/-- The registries of two bundles have no number in common, now or later. -/
theorem notMem_range (hf : Hosts f u v) (hg : Hosts g u' v)
    (hapart : ∀ r x, 0 < r → r < u.registries.size → 0 < x → x < u'.registries.size → f r ≠ g x)
    {r : RegistryId} (hpos : 0 < r) (hr : r < u.registries.size) :
    f r ∉ Set.range (continued g u'.registries.size v.registries.size) := by
  rintro ⟨x, hx⟩
  unfold continued at hx
  split at hx
  · next hlt =>
    rcases Nat.eq_zero_or_pos x with rfl | hx'
    · have hroot := hf.mono 0 r hpos hr
      rw [← hx, hf.zero, hg.zero] at hroot
      exact Nat.lt_irrefl 0 hroot
    · exact hapart r x hpos hr hx' hlt hx.symm
  · have hold := hf.lt r hr
    rw [← hx] at hold
    exact Nat.not_lt.2 (Nat.le_add_right _ _) hold

end Hosts
end Store

/-! A session in which nothing was compiled. -/

/-- The session has only made bundles so far. -/
structure Bench.Blank (tree : FileTree) (s : Bench) : Prop where
  tree : s.tree = tree
  tokens : ∀ r, s.session.store.tokens r = []
  origins : s.session.store.askedIn 0 = []
  inFlight : s.session.inFlight = []
  finished : s.session.finished = []
  pages : s.session.pages = []
  linked : s.session.linked = []
  printed : s.session.printed = []

namespace Bench.Blank

theorem fresh (tree : FileTree) : Bench.Blank tree { tree, session := .fresh } := by
  refine ⟨rfl, fun r => ?_, rfl, rfl, rfl, rfl, rfl, rfl⟩
  rcases Nat.eq_zero_or_pos r with rfl | hpos
  · rfl
  · exact congrArg (List.map Prod.fst) (Store.snapshot_of_size_le hpos)

theorem make {r : Except Failure Bundle} (h : s.Blank tree) (hinput : settings.input = some input)
    (hne : input.isEmpty = false) (hrun : (settings.make cwd).run.run s = (r, s')) :
    s'.Blank tree := by
  rw [Settings.run_make hinput hne] at hrun
  obtain ⟨count, haside⟩ := Bundle.aside_make (settings.brief cwd input) settings.output
    s.session.root none (s.hushed settings.silent)
  rw [hrun] at haside
  have hmemos : (s.session.store.family s.session.root count).memos = s.session.store.memos :=
    Store.memos_children _ _ _
  refine ⟨haside.tree.trans h.tree, fun r => ?_, ?_, haside.inFlight.trans h.inFlight,
    haside.finished.trans h.finished, haside.pages.trans h.pages, haside.linked.trans h.linked,
    haside.printed.trans h.printed⟩
  · rw [haside.store]
    exact (Store.tokens_family _ _ _ r).trans (h.tokens r)
  · have horigins := h.origins
    rw [haside.store]
    unfold Store.askedIn at horigins ⊢
    exact hmemos ▸ horigins

theorem of_make (h : s.Blank tree) (hrun : (settings.make cwd).run.run s = (.ok b, s')) :
    s'.Blank tree := by
  obtain ⟨input, hinput, hne⟩ := settings.exists_input hrun
  exact h.make hinput hne hrun

/-- A session that is on no document can be used. -/
theorem mirrors (h : u.Blank tree) (hstore : Store.Mirrors x.number x.base.session.store
      u.session.store x.base.session.store) (hsilent : x.silent = u.session.silent)
    (hin : x.base.session.inFlight = [])
    (htrees : FileTree.Agree x.reads x.places tree x.base.tree) : x.Mirrors u x.base where
  store := hstore
  inFlight := hin.trans h.inFlight.symm
  finished := by rw [h.finished, List.nil_append]
  pages := by rw [h.pages, List.append_nil]
  printed := by rw [h.printed, List.append_nil]
  silent := ⟨hsilent.symm, rfl⟩
  trees := by
    have hplaces : u.session.pagePlaces = ∅ := by
      unfold Session.pagePlaces
      simp [h.pages]
    rw [hplaces, Set.union_empty, h.tree]
    exact htrees

end Bench.Blank

/-! What a bundle reads. -/

/-- The places that a bundle reads until its session comes to `s`: those of its documents and of the
documents that it takes up, of its declaration and its layout, and of the assets. -/
inductive Brief.ReadsFrom (brief : Brief) (layout : Option Path) (s : Bench) : Place → Prop
  | document {p : Path} (hp : p ∈ brief.input.files brief.mapping brief.root) :
    ReadsFrom brief layout s (placeOf p)
  | linked {d p : Path} (hd : d ∈ s.session.linked)
    (hp : p ∈ (Entry.one d.text).files brief.mapping brief.root) :
    ReadsFrom brief layout s (placeOf p)
  | declaration {p : Path} (hp : p ∈ brief.declare) :
    ReadsFrom brief layout s (placeOf (brief.root.resolve p))
  | layout {p : Path} (hp : p ∈ layout) : ReadsFrom brief layout s (placeOf (brief.root.resolve p))
  | page {p : Path} (hp : p ∈ layout) :
    ReadsFrom brief layout s (placeOf ((brief.root.resolve p).join ⟨"index.html"⟩))
  | asset {a : Asset} (ha : a ∈ s.session.store.loose 0) : ReadsFrom brief layout s (placeOf a.source)

/-- The places that were looked up, and those of the pages. -/
def Bench.lookups (s : Bench) : List Place :=
  s.asked.map placeOf ++ s.session.pages.map fun page => placeOf page.file

theorem Bench.pagePlaces_subset (s : Bench) : s.session.pagePlaces ⊆ {q | q ∈ s.lookups} := by
  rintro q ⟨page, hpage, rfl⟩
  exact List.mem_append_right _ (List.mem_map_of_mem hpage)

/-- The session `base` is used for a bundle that looks up what it looks up in a fresh session until
that comes to `s`. -/
def Brief.reuse (brief : Brief) (layout : Option Path) (s : Bench) (hroot : brief.root.IsNormal)
    (number : RegistryId → RegistryId) (silent : Bool) (base : Bench)
    (hdocuments : ∀ d ∈ s.session.linked, d ∉ base.session.finished)
    (horigins : ∀ o ∈ s.session.store.askedIn 0, ∀ a,
      base.session.store.entryAt? 0 (.ofOrigin o) = some a → a.source = ⟨o⟩ ∧ a.isMarked = false) :
    Reuse where
  number := number
  base := base
  silent := silent
  brief := brief
  layout := layout
  reads := {q | brief.ReadsFrom layout s q}
  places := {q | q ∈ s.lookups}
  documents := {d | d ∈ s.session.linked}
  origins := {o | o ∈ s.session.store.askedIn 0}
  root := hroot
  declared _ hp := .declaration hp
  laid _ hp := ⟨.layout hp, .page hp⟩
  linked _ hd _ hp := .linked hd hp
  unfinished := hdocuments
  offered := horigins

section Reuse

variable {brief : Brief} {layout : Option Path} {q : Place}

theorem Brief.within_reuse {hroot : brief.root.IsNormal} {number : RegistryId → RegistryId}
    {silent : Bool} {base : Bench} {hdocuments : ∀ d ∈ s.session.linked, d ∉ base.session.finished}
    {horigins : ∀ o ∈ s.session.store.askedIn 0, ∀ a,
      base.session.store.entryAt? 0 (.ofOrigin o) = some a → a.source = ⟨o⟩ ∧ a.isMarked = false} :
    (brief.reuse layout s hroot number silent base hdocuments horigins).Within s where
  asked _ hp := List.mem_append_left _ (List.mem_map_of_mem hp)
  linked _ hd := hd
  origins _ ho := ho

theorem Bench.Blank.loose (h : s.Blank tree) : s.session.store.loose 0 = [] := by
  have hslots : s.session.store.snapshot 0 = [] := List.map_eq_nil_iff.1 (h.tokens 0)
  unfold Store.loose Store.assetsOf
  rw [hslots]
  rfl

/-- What is read to make a bundle is read in the end. -/
theorem Brief.ReadsFrom.later (h : brief.ReadsFrom layout s q) (hs : s.Blank tree) (s' : Bench) :
    brief.ReadsFrom layout s' q := by
  cases h with
  | document hp => exact .document hp
  | linked hd _ =>
    rw [hs.linked] at hd
    cases hd
  | declaration hp => exact .declaration hp
  | layout hp => exact .layout hp
  | page hp => exact .page hp
  | asset ha =>
    rw [hs.loose] at ha
    cases ha

theorem Bench.Blank.lookups_subset (h : s.Blank tree) (hs : s.Grown s') : s.lookups ⊆ s'.lookups := by
  unfold Bench.lookups
  rw [h.pages, List.map_nil, List.append_nil]
  exact fun q hq => List.mem_append_left _ (List.map_subset _ hs.asked hq)

end Reuse

/-- The bundle `b`, made in the fresh session of `u`, is the bundle `b'` of the session of `v`, where its
registries have the numbers `f` and hold nothing. -/
structure Bundle.Waits (f : RegistryId → RegistryId) (u : Bench) (b : Bundle) (v : Bench) (b' : Bundle) :
    Prop where
  eq : b' = b.numbered f
  young : u.session.store.Young
  hosts : Store.Hosts f u.session.store v.session.store

namespace Settings

theorem isNormal_root (settings : Settings) (hcwd : cwd.IsNormal) (input : Entry) :
    (settings.brief cwd input).root.IsNormal := by
  unfold brief
  cases settings.root with
  | none => exact hcwd
  | some root => exact Path.isNormal_resolve_of_absolute hcwd.absolute root

/-- The bundle that settings ask for is made in a used session as in a fresh one. -/
theorem waits_make {r : Except Failure Bundle} (hcwd : cwd.IsNormal) (hs : s.Regular)
    (hin : s.session.inFlight = []) (hinput : settings.input = some input)
    (hne : input.isEmpty = false)
    (hrun : (settings.make cwd).run.run { tree, session := .fresh } = (r, u))
    (hrun' : (settings.make cwd).run.run s = (.ok b', v))
    (htrees : FileTree.Agree {q | (settings.brief cwd input).ReadsFrom settings.output.layout u q}
      {q | q ∈ u.lookups} tree s.tree) :
    ∃ b, r = .ok b ∧ b.Waits (Store.continued id 1 s.session.store.registries.size) u v b' := by
  have hblank : u.Blank tree := (Bench.Blank.fresh tree).make hinput hne hrun
  let x : Reuse := (settings.brief cwd input).reuse settings.output.layout u
    (settings.isNormal_root hcwd input) (Store.continued id 1 s.session.store.registries.size)
    (Bench.hushed { tree, session := .fresh } settings.silent).session.silent
    (s.hushed settings.silent) (by rw [hblank.linked]; nofun) (by rw [hblank.origins]; nofun)
  have hstart : (Bench.hushed { tree, session := .fresh } settings.silent).Blank tree :=
    { Bench.Blank.fresh tree with }
  have hmirrors : x.Mirrors (Bench.hushed { tree, session := .fresh } settings.silent)
      (s.hushed settings.silent) :=
    hstart.mirrors (x := x) (Store.mirrors_newRoot hs.reachable hs.descends) rfl hin htrees
  have hfollows : Work.Follows x (fun b b' => b' = x.onBundle b)
      (Bundle.make { x.brief with input } settings.output 0)
      (Bundle.make { x.brief with input } settings.output (x.number 0))
      (Bench.hushed { tree, session := .fresh } settings.silent) (s.hushed settings.silent) :=
    Bundle.follows_make hmirrors Nat.one_pos (.inr rfl) fun p hp => .document hp
  rw [run_make hinput hne] at hrun hrun'
  rw [hs.root] at hrun'
  have hrun₁ : (Bundle.make { x.brief with input } settings.output 0).run.run
      (Bench.hushed { tree, session := .fresh } settings.silent) = (r, u) := hrun
  have hrun₁' : (Bundle.make { x.brief with input } settings.output (x.number 0)).run.run
      (s.hushed settings.silent) = (.ok b', v) := hrun'
  unfold Work.Follows at hfollows
  rw [hrun₁, hrun₁'] at hfollows
  obtain ⟨hanswers, hleads⟩ := hfollows Brief.within_reuse
  cases hanswers with
  | ok heq =>
    refine ⟨_, rfl, heq, hleads.mirrors.store.young, ?_⟩
    exact .of_mirrors hleads.mirrors.store hblank.tokens

theorem takes_make (hbrief : x.brief = settings.brief cwd input)
    (hlayout : settings.output.layout = x.layout) (hs : 0 < s.session.store.registries.size)
    (hinput : settings.input = some input) (hne : input.isEmpty = false)
    (hrun : (settings.make cwd).run.run s = (.ok b, s')) :
    x.Takes s'.session.store.registries.size false b := by
  rw [run_make hinput hne] at hrun
  have hrun₁ : (Bundle.make { x.brief with input } settings.output s.session.root).run.run
      (s.hushed settings.silent) = (.ok b, s') := by
    rw [hbrief]
    exact hrun
  have hfirst := congrArg Prod.fst hrun₁
  have htakes := Bundle.takes_make hlayout (s := s.hushed settings.silent) hs hfirst
  rwa [hrun₁] at htakes

end Settings

namespace Bundle

variable {f g : RegistryId → RegistryId} {r : Except Failure WriteReport} {a a' a₁ : Bundle}

theorem numbered_congr {n : Nat} {k : Bool} (hb : x.Takes n k b) (h : ∀ r, r < n → f r = g r) :
    b.numbered f = b.numbered g := by
  unfold numbered
  rw [h _ hb.lt]
  refine congrArg (fun documents => { b with registry := g b.registry, documents }) ?_
  exact List.map_congr_left fun d hd => by rw [h _ (hb.documents d hd).2]

/-- What waits goes on waiting as long as nothing is put in its registries. -/
theorem Waits.later (h : b.Waits f u v b') (hv : v.Onward v')
    (htokens : ∀ r, 0 < r → r < u.session.store.registries.size →
      v'.session.store.tokens (f r) = v.session.store.tokens (f r)) : b.Waits f u v' b' :=
  ⟨h.eq, h.young, h.hosts.later hv.extends_store.size hv.master htokens⟩

/-- Another bundle puts nothing in the registries of a bundle that waits. -/
theorem Waits.of_write (h : b.Waits f u v b') (hcwd : cwd.IsNormal) (htree : tree.Sound)
    (hmade : (settings.make cwd).run.run { tree, session := .fresh } = (.ok a, s))
    (ha : a.Waits g s v a') (hblank : v.Blank tree) (hv : v.Regular) (hhand : a'.AtHand v)
    (hapart : ∀ r x, 0 < r → r < u.session.store.registries.size → 0 < x →
      x < s.session.store.registries.size → f r ≠ g x)
    (hrun : (write.run.run a').run v = ((r, a₁), v')) : b.Waits f u v' b' := by
  obtain ⟨input, hinput, hne⟩ := settings.exists_input hmade
  have hblank₀ : s.Blank tree := (Bench.Blank.fresh tree).make hinput hne hmade
  obtain ⟨hs, hall⟩ := (Bench.Arises.make (.fresh tree htree.hasFile_nil) hcwd hmade).regular
  rcases hfresh : (write.run.run a).run s with ⟨⟨r₀, a₀⟩, s'⟩
  let x : Reuse := (settings.brief cwd input).reuse settings.output.layout s'
    (settings.isNormal_root hcwd input)
    (Store.continued g s.session.store.registries.size v.session.store.registries.size)
    s.session.silent v (by rw [hblank.finished]; exact fun _ _ => List.not_mem_nil) fun o _ asset hasset => by
      rw [Store.entryAt?_of_notMem (hblank.tokens 0 ▸ List.not_mem_nil)] at hasset
      cases hasset
  have hmirrors : x.Mirrors s v := hblank₀.mirrors (x := x)
    (ha.hosts.mirrors ha.young hv.reachable hv.descends hblank₀.tokens) rfl hblank.inFlight
    (hblank.tree.symm ▸ .refl htree _ _)
  have htakes : x.Takes s.session.store.registries.size false a :=
    settings.takes_make (s := { tree, session := .fresh }) rfl rfl Nat.one_pos hinput hne hmade
  have hsame : x.onBundle a = a.numbered g := numbered_congr htakes fun _ hr => if_pos hr
  have heq : x.onBundle a = a' := hsame.trans ha.eq.symm
  have hstores := mirrors_write htakes (Nat.le_refl _) (hall a List.mem_cons_self) hs hmirrors
    (heq ▸ hhand) hv hfresh (heq ▸ hrun) Brief.within_reuse
  have honward : v.Onward v' := ((hhand.exits_write hv).mono (fun _ _ _ h => h.2.2)
    fun _ _ _ h => h.2.onward).any (P := fun _ v' => v.Onward v') hrun
  exact h.later honward fun r hpos hr =>
    hstores.others _ (h.hosts.notMem_range ha.hosts hapart hpos hr)

end Bundle

end Bindery
