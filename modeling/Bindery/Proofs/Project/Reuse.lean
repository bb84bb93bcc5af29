import Bindery.Proofs.Agree
import Bindery.Proofs.Asset.Mirror
import Bindery.Proofs.Project.Depth
import Bindery.Proofs.Project.Run

/-! The same work in a fresh session and in a used one. As long as the fresh session asks for nothing
that the used one has changed, both come to the same answer step by step, and what is written in the
fresh session is added to what the used one had written before. -/

namespace Bindery

open FileTree (placeOf)

variable {α β γ δ : Type}

namespace Session

/-- All that was printed, piece by piece. -/
def printed (s : Session) : List String :=
  s.events.filterMap fun
    | .printed text => some text
    | .logged .. => none

/-- The places of the pages that were written. -/
def pagePlaces (s : Session) : Set Place := {p | ∃ page ∈ s.pages, placeOf page.file = p}

end Session

/-- What a session has asked for stays asked for. -/
structure Bench.Grown (s s' : Bench) : Prop where
  asked : s.asked ⊆ s'.asked
  linked : s.session.linked ⊆ s'.session.linked
  origins : s.session.store.askedIn 0 ⊆ s'.session.store.askedIn 0
  size : s.session.store.registries.size ≤ s'.session.store.registries.size

namespace Bench.Grown

variable {s s' s₁ s₂ s₃ : Bench}

theorem refl (s : Bench) : s.Grown s :=
  ⟨List.Subset.refl _, List.Subset.refl _, List.Subset.refl _, Nat.le_refl _⟩

theorem trans (h : s₁.Grown s₂) (h' : s₂.Grown s₃) : s₁.Grown s₃ :=
  ⟨List.Subset.trans h.asked h'.asked, List.Subset.trans h.linked h'.linked,
    List.Subset.trans h.origins h'.origins, Nat.le_trans h.size h'.size⟩

theorem of_session {session : Session} (hlinked : s.session.linked ⊆ session.linked)
    (hstore : session.store = s.session.store) : s.Grown { s with session } :=
  ⟨List.Subset.refl _, hlinked, hstore ▸ List.Subset.refl _, hstore ▸ Nat.le_refl _⟩

end Bench.Grown

/-- A session that was used before, the numbers that the registries of a bundle have there, and what
the bundle may ask for: places, of which those that are read hold what they would hold without the
session, documents that were not compiled in it, and origins that the session knows as plain files,
if at all. -/
structure Reuse where
  number : RegistryId → RegistryId
  base : Bench
  /-- The fresh session gives no advisories. -/
  silent : Bool
  /-- What the bundle and all it compiles are made from, but for their entries. -/
  brief : Brief
  layout : Option Path
  reads : Set Place
  places : Set Place
  documents : Set Path
  origins : Set String
  root : brief.root.IsNormal
  declared : ∀ p ∈ brief.declare, placeOf (brief.root.resolve p) ∈ reads
  laid : ∀ p ∈ layout, placeOf (brief.root.resolve p) ∈ reads ∧
    placeOf ((brief.root.resolve p).join ⟨"index.html"⟩) ∈ reads
  linked : ∀ d ∈ documents, ∀ p ∈ (Entry.one d.text).files brief.mapping brief.root,
    placeOf p ∈ reads
  unfinished : ∀ d ∈ documents, d ∉ base.session.finished
  offered : ∀ o ∈ origins, ∀ a, base.session.store.entryAt? 0 (.ofOrigin o) = some a →
    a.source = ⟨o⟩ ∧ a.isMarked = false

namespace Reuse

/-- The used session `v` has come as far as the fresh one `u`. -/
structure Mirrors (x : Reuse) (u v : Bench) : Prop where
  store : Store.Mirrors x.number x.base.session.store u.session.store v.session.store
  inFlight : v.session.inFlight = u.session.inFlight
  finished : v.session.finished = u.session.finished ++ x.base.session.finished
  pages : v.session.pages = x.base.session.pages ++ u.session.pages
  printed : v.session.printed = x.base.session.printed ++ u.session.printed
  silent : u.session.silent = x.silent ∧ v.session.silent = x.base.session.silent
  trees : FileTree.Agree (x.reads ∪ u.session.pagePlaces) x.places u.tree v.tree

/-- The fresh session has asked for nothing else so far. -/
structure Within (x : Reuse) (u : Bench) : Prop where
  asked : ∀ p ∈ u.asked, placeOf p ∈ x.places
  linked : ∀ d ∈ u.session.linked, d ∈ x.documents
  origins : ∀ o ∈ u.session.store.askedIn 0, o ∈ x.origins

theorem Within.of_grown {x : Reuse} {u u' : Bench} (h : x.Within u') (hu : u.Grown u') : x.Within u :=
  ⟨fun p hp => h.asked p (hu.asked hp), fun d hd => h.linked d (hu.linked hd),
    fun o ho => h.origins o (hu.origins ho)⟩

/-- The same, with no place but is read. -/
def anywhere (x : Reuse) : Reuse := { x with
  reads := Set.univ
  declared := fun _ _ => trivial
  laid := fun _ _ => ⟨trivial, trivial⟩
  linked := fun _ _ _ _ => trivial }

/-- The document with the number of its registry in the used session. -/
def onDocument (x : Reuse) (d : Document) : Document := { d with registry := x.number d.registry }

def onBundle (x : Reuse) (b : Bundle) : Bundle :=
  { b with registry := x.number b.registry, documents := b.documents.map x.onDocument }

def onGenerated (x : Reuse) (g : Generated) : Generated := { g with registry := x.number g.registry }

/-- Both sessions went on, and are as far as each other again. No registry lost a slot. -/
structure Leads (x : Reuse) (u v u' v' : Bench) : Prop where
  mirrors : x.Mirrors u' v'
  fresh : u.session.store.Extends u'.session.store
  used : v.session.store.Extends v'.session.store

theorem Leads.refl {x : Reuse} {u v : Bench} (h : x.Mirrors u v) : x.Leads u v u v :=
  ⟨h, .refl _, .refl _⟩

theorem Leads.trans {x : Reuse} {u v u₁ v₁ u' v' : Bench} (h : x.Leads u v u₁ v₁)
    (h' : x.Leads u₁ v₁ u' v') : x.Leads u v u' v' :=
  ⟨h'.mirrors, h.fresh.trans h'.fresh, h.used.trans h'.used⟩

/-- A bundle that is made in the fresh session. Its registries are among the first `n`, and none is
the root. -/
structure Takes (x : Reuse) (n : Nat) (nested : Bool) (b : Bundle) : Prop where
  brief : ∃ input, b.brief = { x.brief with input }
  layout : b.output.layout = x.layout
  isNested : b.isNested = nested
  pos : 0 < b.registry
  lt : b.registry < n
  documents : ∀ d ∈ b.documents, 0 < d.registry ∧ d.registry < n

theorem Takes.mono {x : Reuse} {n m : Nat} {nested : Bool} {b : Bundle} (h : x.Takes n nested b)
    (hnm : n ≤ m) : x.Takes m nested b :=
  { h with
    lt := Nat.lt_of_lt_of_le h.lt hnm
    documents := fun d hd => ⟨(h.documents d hd).1, Nat.lt_of_lt_of_le (h.documents d hd).2 hnm⟩ }

end Reuse

/-- Both fail alike, or both come to results that are related. -/
inductive Answers (R : α → β → Prop) : Except Failure α → Except Failure β → Prop
  | ok {a b} (h : R a b) : Answers R (.ok a) (.ok b)
  | error (e : Failure) : Answers R (.error e) (.error e)

/-! Work on a session. -/

namespace Work

/-- From the fresh session `u`, the work does what it does from the used one. -/
def Follows (x : Reuse) (R : α → β → Prop) (w : Work α) (w' : Work β) (u v : Bench) : Prop :=
  x.Within (w.run.run u).2 → Answers R (w.run.run u).1 (w'.run.run v).1 ∧
    x.Leads u v (w.run.run u).2 (w'.run.run v).2

/-- `w` does in every fresh session with `n` registries what `w'` does in the used one. -/
structure Tracks (x : Reuse) (n : Nat) (R : α → β → Prop) (w : Work α) (w' : Work β) : Prop where
  grown : ∀ u : Bench, n ≤ u.session.store.registries.size → u.Grown (w.run.run u).2
  follows : ∀ u v : Bench, x.Mirrors u v → n ≤ u.session.store.registries.size →
    Follows x R w w' u v

variable {x : Reuse} {n : Nat} {R : α → β → Prop} {S : γ → δ → Prop} {w : Work α} {w' : Work β}
  {u v : Bench}

theorem tracks_pure {a : α} {b : β} (h : R a b) : Tracks x n R (pure a) (pure b) :=
  ⟨fun u _ => .refl u, fun _ _ hmirrors _ _ => ⟨.ok h, .refl hmirrors⟩⟩

theorem tracks_throw (e : Failure) : Tracks x n R (throw e) (throw e) :=
  ⟨fun u _ => .refl u, fun _ _ hmirrors _ _ => ⟨.error e, .refl hmirrors⟩⟩

theorem run_bind (w : Work α) (f : α → Work γ) (u : Bench) : (w >>= f).run.run u =
    (ExceptT.bindCont f (w.run.run u).1 : StateM Bench _).run (w.run.run u).2 := rfl

theorem grown_bind {f : α → Work γ} (hn : n ≤ (w.run.run u).2.session.store.registries.size)
    (hw : u.Grown (w.run.run u).2) (hf : ∀ a, (w.run.run u).1 = .ok a →
      ∀ u : Bench, n ≤ u.session.store.registries.size → u.Grown ((f a).run.run u).2) :
    u.Grown ((w >>= f).run.run u).2 := by
  rw [run_bind w f]
  generalize w.run.run u = ran at hn hw hf ⊢
  obtain ⟨r, u₁⟩ := ran
  cases r with
  | ok a => exact hw.trans (hf a rfl u₁ hn)
  | error e => exact hw

/-- Steps follow each other. -/
theorem Follows.bind {m : Nat} {f : α → Work γ} {f' : β → Work δ} (hw : Follows x R w w' u v)
    (hsize : m ≤ (w.run.run u).2.session.store.registries.size)
    (hserial : ∀ a, ∃ b, R a b)
    (hf : ∀ a b, (w.run.run u).1 = .ok a → R a b → Tracks x m S (f a) (f' b)) :
    Follows x S (w >>= f) (w' >>= f') u v := by
  unfold Follows at hw ⊢
  rw [run_bind w f, run_bind w' f']
  generalize w.run.run u = ran at hw hsize hf ⊢
  obtain ⟨r, u₁⟩ := ran
  intro hin
  cases r with
  | error e =>
    obtain ⟨hanswer, hleads⟩ := hw hin
    generalize w'.run.run v = ran' at hanswer hleads ⊢
    obtain ⟨r', v₁⟩ := ran'
    cases hanswer
    exact ⟨.error e, hleads⟩
  | ok a =>
    obtain ⟨b₀, hb₀⟩ := hserial a
    obtain ⟨hanswer, hleads⟩ := hw (hin.of_grown ((hf a b₀ rfl hb₀).grown u₁ hsize))
    generalize w'.run.run v = ran' at hanswer hleads ⊢
    obtain ⟨r', v₁⟩ := ran'
    cases hanswer with
    | ok hb =>
      obtain ⟨hanswer', hleads'⟩ := (hf a _ rfl hb).follows u₁ v₁ hleads.mirrors hsize hin
      exact ⟨hanswer', hleads.trans hleads'⟩

theorem Tracks.bind {f : α → Work γ} {f' : β → Work δ} (hw : Tracks x n R w w')
    (hserial : ∀ a, ∃ b, R a b) (hf : ∀ a b, R a b → Tracks x n S (f a) (f' b)) :
    Tracks x n S (w >>= f) (w' >>= f') where
  grown u hn := grown_bind (Nat.le_trans hn (hw.grown u hn).size) (hw.grown u hn) fun a _ =>
    have ⟨b, hb⟩ := hserial a
    (hf a b hb).grown
  follows u v h hn := (hw.follows u v h hn).bind (Nat.le_trans hn (hw.grown u hn).size) hserial
    fun a b _ => hf a b

theorem Tracks.andThen {w w' : Work α} {f : α → Work γ} {f' : α → Work δ} (hw : Tracks x n Eq w w')
    (hf : ∀ a, Tracks x n S (f a) (f' a)) : Tracks x n S (w >>= f) (w' >>= f') :=
  hw.bind (fun a => ⟨a, rfl⟩) fun a _ heq => heq ▸ hf a

theorem tracks_ofExcept {ε : Type} (wrap : ε → Failure) (r : Except ε α) :
    Tracks x n Eq (ofExcept wrap r) (ofExcept wrap r) := by
  cases r with
  | ok a => exact tracks_pure rfl
  | error e => exact tracks_throw (wrap e)

theorem tracks_modify {g g' : Bench → Bench} (hgrown : ∀ u : Bench, u.Grown (g u))
    (h : ∀ u v, x.Mirrors u v → n ≤ u.session.store.registries.size → x.Within (g u) →
      x.Leads u v (g u) (g' v)) : Tracks x n Eq (modify g) (modify g') :=
  ⟨fun u _ => hgrown u, fun u v hmirrors hn hin => ⟨.ok rfl, h u v hmirrors hn hin⟩⟩

/-- Work that looks at the session first. -/
theorem tracks_session {k : Session → Work α} {k' : Session → Work β}
    (hgrown : ∀ s (u : Bench), u.Grown ((k s).run.run u).2)
    (h : ∀ u v, x.Mirrors u v → Tracks x n R (k u.session) (k' v.session)) :
    Tracks x n R (session >>= k) (session >>= k') :=
  ⟨fun u _ => hgrown u.session u, fun u v hmirrors => (h u v hmirrors).follows u v hmirrors⟩

section Lists

variable {l : List α} {φ : α → β} {ψ : γ → δ}

theorem tracks_forM {f : α → Work Unit} {f' : β → Work Unit}
    (hf : ∀ a ∈ l, Tracks x n Eq (f a) (f' (φ a))) :
    Tracks x n Eq (l.forM f) ((l.map φ).forM f') := by
  induction l with
  | nil => exact tracks_pure rfl
  | cons a l ih =>
    rw [List.map_cons, List.forM_eq_forM, List.forM_eq_forM, List.forM_cons, List.forM_cons]
    exact (hf a List.mem_cons_self).andThen fun _ => ih fun a ha => hf a (List.mem_cons_of_mem _ ha)

theorem tracks_mapM {f : α → Work γ} {f' : β → Work δ}
    (hf : ∀ a ∈ l, Tracks x n (fun c d => d = ψ c) (f a) (f' (φ a))) :
    Tracks x n (fun cs ds => ds = cs.map ψ) (l.mapM f) ((l.map φ).mapM f') := by
  induction l with
  | nil => exact tracks_pure rfl
  | cons a l ih =>
    rw [List.map_cons, List.mapM_cons, List.mapM_cons]
    refine (hf a List.mem_cons_self).bind (fun c => ⟨_, rfl⟩) ?_
    rintro c _ rfl
    refine (ih fun a ha => hf a (List.mem_cons_of_mem _ ha)).bind (fun cs => ⟨_, rfl⟩) ?_
    rintro cs _ rfl
    exact tracks_pure rfl

end Lists

end Work

/-! Work on a bundle. -/

namespace Making

/-- From the fresh session `u`, the work does to a bundle what it does to it from the used one. -/
def Follows (x : Reuse) (R : α → β → Prop) (w : Making α) (w' : Making β) (b : Bundle) (u v : Bench) :
    Prop :=
  let ran := (w.run.run b).run u
  let ran' := (w'.run.run (x.onBundle b)).run v
  x.Within ran.2 → Answers R ran.1.1 ran'.1.1 ∧ ran'.1.2 = x.onBundle ran.1.2 ∧
    x.Leads u v ran.2 ran'.2

structure Tracks (x : Reuse) (n : Nat) (k : Bool) (R : α → β → Prop) (w : Making α) (w' : Making β) :
    Prop where
  grown : ∀ (b : Bundle) (u : Bench), x.Takes n k b → n ≤ u.session.store.registries.size →
    u.Grown ((w.run.run b).run u).2 ∧ x.Takes n k ((w.run.run b).run u).1.2
  follows : ∀ (b : Bundle) (u v : Bench), x.Takes n k b → x.Mirrors u v →
    n ≤ u.session.store.registries.size → Follows x R w w' b u v

variable {x : Reuse} {n : Nat} {k : Bool} {R : α → β → Prop} {S : γ → δ → Prop} {w : Making α} {w' : Making β}
  {b : Bundle} {u v : Bench}

theorem tracks_pure {a : α} {a' : β} (h : R a a') : Tracks x n k R (pure a) (pure a') :=
  ⟨fun _ u htakes _ => ⟨.refl u, htakes⟩,
    fun _ _ _ _ hmirrors _ _ => ⟨.ok h, rfl, .refl hmirrors⟩⟩

theorem tracks_throw (e : Failure) : Tracks x n k R (throw e) (throw e) :=
  ⟨fun _ u htakes _ => ⟨.refl u, htakes⟩,
    fun _ _ _ _ hmirrors _ _ => ⟨.error e, rfl, .refl hmirrors⟩⟩

theorem Follows.bind_of {f : α → Making γ} {f' : β → Making δ} (hw : Follows x R w w' b u v)
    (hgrown : ∀ a b₁ u₁, (w.run.run b).run u = ((.ok a, b₁), u₁) →
      u₁.Grown (((f a).run.run b₁).run u₁).2)
    (hf : ∀ a a' b₁ u₁ v₁, (w.run.run b).run u = ((.ok a, b₁), u₁) → R a a' → x.Leads u v u₁ v₁ →
      Follows x S (f a) (f' a') b₁ u₁ v₁) :
    Follows x S (w >>= f) (w' >>= f') b u v := by
  dsimp only [Follows] at hw ⊢
  rw [run_bind w f, run_bind w' f']
  generalize (w.run.run b).run u = ran at hw hgrown hf ⊢
  obtain ⟨⟨r, b₁⟩, u₁⟩ := ran
  intro hin
  cases r with
  | error e =>
    obtain ⟨hanswer, hbundle, hleads⟩ := hw hin
    generalize (w'.run.run (x.onBundle b)).run v = done at hanswer hbundle hleads ⊢
    obtain ⟨⟨r', b'⟩, v₁⟩ := done
    cases hanswer
    exact ⟨.error e, hbundle, hleads⟩
  | ok a =>
    obtain ⟨hanswer, hbundle, hleads⟩ := hw (hin.of_grown (hgrown a b₁ u₁ rfl))
    generalize (w'.run.run (x.onBundle b)).run v = done at hanswer hbundle hleads ⊢
    obtain ⟨⟨r', b'⟩, v₁⟩ := done
    obtain rfl : b' = x.onBundle b₁ := hbundle
    cases hanswer with
    | ok ha =>
      obtain ⟨hanswer', hbundle', hleads'⟩ := hf a _ b₁ u₁ v₁ rfl ha hleads hin
      exact ⟨hanswer', hbundle', hleads.trans hleads'⟩

theorem Follows.bind {f : α → Making γ} {f' : β → Making δ} (hw : Follows x R w w' b u v)
    (htakes : x.Takes n k ((w.run.run b).run u).1.2)
    (hsize : n ≤ ((w.run.run b).run u).2.session.store.registries.size)
    (hserial : ∀ a, ∃ b, R a b)
    (hf : ∀ a a', ((w.run.run b).run u).1.1 = .ok a → R a a' → Tracks x n k S (f a) (f' a')) :
    Follows x S (w >>= f) (w' >>= f') b u v := by
  refine hw.bind_of (fun a b₁ u₁ hrun => ?_) fun a a' b₁ u₁ v₁ hrun ha hleads => ?_
  · obtain ⟨a', ha'⟩ := hserial a
    rw [hrun] at htakes hsize hf
    exact ((hf a a' rfl ha').grown b₁ u₁ htakes hsize).1
  · rw [hrun] at htakes hsize hf
    exact (hf a a' rfl ha).follows b₁ u₁ v₁ htakes hleads.mirrors hsize

theorem grown_bind {f : α → Making γ} (hn : n ≤ u.session.store.registries.size)
    (hw : u.Grown ((w.run.run b).run u).2 ∧ x.Takes n k ((w.run.run b).run u).1.2)
    (hf : ∀ a, ((w.run.run b).run u).1.1 = .ok a → ∀ (b : Bundle) (u : Bench), x.Takes n k b →
      n ≤ u.session.store.registries.size → u.Grown (((f a).run.run b).run u).2 ∧ x.Takes n k (((f a).run.run b).run u).1.2) :
    u.Grown (((w >>= f).run.run b).run u).2 ∧ x.Takes n k (((w >>= f).run.run b).run u).1.2 := by
  rw [run_bind w f]
  generalize (w.run.run b).run u = ran at hw hf ⊢
  obtain ⟨⟨r, b₁⟩, u₁⟩ := ran
  cases r with
  | ok a =>
    obtain ⟨hgrown, htakes⟩ := hf a rfl b₁ u₁ hw.2 (Nat.le_trans hn hw.1.size)
    exact ⟨hw.1.trans hgrown, htakes⟩
  | error e => exact hw

/-- Steps follow each other. Of a result of the first one may know more than how it is related. -/
theorem Tracks.bind_of {P : α → Prop} {f : α → Making γ} {f' : β → Making δ}
    (hw : Tracks x n k R w w') (hserial : ∀ a, ∃ b, R a b)
    (hP : ∀ b u a, x.Takes n k b → n ≤ u.session.store.registries.size →
      ((w.run.run b).run u).1.1 = .ok a → P a)
    (hf : ∀ a a', P a → R a a' → Tracks x n k S (f a) (f' a')) :
    Tracks x n k S (w >>= f) (w' >>= f') where
  grown b u htakes hn := grown_bind hn (hw.grown b u htakes hn) fun a ha =>
    have ⟨a', ha'⟩ := hserial a
    (hf a a' (hP b u a htakes hn ha) ha').grown
  follows b u v htakes h hn :=
    have ⟨hgrown, htakes'⟩ := hw.grown b u htakes hn
    (hw.follows b u v htakes h hn).bind htakes' (Nat.le_trans hn hgrown.size) hserial
      fun a a' ha hrelated => hf a a' (hP b u a htakes hn ha) hrelated

theorem Tracks.bind {f : α → Making γ} {f' : β → Making δ} (hw : Tracks x n k R w w')
    (hserial : ∀ a, ∃ b, R a b) (hf : ∀ a a', R a a' → Tracks x n k S (f a) (f' a')) :
    Tracks x n k S (w >>= f) (w' >>= f') :=
  hw.bind_of (P := fun _ => True) hserial (fun _ _ _ _ _ _ => trivial) fun a a' _ => hf a a'

theorem Tracks.andThen {w w' : Making α} {f : α → Making γ} {f' : α → Making δ}
    (hw : Tracks x n k Eq w w') (hf : ∀ a, Tracks x n k S (f a) (f' a)) :
    Tracks x n k S (w >>= f) (w' >>= f') :=
  hw.bind (fun a => ⟨a, rfl⟩) fun a _ heq => heq ▸ hf a

theorem tracks_lift {w : Work α} {w' : Work β} (h : Work.Tracks x n R w w') :
    Tracks x n k R (liftM w) (liftM w') :=
  ⟨fun _ u htakes hn => ⟨h.grown u hn, htakes⟩,
    fun _ u v _ hmirrors hn hin =>
      have ⟨hanswer, hleads⟩ := h.follows u v hmirrors hn hin
      ⟨hanswer, rfl, hleads⟩⟩

/-- Work that looks at the bundle first. -/
theorem tracks_bundle {f : Bundle → Making α} {f' : Bundle → Making β}
    (h : ∀ b, x.Takes n k b → Tracks x n k R (f b) (f' (x.onBundle b))) :
    Tracks x n k R (bundle >>= f) (bundle >>= f') :=
  ⟨fun b u htakes => (h b htakes).grown b u htakes,
    fun b u v htakes => (h b htakes).follows b u v htakes⟩

theorem tracks_modifyBundle {g g' : Bundle → Bundle}
    (h : ∀ b, x.Takes n k b → x.Takes n k (g b) ∧ g' (x.onBundle b) = x.onBundle (g b)) :
    Tracks x n k Eq (modifyBundle g) (modifyBundle g') :=
  ⟨fun b u htakes _ => ⟨.refl u, (h b htakes).1⟩,
    fun b _ _ htakes hmirrors _ _ => ⟨.ok rfl, (h b htakes).2, .refl hmirrors⟩⟩

theorem tracks_forM {l : List α} {φ : α → β} {f : α → Making Unit} {f' : β → Making Unit}
    (hf : ∀ a ∈ l, Tracks x n k Eq (f a) (f' (φ a))) :
    Tracks x n k Eq (l.forM f) ((l.map φ).forM f') := by
  induction l with
  | nil => exact tracks_pure rfl
  | cons a l ih =>
    rw [List.map_cons, List.forM_eq_forM, List.forM_eq_forM, List.forM_cons, List.forM_cons]
    exact (hf a List.mem_cons_self).andThen fun _ => ih fun a ha => hf a (List.mem_cons_of_mem _ ha)

/-- The last step decides on the result. -/
theorem Tracks.ok_of_bind {P : γ → Prop} {f : α → Making γ} (hw : Tracks x n k R w w')
    (hf : ∀ a b u c, x.Takes n k b → n ≤ u.session.store.registries.size →
      (((f a).run.run b).run u).1.1 = .ok c → P c) {c : γ} (hb : x.Takes n k b)
    (hn : n ≤ u.session.store.registries.size) (hrun : (((w >>= f).run.run b).run u).1.1 = .ok c) :
    P c := by
  obtain ⟨hgrown, htakes⟩ := hw.grown b u hb hn
  have hsize := Nat.le_trans hn hgrown.size
  rw [run_bind w f] at hrun
  generalize (w.run.run b).run u = ran at htakes hsize hrun
  obtain ⟨⟨r, b₁⟩, u₁⟩ := ran
  cases r with
  | ok a => exact hf a b₁ u₁ c htakes hsize hrun
  | error e => cases hrun

end Making

/-- A bundle is worked on by itself. -/
theorem Work.tracks_within {x : Reuse} {n : Nat} {k : Bool} {R : α → β → Prop} {w : Making α} {w' : Making β}
    (h : Making.Tracks x n k R w w') {b : Bundle} (hb : x.Takes n k b) :
    Tracks x n R (Making.within b w) (Making.within (x.onBundle b) w') where
  grown u hn := (h.grown b u hb hn).1
  follows u v hmirrors hn hin :=
    have ⟨hanswer, _, hleads⟩ := h.follows b u v hb hmirrors hn hin
    ⟨hanswer, hleads⟩

end Bindery
