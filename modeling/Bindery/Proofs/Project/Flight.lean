import Bindery.Proofs.Project.Depth
import Bindery.Proofs.Project.Exits

/-! Which documents are on their way after the first pass over a bundle. A pass that comes to an end
has laid down whatever it took up. A pass that fails stays where it is: the document it was in, and
the documents it had come through to a link of that one, are on their way for the rest of the
session, and no bundle with one of them is compiled again. -/

namespace Bindery

variable {α β : Type}

/-! Work that takes no document up and lays none down, however it ends. -/

namespace Work

def Idle (w : Work α) : Prop :=
  ∀ s, w.Exits s (fun _ s' => s'.session.inFlight = s.session.inFlight)
    fun _ s' => s'.session.inFlight = s.session.inFlight

variable {w : Work α} {f : α → Work β}

theorem idle_pure (a : α) : (pure a : Work α).Idle := fun _ => rfl

theorem idle_throw (e : Failure) : (throw e : Work α).Idle := fun _ => rfl

theorem idle_get : (get : Work Bench).Idle := fun _ => rfl

theorem idle_session : session.Idle := fun _ => rfl

theorem idle_modify {f : Bench → Bench}
    (hf : ∀ s, (f s).session.inFlight = s.session.inFlight) : (modify f : Work Unit).Idle := hf

theorem Idle.bind (hw : w.Idle) (hf : ∀ a, (f a).Idle) : (w >>= f).Idle := by
  intro s
  rw [exits_bind]
  refine (hw s).mono (fun a s₁ h₁ => ?_) fun _ _ h => h
  exact (hf a s₁).mono (fun _ _ h => h.trans h₁) fun _ _ h => h.trans h₁

theorem idle_forM {f : α → Work Unit} (hf : ∀ a, (f a).Idle) (l : List α) :
    (l.forM f).Idle := by
  induction l with
  | nil => exact idle_pure ()
  | cons a l ih =>
    rw [List.forM_eq_forM, List.forM_cons]
    exact (hf a).bind fun _ => ih

theorem idle_mapM (hf : ∀ a, (f a).Idle) (l : List α) : (l.mapM f).Idle := by
  induction l with
  | nil => exact idle_pure []
  | cons a l ih =>
    rw [List.mapM_cons]
    exact (hf a).bind fun _ => ih.bind fun _ => idle_pure _

theorem idle_filterMapM {f : α → Work (Option β)} (hf : ∀ a, (f a).Idle) (l : List α) :
    (l.filterMapM f).Idle := by
  induction l with
  | nil => exact idle_pure []
  | cons a l ih =>
    rw [List.filterMapM_cons]
    refine (hf a).bind fun r => ?_
    cases r with
    | none => exact ih
    | some c => exact ih.bind fun _ => idle_pure _

theorem idle_ofExcept {ε : Type} (wrap : ε → Failure) (r : Except ε α) :
    (ofExcept wrap r).Idle := by
  cases r with
  | ok a => exact idle_pure a
  | error e => exact idle_throw (wrap e)

theorem idle_modifySession {f : Session → Session} (hf : ∀ s, (f s).inFlight = s.inFlight) :
    (modifySession f).Idle :=
  fun s => hf s.session

theorem idle_modifyStore (f : Store → Store) : (modifyStore f).Idle := fun _ => rfl

theorem idle_ask (paths : List Path) : (ask paths).Idle := fun _ => rfl

theorem idle_put (e : Event) : (put e).Idle := fun _ => rfl

theorem idle_log (level : Level) (line : String) : (log level line).Idle := fun _ => rfl

theorem idle_record (page : WrittenPage) : (record page).Idle := fun _ => rfl

theorem idle_noteLinked (source : Path) : (noteLinked source).Idle := fun _ => rfl

theorem idle_read (path : Path) : (read path).Idle := by
  unfold read
  exact (idle_ask _).bind fun _ => idle_get.bind fun _ => idle_ofExcept _ _

theorem idle_write (path : Path) (text : String) : (write path text).Idle := by
  unfold write
  refine (idle_ask _).bind fun _ => idle_get.bind fun _ => ?_
  exact (idle_ofExcept _ _).bind fun _ => idle_modify fun _ => rfl

theorem idle_register (f : Store → α × Store) : (register f).Idle := by
  unfold register
  refine idle_session.bind fun _ => idle_session.bind fun _ => (idle_modifyStore _).bind fun _ => ?_
  refine idle_session.bind fun _ => .bind ?_ fun _ => idle_pure _
  exact idle_forM (fun _ => idle_log _ _) _

theorem idle_runPlugins (h : Plugin.Hook α) (plugins : List Plugin) (value : α)
    (options : Markdown.Options) : (runPlugins h plugins value options).Idle := by
  unfold runPlugins
  exact .bind (idle_modifySession fun _ => rfl) fun _ => idle_pure _

end Work

open Work

theorem Document.idle_read (declaration : Option Path) (plugins : List Plugin)
    (options : Markdown.Options) (d : Document) : (d.read declaration plugins options).Idle := by
  unfold Document.read
  refine (Work.idle_read _).bind fun body => ?_
  cases declaration with
  | none =>
    dsimp only
    refine .bind (idle_pure _) fun extra => .bind (idle_runPlugins _ _ _ _) fun ran => ?_
    exact (idle_ofExcept _ _).bind fun _ => (idle_log _ _).bind fun _ => idle_pure _
  | some path =>
    dsimp only
    refine .bind (Work.idle_read _) fun extra => .bind (idle_runPlugins _ _ _ _) fun ran => ?_
    exact (idle_ofExcept _ _).bind fun _ => (idle_log _ _).bind fun _ => idle_pure _

theorem Document.idle_render (d : Document) : d.render.Idle := by
  unfold Document.render
  exact (idle_register _).bind fun _ => (idle_ofExcept _ _).bind fun _ => idle_pure _

namespace Layout

theorem idle_load (layout : Option Path) (root : Path) : (load layout root).Idle := by
  intro s
  unfold load
  cases layout with
  | none => exact rfl
  | some layout =>
    simp only [exits_bind, exits_get, exits_ask]
    generalize placeOf s.tree (root.resolve layout) = place
    obtain ⟨dir, file⟩ := place
    split
    · exact exits_bind.2 ((idle_read file _).mono (fun _ _ h => h) fun _ _ h => h)
    · exact exits_bind.2 (idle_log _ _ _)

theorem idle_render (l : Layout) (content : String) (headings : List Heading)
    (data : Json.Fields) (r : RegistryId) (root : Path) :
    (l.render content headings data r root).Idle := by
  unfold render
  exact (idle_register _).bind fun _ => (idle_ofExcept _ _).bind fun _ => idle_pure _

end Layout

namespace Bundle

theorem idle_make (brief : Brief) (output : Output) (master : RegistryId)
    (target : Option Path) : (make brief output master target).Idle := by
  unfold make
  refine .bind (idle_session.bind fun _ => (idle_modifyStore _).bind fun _ => idle_pure _)
    fun registry => ?_
  refine .bind (idle_mapM (fun source => ?_) _) fun _ => ?_
  · exact .bind (idle_session.bind fun _ => (idle_modifyStore _).bind fun _ => idle_pure _)
      fun _ => idle_pure _
  · exact (idle_mapM (fun d => d.idle_read _ _ _) _).bind fun _ => idle_pure _

theorem idle_markLink (plan : Relocation) (current : Path) (cell : CellId) :
    (markLink? plan current cell).Idle := by
  unfold markLink?
  refine idle_session.bind fun s => ?_
  split
  · exact idle_pure _
  · split
    · exact idle_pure _
    · refine (idle_modifyStore _).bind fun _ => ?_
      split
      · exact idle_pure _
      · exact idle_pure _

theorem idle_advise (root : Path) (r : AssetReport) : (advise root r).Idle := by
  unfold advise
  refine idle_session.bind fun s => ?_
  split
  · exact idle_pure _
  · exact (idle_log _ _).bind fun _ => idle_pure _

theorem idle_materialize (r : RegistryId) : (materialize r).Idle := by
  unfold materialize
  refine idle_get.bind fun s => (idle_ask _).bind fun _ => ?_
  split
  exact .bind (idle_modify fun _ => rfl) fun _ => idle_pure _

theorem idle_settle (g : Generated) : (settle g).Idle := by
  unfold settle
  refine idle_session.bind fun s => (idle_modifyStore _).bind fun _ => ?_
  exact (idle_forM (fun _ => idle_log _ _) _).bind fun _ => idle_pure _

theorem idle_emit (b : Bundle) (g : Generated) : (emit b g).Idle := by
  unfold emit
  refine (idle_settle g).bind fun pass => ?_
  split
  · exact (idle_put _).bind fun _ => idle_pure _
  · refine (idle_write _ _).bind fun _ => (idle_record _).bind fun _ => ?_
    refine (idle_filterMapM (idle_advise _) _).bind fun lines => ?_
    split
    · exact (idle_pure _).bind fun _ => (idle_filterMapM (idle_advise _) _).bind fun _ =>
        idle_pure _
    · exact idle_session.bind fun _ => (idle_materialize _).bind fun _ =>
        (idle_filterMapM (idle_advise _) _).bind fun _ => idle_pure _

end Bundle

/-! Work on a bundle, nested bundles included. -/

theorem Work.exits_of_run {w : Work α} {s s' : Bench} {a : α} {Q : α → Bench → Prop}
    {E : Failure → Bench → Prop} (hrun : w.run.run s = (.ok a, s')) : w.Exits s Q E ↔ Q a s' := by
  unfold Exits
  rw [hrun]

theorem Work.exits_enter_iff {d : Path} {s : Bench} {Q : Unit → Bench → Prop}
    {E : Failure → Bench → Prop} : (enter d).Exits s Q E ↔
      if d ∈ s.session.inFlight then E (.cycle d) s
      else Q () { s with session := { s.session with inFlight := d :: s.session.inFlight } } := by
  unfold enter
  rw [exits_bind, exits_session]
  by_cases h : d ∈ s.session.inFlight
  · rw [if_pos h, if_pos (List.contains_iff_mem.2 h)]
    exact Iff.rfl
  · rw [if_neg h, if_neg (mt List.contains_iff_mem.1 h)]
    exact Iff.rfl

namespace Making

/-- Work that has laid down what it took up when it ends in an answer. After a failure, what was on
its way before still is. -/
def Lands (w : Making α) : Prop :=
  ∀ b s, w.Exits b s (fun _ _ s' => s'.session.inFlight = s.session.inFlight)
    fun _ _ s' => s.session.inFlight <:+ s'.session.inFlight

variable {w : Making α} {f : α → Making β}

theorem lands_pure (a : α) : (pure a : Making α).Lands := fun _ _ => rfl

theorem lands_bundle : bundle.Lands := fun _ _ => rfl

theorem lands_modifyBundle (f : Bundle → Bundle) : (modifyBundle f).Lands := fun _ _ => rfl

theorem lands_lift {w : Work α} (hw : w.Idle) : (liftM w : Making α).Lands := by
  intro b s
  rw [exits_lift]
  exact (hw s).mono (fun _ _ h => h) fun _ _ h => h ▸ List.suffix_refl _

theorem Lands.within (hw : w.Lands) (b : Bundle) : (liftM (within b w) : Making α).Lands := by
  intro b₀ s
  rw [exits_lift, exits_within]
  exact (hw b s).mono (fun _ _ _ h => h) fun _ _ _ h => h

theorem Lands.bind (hw : w.Lands) (hf : ∀ a, (f a).Lands) : (w >>= f).Lands := by
  intro b s
  rw [exits_bind]
  refine (hw b s).mono (fun a b₁ s₁ h₁ => ?_) fun _ _ _ h => h
  exact (hf a b₁ s₁).mono (fun _ _ _ h => h.trans h₁) fun _ _ _ h => h₁ ▸ h

theorem lands_forM {f : α → Making Unit} (hf : ∀ a, (f a).Lands) (l : List α) :
    (l.forM f).Lands := by
  induction l with
  | nil => exact lands_pure ()
  | cons a l ih =>
    rw [List.forM_eq_forM, List.forM_cons]
    exact (hf a).bind fun _ => ih

end Making

namespace Bundle

open Making

variable {inner : Making Generated} {plan : Relocation} {b b' : Bundle} {s s' : Bench}

theorem lands_transform (i : Nat) (d : Document) : (transform i d).Lands := by
  unfold transform
  refine (lands_lift d.idle_render).bind fun rendered => (lands_modifyBundle _).bind fun _ => ?_
  refine lands_bundle.bind fun b => (lands_lift (idle_runPlugins _ _ _ _)).bind fun ran => ?_
  refine (lands_modifyBundle _).bind fun _ => (lands_lift (idle_ofExcept _ _)).bind fun _ => ?_
  refine (lands_modifyBundle _).bind fun _ => (lands_lift idle_session).bind fun _ => ?_
  exact lands_lift (idle_log _ _)

theorem lands_wrap (i : Nat) : (wrap i).Lands := by
  unfold wrap
  refine lands_bundle.bind fun b => ?_
  split
  · exact lands_pure ()
  · exact (lands_modifyBundle _).bind fun _ => lands_modifyBundle _

theorem lands_follow (hinner : inner.Lands) (link : Link) : (follow inner link).Lands := by
  unfold follow
  refine (lands_lift idle_session).bind fun session => ?_
  split
  · exact lands_pure ()
  · refine (lands_lift (idle_log _ _)).bind fun _ => (lands_lift (idle_noteLinked _)).bind fun _ => ?_
    refine lands_bundle.bind fun b => (lands_lift (idle_make _ _ _ _)).bind fun nested => ?_
    have hnested := hinner.bind fun g => lands_bundle.bind fun b => lands_lift (idle_emit b g)
    exact (hnested.within nested).bind fun _ => lands_pure ()

theorem lands_followAll (hinner : inner.Lands) (plan : Relocation) (d : Document) :
    (followAll inner plan d).Lands := by
  unfold followAll
  refine (lands_lift idle_session).bind fun _ => lands_forM (fun slot => ?_) _
  unfold followCell
  refine (lands_lift (idle_markLink _ _ _)).bind fun link => ?_
  cases link with
  | none => exact lands_pure ()
  | some link => exact lands_follow hinner link

/-- A document that is on its way already is refused. One that was taken up stays on its way when
its pass fails. -/
theorem exits_pass (hinner : inner.Lands) (plan : Relocation) (i : Nat) (d : Document) :
    (pass inner plan i d).Exits b s
      (fun _ _ s' => d.source ∉ s.session.inFlight ∧ s'.session.inFlight = s.session.inFlight)
      fun e _ s' => if d.source ∈ s.session.inFlight then e = .cycle d.source ∧ s' = s
        else d.source :: s.session.inFlight <:+ s'.session.inFlight := by
  have hbody : (do transform i d; wrap i; followAll inner plan d : Making Unit).Lands :=
    (lands_transform i d).bind fun _ => (lands_wrap i).bind fun _ => lands_followAll hinner plan d
  unfold pass
  rw [Making.exits_bind, Making.exits_lift, Work.exits_enter_iff]
  split
  · exact ⟨rfl, rfl⟩
  · next hnew =>
    have hopen := hbody b { s with session := { s.session with
      inFlight := d.source :: s.session.inFlight } }
    simp only [Making.exits_bind] at hopen ⊢
    refine hopen.mono (fun _ b₁ s₁ h₁ => ?_) fun _ _ _ h => h
    refine h₁.mono (fun _ b₂ s₂ h₂ => ?_) fun _ _ _ h => h
    refine h₂.mono (fun _ b₃ s₃ h₃ => ?_) fun _ _ _ h => h
    rw [Making.exits_lift]
    refine ⟨hnew, ?_⟩
    change (s₃.session.inFlight.erase d.source) = s.session.inFlight
    rw [h₃, List.erase_cons_head]

/-! Where the first pass over documents breaks off. -/

/-- The first pass over several documents. -/
def passes (inner : Making Generated) (plan : Relocation) (docs : List (Document × Nat)) :
    Making Unit :=
  docs.forM fun (d, i) => pass inner plan i d

/-- The pass comes through the documents before `d`, takes `d` up, and fails before it lays `d`
down. -/
def Breaks (inner : Making Generated) (plan : Relocation) (docs : List (Document × Nat))
    (b : Bundle) (s : Bench) (d : Document) : Prop :=
  ∃ front i back b₁ s₁, docs = front ++ (d, i) :: back ∧
    ((passes inner plan front).run.run b).run s = ((.ok (), b₁), s₁) ∧
    d.source ∉ s₁.session.inFlight ∧
    ∃ e, (((pass inner plan i d).run.run b₁).run s₁).1.1 = .error e

variable {docs : List (Document × Nat)} {d : Document} {i : Nat} {b₁ : Bundle} {s₁ : Bench}

theorem run_passes_cons (hrun : ((pass inner plan i d).run.run b).run s = ((.ok (), b₁), s₁)) :
    ((passes inner plan ((d, i) :: docs)).run.run b).run s =
      ((passes inner plan docs).run.run b₁).run s₁ := by
  unfold passes
  rw [List.forM_eq_forM, List.forM_cons, run_bind, hrun]
  rfl

theorem run_passes_cons_error {e : Failure}
    (hrun : ((pass inner plan i d).run.run b).run s = ((.error e, b₁), s₁)) :
    ((passes inner plan ((d, i) :: docs)).run.run b).run s = ((.error e, b₁), s₁) := by
  unfold passes
  rw [List.forM_eq_forM, List.forM_cons, run_bind, hrun]
  rfl

theorem run_passes_append {front : List (Document × Nat)}
    (hrun : ((passes inner plan front).run.run b).run s = ((.ok (), b₁), s₁)) :
    ((passes inner plan (front ++ docs)).run.run b).run s =
      ((passes inner plan docs).run.run b₁).run s₁ := by
  unfold passes at hrun ⊢
  rw [List.forM_eq_forM] at hrun ⊢
  rw [List.forM_append, run_bind, hrun]
  rfl

theorem Breaks.cons (hrun : ((pass inner plan i d).run.run b).run s = ((.ok (), b₁), s₁))
    {d' : Document} (h : Breaks inner plan docs b₁ s₁ d') :
    Breaks inner plan ((d, i) :: docs) b s d' := by
  obtain ⟨front, j, back, b₂, s₂, rfl, hfront, hfails⟩ := h
  exact ⟨(d, i) :: front, j, back, b₂, s₂, rfl, (run_passes_cons hrun).trans hfront, hfails⟩

/-- Documents are laid down one after the other. Only a document in the middle of its own pass is
left on its way. -/
theorem exits_passes (hinner : inner.Lands) : (passes inner plan docs).Exits b s
    (fun _ _ s' => s'.session.inFlight = s.session.inFlight ∧
      ∀ x ∈ docs, x.1.source ∉ s.session.inFlight)
    fun _ _ s' => s'.session.inFlight = s.session.inFlight ∨
      ∃ d, Breaks inner plan docs b s d ∧ d.source :: s.session.inFlight <:+ s'.session.inFlight := by
  induction docs generalizing b s with
  | nil => exact ⟨rfl, fun x hx => absurd hx List.not_mem_nil⟩
  | cons x docs ih =>
    obtain ⟨d, i⟩ := x
    have hpass : (pass inner plan i d).Exits b s _ _ := exits_pass hinner plan i d
    rcases hrun : ((pass inner plan i d).run.run b).run s with ⟨⟨r, b₁⟩, s₁⟩
    unfold Making.Exits
    cases r with
    | error e =>
      have hleft := hpass.error hrun
      rw [run_passes_cons_error hrun]
      split at hleft
      · exact .inl (hleft.2 ▸ rfl)
      · next hnew =>
        exact .inr ⟨d, ⟨[], i, docs, b, s, rfl, rfl, hnew, e, by rw [hrun]⟩, hleft⟩
    | ok a =>
      obtain ⟨hnew, hlaid⟩ := hpass.ok hrun
      have hrest := ih (b := b₁) (s := s₁)
      unfold Making.Exits at hrest
      rw [run_passes_cons hrun]
      rw [hlaid] at hrest
      split at hrest
      · exact ⟨hrest.1, List.forall_mem_cons.2 ⟨hnew, hrest.2⟩⟩
      · rcases hrest with hsame | ⟨d', hbreaks, hleft⟩
        · exact .inl hsame
        · exact .inr ⟨d', hbreaks.cons hrun, hleft⟩

/-- Where the pass breaks off, it has failed and left the document on its way. -/
theorem Breaks.exits_passes (hinner : inner.Lands) (h : Breaks inner plan docs b s d) :
    (passes inner plan docs).Exits b s (fun _ _ _ => False)
      fun _ _ s' => d.source :: s.session.inFlight <:+ s'.session.inFlight := by
  obtain ⟨front, i, back, b₁, s₁, rfl, hfront, hnew, e, hfails⟩ := h
  have hsame := ((Bundle.exits_passes hinner).ok hfront).1
  have hpass : (pass inner plan i d).Exits b₁ s₁ _ _ := exits_pass hinner plan i d
  rcases hrun : ((pass inner plan i d).run.run b₁).run s₁ with ⟨⟨r, b₂⟩, s₂⟩
  rw [hrun] at hfails
  obtain rfl : r = .error e := hfails
  have hleft := hpass.error hrun
  rw [if_neg hnew, hsame] at hleft
  unfold Making.Exits
  rw [run_passes_append hfront, run_passes_cons_error hrun]
  exact hleft

/-- The first pass over a bundle, with linked documents compiled by `inner`, breaks off in the
middle of a document. -/
def BreaksWithin (inner : Making Generated) (b : Bundle) (s : Bench) (d : Document) : Prop :=
  ∃ page s₀, (Layout.load b.output.layout b.brief.root).run.run s = (.ok page, s₀) ∧
    Breaks inner ⟨b.brief.root, b.output.distDir b.brief.root, page.dir, b.outfile⟩
      b.documents.zipIdx b s₀ d

theorem exits_setPage (hinner : inner.Lands) : (setPage inner).Exits b s
    (fun _ _ s' => s'.session.inFlight = s.session.inFlight ∧
      ∀ d ∈ b.documents, d.source ∉ s.session.inFlight)
    fun _ _ s' => s'.session.inFlight = s.session.inFlight ∨
      ∃ d, BreaksWithin inner b s d ∧ d.source :: s.session.inFlight <:+ s'.session.inFlight := by
  unfold setPage
  simp only [Making.exits_bind, Making.exits_bundle, Making.exits_lift, Making.exits_pure]
  refine ((Layout.idle_load _ _ s).of_run).mono (fun page s₁ h₁ => ?_) fun _ _ h => .inl h
  obtain ⟨hload, hsame₁⟩ := h₁
  refine (exits_passes hinner).mono (fun _ b₂ s₂ h₂ => ?_) fun _ _ s₂ h₂ => ?_
  · obtain ⟨hsame₂, hall⟩ := h₂
    have hsame := hsame₂.trans hsame₁
    refine (Layout.idle_render _ _ _ _ _ _ s₂).mono (fun _ s₃ h₃ => ⟨h₃.trans hsame, ?_⟩)
      fun _ s₃ h₃ => .inl (h₃.trans hsame)
    intro d hd
    obtain ⟨i, hi⟩ := List.getElem?_of_mem hd
    exact hsame₁ ▸ hall (d, i) (List.mem_zipIdx_iff_getElem?.2 hi)
  · rw [hsame₁] at h₂
    rcases h₂ with hsame | ⟨d, hbreaks, hleft⟩
    · exact .inl hsame
    · exact .inr ⟨d, ⟨page, s₁, hload, hbreaks⟩, hleft⟩

theorem lands_generateWithin (depth : Nat) : (generateWithin depth).Lands := by
  induction depth with
  | zero => exact fun _ _ => List.suffix_refl _
  | succ depth ih =>
    intro b s
    refine (exits_setPage ih).mono (fun _ _ _ h => h.1) fun _ _ s' h => ?_
    rcases h with hsame | ⟨d, -, hleft⟩
    · exact hsame ▸ List.suffix_refl _
    · exact (List.suffix_cons _ _).trans hleft

theorem BreaksWithin.exits_setPage (hinner : inner.Lands) (h : BreaksWithin inner b s d) :
    (setPage inner).Exits b s (fun _ _ _ => False)
      fun _ _ s' => d.source :: s.session.inFlight <:+ s'.session.inFlight := by
  obtain ⟨page, s₀, hload, hbreaks⟩ := h
  have hsame := (Layout.idle_load b.output.layout b.brief.root s).ok hload
  unfold setPage
  simp only [Making.exits_bind, Making.exits_bundle, Making.exits_lift]
  rw [Work.exits_of_run hload]
  refine (hbreaks.exits_passes hinner).mono (fun _ _ _ h => h.elim) fun _ _ _ h => ?_
  exact hsame ▸ h

/-- A bundle whose first document is on its way gets no further than its layout. -/
theorem exits_setPage_of_inFlight {rest : List Document} {page : Layout} {s₀ : Bench}
    (hdocs : b.documents = d :: rest) (hd : d.source ∈ s.session.inFlight)
    (hload : (Layout.load b.output.layout b.brief.root).run.run s = (.ok page, s₀)) :
    (setPage inner).Exits b s (fun _ _ _ => False)
      fun e _ s' => e = .cycle d.source ∧ s'.session.inFlight = s.session.inFlight := by
  have hsame : s₀.session.inFlight = s.session.inFlight := (Layout.idle_load _ _ s).ok hload
  unfold setPage
  simp only [Making.exits_bind, Making.exits_bundle, Making.exits_lift]
  rw [Work.exits_of_run hload, hdocs, List.zipIdx_cons, List.forM_eq_forM, List.forM_cons,
    Making.exits_bind]
  unfold pass
  rw [Making.exits_bind, Making.exits_lift, Work.exits_enter_iff, if_pos (hsame ▸ hd)]
  exact ⟨rfl, hsame⟩

/-- The first pass over the bundle takes the document up, and fails before it lays it down. -/
def BreaksOff (b : Bundle) (s : Bench) (d : Document) : Prop :=
  BreaksWithin (generateWithin (s.depth b.brief.mapping - 1)) b s d

theorem run_generate_eq_setPage (b : Bundle) (s : Bench) : (generate.run.run b).run s =
    ((setPage (generateWithin (s.depth b.brief.mapping - 1))).run.run b).run s :=
  run_generate b s

theorem inFlight_write (b : Bundle) (s : Bench) :
    ((write.run.run b).run s).2.session.inFlight =
      ((generate.run.run b).run s).2.session.inFlight := by
  unfold write
  rw [run_bind]
  rcases (generate.run.run b).run s with ⟨⟨r, b'⟩, s'⟩
  cases r with
  | error e => rfl
  | ok g => exact (idle_emit b' g s').any (P := fun s'' => s''.session.inFlight = _) rfl

/-- The documents on their way are those from before the first pass, unless the pass failed in the
middle of a document of the bundle; that document is on its way from then on. No bundle with a
document that is on its way gets a page, and one that begins with it fails with a circle, whatever
the texts are by then. Writing the page changes none of this. -/
theorem inFlight_generate_iff {r : Except Failure Generated}
    (hrun : (generate.run.run b).run s = ((r, b'), s')) :
    (s'.session.inFlight = s.session.inFlight ↔ ∀ d, ¬ b.BreaksOff s d) ∧
    (∀ d, b.BreaksOff s d → (∃ e, r = .error e) ∧
      d.source :: s.session.inFlight <:+ s'.session.inFlight) ∧
    (∀ d ∈ b.documents, d.source ∈ s.session.inFlight → ∃ e, r = .error e) ∧
    (∀ d rest page s₀, b.documents = d :: rest → d.source ∈ s.session.inFlight →
      (Layout.load b.output.layout b.brief.root).run.run s = (.ok page, s₀) →
      r = .error (.cycle d.source)) ∧
    ((write.run.run b).run s).2.session.inFlight = s'.session.inFlight := by
  have hwrite := inFlight_write b s
  rw [hrun] at hwrite
  rw [run_generate_eq_setPage] at hrun
  have hinner := lands_generateWithin (s.depth b.brief.mapping - 1)
  have hexits : (setPage _).Exits b s _ _ := exits_setPage hinner
  have hbroken : ∀ d, b.BreaksOff s d → (∃ e, r = .error e) ∧
      d.source :: s.session.inFlight <:+ s'.session.inFlight := by
    intro d hd
    have hfails := BreaksWithin.exits_setPage hinner hd
    unfold Making.Exits at hfails
    rw [hrun] at hfails
    cases r with
    | ok g => exact hfails.elim
    | error e => exact ⟨⟨e, rfl⟩, hfails⟩
  refine ⟨⟨fun hsame d hd => ?_, fun hnone => ?_⟩, hbroken, fun d hd hflight => ?_, ?_, hwrite⟩
  · have hlength := (hbroken d hd).2.length_le
    rw [hsame, List.length_cons] at hlength
    omega
  · cases r with
    | ok g => exact (hexits.ok hrun).1
    | error e =>
      rcases hexits.error hrun with hsame | ⟨d, hd, -⟩
      · exact hsame
      · exact absurd hd (hnone d)
  · cases r with
    | ok g => exact absurd hflight ((hexits.ok hrun).2 d hd)
    | error e => exact ⟨e, rfl⟩
  · intro d rest page s₀ hdocs hflight hload
    have hfails : (setPage (generateWithin (s.depth b.brief.mapping - 1))).Exits b s _ _ :=
      exits_setPage_of_inFlight hdocs hflight hload
    unfold Making.Exits at hfails
    rw [hrun] at hfails
    cases r with
    | ok g => exact hfails.elim
    | error e => exact congrArg _ hfails.1

/-- A document that leads to one which is not there, in a page of its own. -/
def torn : FileTree := { files := [(["a.md"], .text "[](b.md)"), (["page"], .text "")] }

def tornSettings : Settings :=
  { input := some (.one "a.md"), output := { dist := some ⟨"out"⟩, layout := some ⟨"page"⟩ } }

/-- The same documents once the missing one is there. -/
def mended : FileTree := { torn with files := torn.files ++ [(["b.md"], .text "")] }

/-- The document stays on its way, so the next attempt fails with a circle although nothing is
missing any more. -/
theorem inFlight_generate_iff_torn : ∃ b s, s.session.inFlight = [] ∧ (∃ d, b.BreaksOff s d) ∧
    ∃ again s₁, (tornSettings.make ⟨"/"⟩).run.run
        { ((generate.run.run b).run s).2 with tree := mended } = (.ok again, s₁) ∧
      ((generate.run.run again).run s₁).1.1 = .error (.cycle ⟨"/a.md"⟩) := by
  let remade (b : Bundle) (s : Bench) :=
    (tornSettings.make ⟨"/"⟩).run.run { ((generate.run.run b).run s).2 with tree := mended }
  obtain ⟨made, hmade⟩ : ∃ made, (tornSettings.make ⟨"/"⟩).run.run
      { tree := torn, session := .fresh } = made := ⟨_, rfl⟩
  have htried : made.1.toOption.map (fun b => (made.2.session.inFlight,
      ((generate.run.run b).run made.2).2.session.inFlight)) = some ([], [⟨"/a.md"⟩]) := by
    rw [← hmade]
    decide +kernel
  have hremade : made.1.toOption.map (fun b => ((remade b made.2).2.session.inFlight,
      (remade b made.2).1.toOption.map (·.documents.map (·.source)))) =
      some ([⟨"/a.md"⟩], some [⟨"/a.md"⟩]) := by
    rw [← hmade]
    decide +kernel
  have hload : made.1.toOption.map (fun b => (remade b made.2).1.toOption.map fun again =>
      ((Layout.load again.output.layout again.brief.root).run.run (remade b made.2).2).1.toBool) =
      some (some true) := by
    rw [← hmade]
    decide +kernel
  obtain ⟨result, s⟩ := made
  cases result with
  | error f => cases htried
  | ok b =>
    obtain ⟨hbefore, hafter⟩ := Prod.mk.inj (Option.some.inj htried)
    obtain ⟨hflight, hdocs⟩ := Prod.mk.inj (Option.some.inj hremade)
    have hload := Option.some.inj hload
    rcases hagain : remade b s with ⟨result', s₁⟩
    dsimp only at hflight hdocs hload
    rw [hagain] at hflight hdocs hload
    cases result' with
    | error f => cases hdocs
    | ok again =>
      refine ⟨b, s, hbefore, ?_, again, s₁, hagain, ?_⟩
      · rcases hrun : (generate.run.run b).run s with ⟨⟨r, b'⟩, s'⟩
        dsimp only at hafter hbefore
        rw [hrun] at hafter
        refine Classical.not_forall_not.1 fun hnone => ?_
        have hsame := (inFlight_generate_iff hrun).1.2 hnone
        rw [hbefore] at hsame
        cases hsame.symm.trans hafter
      · have hsources : again.documents.map (·.source) = [⟨"/a.md"⟩] := Option.some.inj hdocs
        obtain ⟨d, rest, hcons, hsource, -⟩ := List.map_eq_cons_iff.1 hsources
        have hd : d.source ∈ s₁.session.inFlight := by
          rw [hsource]
          exact hflight ▸ List.mem_cons_self
        have hloaded : ((Layout.load again.output.layout again.brief.root).run.run s₁).1.toBool =
            true := Option.some.inj hload
        rcases hpage : (Layout.load again.output.layout again.brief.root).run.run s₁ with ⟨page, s₂⟩
        rw [hpage] at hloaded
        cases page with
        | error f => cases hloaded
        | ok page =>
          rcases hrun : (generate.run.run again).run s₁ with ⟨⟨r, b'⟩, s'⟩
          obtain ⟨-, -, -, hcycle, -⟩ := inFlight_generate_iff hrun
          exact (hcycle d rest page s₂ hcons hd hpage).trans (by rw [hsource])

end Bundle
end Bindery
