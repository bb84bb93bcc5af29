import Bindery.Proofs.Page.Wraps
import Bindery.Proofs.Project.Run

/-! The wraps of a bundle's documents. Each document is rendered, wrapped, and followed to what it
links to before it is the next one's turn; what the wraps leave of the shared data is all that passes
from one to the next. -/

namespace Bindery

def Document.leaf (d : Document) : Leaf := ⟨d.result, d.outline⟩

theorem Work.ends_true {α : Type} (w : Work α) (s : Bench) :
    w.Ends s (fun _ _ => True) fun _ => True := by
  unfold Work.Ends
  split <;> trivial

namespace Bundle

/-- Rendering and the plugins make `leaf` of a document when its turn comes. -/
def Renders (d : Document) (i : Nat) (leaf : Leaf) : Prop :=
  ∃ b s b' s', ((transform i d).run.run b).run s = ((.ok (), b'), s') ∧
    b'.documents[i]?.map Document.leaf = some leaf

/-- The same bundle, the document at a place apart. -/
structure Beside (i : Nat) (b b' : Bundle) : Prop where
  output : b'.output = b.output
  length : b'.documents.length = b.documents.length
  others : ∀ j, j ≠ i → b'.documents[j]? = b.documents[j]?

theorem Beside.trans {i : Nat} {b b' b'' : Bundle} (h : b.Beside i b') (h' : b'.Beside i b'') :
    b.Beside i b'' where
  output := h'.output.trans h.output
  length := h'.length.trans h.length
  others j hj := (h'.others j hj).trans (h.others j hj)

theorem beside_modify (i : Nat) (f : Document → Document) (b : Bundle) :
    b.Beside i { b with documents := b.documents.modify i f } where
  output := rfl
  length := List.length_modify ..
  others _ hj := List.getElem?_modify_ne f _ (Ne.symm hj)

/-- The document at a place, wrapped by the bundle's wraps over its shared data. -/
def wrapped (b : Bundle) (i : Nat) (leaf : Leaf) : Wrapped :=
  wrapDocument (b.output.intro.getD .nothing) (b.output.outro.getD .nothing)
    (leaf.state (i + 1) b.documents.length b.output.data)

/-- What becomes of a bundle when its document at a place is wrapped as `leaf`. -/
structure WrapsAt (i : Nat) (leaf : Leaf) (b b' : Bundle) : Prop where
  output : b'.output = { b.output with data := (b.wrapped i leaf).data }
  length : b'.documents.length = b.documents.length
  others : ∀ j, j ≠ i → b'.documents[j]? = b.documents[j]?
  done : b'.documents[i]?.map Document.leaf =
    some ⟨(b.wrapped i leaf).result, (b.wrapped i leaf).headings⟩

theorem Beside.wrapped_eq {i : Nat} {b b' : Bundle} (h : b.Beside i b') (leaf : Leaf) :
    b'.wrapped i leaf = b.wrapped i leaf := by
  unfold wrapped
  rw [h.output, h.length]

theorem Beside.wrapsAt {i : Nat} {leaf : Leaf} {b b' b'' : Bundle} (h : b.Beside i b')
    (h' : WrapsAt i leaf b' b'') : WrapsAt i leaf b b'' where
  output := by rw [h'.output, h.output, h.wrapped_eq]
  length := h'.length.trans h.length
  others j hj := (h'.others j hj).trans (h.others j hj)
  done := by rw [h'.done, h.wrapped_eq]

section Pass

variable {b : Bundle} {s : Bench} {i : Nat} {d : Document}

theorem ends_beside_transform (b : Bundle) (s : Bench) (i : Nat) (d : Document) :
    (transform i d).Ends b s (fun _ b' _ => b.Beside i b') fun _ => True := by
  unfold transform Making.modifyDocument
  simp only [Making.ends_bind, Making.ends_lift, Making.ends_modifyBundle, Making.ends_bundle]
  refine (Work.ends_true _ s).mono (fun rendered s₁ _ => ?_) fun _ _ => trivial
  refine (Work.ends_true _ s₁).mono (fun ran s₂ _ => ?_) fun _ _ => trivial
  refine (Work.ends_true _ s₂).mono (fun result s₃ _ => ?_) fun _ _ => trivial
  refine (Work.ends_true _ s₃).mono (fun _ s₄ _ => ?_) fun _ _ => trivial
  refine (Work.ends_true _ s₄).mono (fun _ _ _ => ?_) fun _ _ => trivial
  exact ((beside_modify i _ b).trans (beside_modify i _ _)).trans (beside_modify i _ _)

theorem ends_renders (b : Bundle) (s : Bench) (hi : i < b.documents.length) (d : Document) :
    (transform i d).Ends b s
      (fun _ b' _ => b.Beside i b' ∧ ∃ leaf, Renders d i leaf ∧
        b'.documents[i]?.map Document.leaf = some leaf) fun _ => True := by
  have hbeside := ends_beside_transform b s i d
  unfold Making.Ends at hbeside ⊢
  split
  · next b' s' hrun =>
    rw [hrun] at hbeside
    have hlt : i < b'.documents.length := Nat.lt_of_lt_of_eq hi hbeside.length.symm
    have hleaf : b'.documents[i]?.map Document.leaf = some b'.documents[i].leaf := by
      rw [List.getElem?_eq_getElem hlt]
      rfl
    exact ⟨hbeside, _, ⟨b, s, b', s', hrun, hleaf⟩, hleaf⟩
  · trivial

theorem ends_wraps {leaf : Leaf} (hleaf : b.documents[i]?.map Document.leaf = some leaf)
    (s : Bench) : (wrap i).Ends b s (fun _ b' _ => WrapsAt i leaf b b') fun _ => True := by
  obtain ⟨d, hd, rfl⟩ := Option.map_eq_some_iff.1 hleaf
  unfold wrap Making.modifyDocument
  simp only [Making.ends_bind, Making.ends_bundle, hd, Making.ends_modifyBundle]
  have hbeside := beside_modify i
  refine ⟨rfl, (hbeside _ b).length, (hbeside _ b).others, ?_⟩
  rw [List.getElem?_modify_eq, hd]
  rfl

theorem ends_kept_lift {α : Type} (w : Work α) (b : Bundle) (s : Bench) :
    (liftM w : Making α).Ends b s (fun _ b' _ => b' = b) fun _ => True := by
  rw [Making.ends_lift]
  exact (Work.ends_true w s).mono (fun _ _ _ => rfl) fun _ _ => trivial

/-- What a document links to is compiled apart from the bundle. -/
theorem ends_kept_followAll (inner : Making Generated) (plan : Relocation) (d : Document)
    (b : Bundle) (s : Bench) :
    (followAll inner plan d).Ends b s (fun _ b' _ => b' = b) fun _ => True := by
  have hcell (cell : CellId) (s : Bench) :
      (followCell inner plan d.source cell).Ends b s (fun _ b' _ => b' = b) fun _ => True := by
    unfold followCell
    rw [Making.ends_bind]
    refine (ends_kept_lift _ b s).mono (fun link b₁ s₁ hb₁ => ?_) fun _ _ => trivial
    subst hb₁
    cases link with
    | none => exact rfl
    | some link =>
      unfold follow
      simp only [Making.ends_bind, Making.ends_lift, Work.ends_session]
      split
      · exact rfl
      · simp only [Making.ends_bind, Making.ends_lift, Work.ends_log, Work.ends_noteLinked,
          Making.ends_bundle]
        refine (Work.ends_true _ _).mono (fun nested s₂ _ => ?_) fun _ _ => trivial
        exact (Work.ends_true _ s₂).mono (fun _ _ _ => rfl) fun _ _ => trivial
  unfold followAll
  simp only [Making.ends_bind, Making.ends_lift, Work.ends_session]
  generalize s.session.store.snapshot d.registry = slots
  induction slots generalizing s with
  | nil => exact rfl
  | cons slot slots ih =>
    rw [List.forM_eq_forM, List.forM_cons, Making.ends_bind]
    -- The tree and the session go on, the bundle does not change.
    refine (hcell slot.2 s).mono (fun _ b₁ s₁ hb₁ => ?_) fun _ h => h
    subst hb₁
    exact ih s₁

/-- One document's turn. -/
theorem ends_pass_wraps (inner : Making Generated) (plan : Relocation) (b : Bundle) (s : Bench)
    (hi : i < b.documents.length) (d : Document) :
    (pass inner plan i d).Ends b s
      (fun _ b' _ => ∃ leaf, Renders d i leaf ∧ WrapsAt i leaf b b') fun _ => True := by
  unfold pass
  rw [Making.ends_bind]
  refine (ends_kept_lift _ b s).mono (fun _ b₁ s₁ hb₁ => ?_) fun _ h => h
  subst hb₁
  rw [Making.ends_bind]
  refine (ends_renders b₁ s₁ hi d).mono ?_ fun _ h => h
  rintro _ b₂ s₂ ⟨hbeside, leaf, hrenders, hleaf⟩
  rw [Making.ends_bind]
  refine (ends_wraps hleaf s₂).mono (fun _ b₃ s₃ hwraps => ?_) fun _ h => h
  rw [Making.ends_bind]
  refine (ends_kept_followAll inner plan d b₃ s₃).mono (fun _ b₄ s₄ hb₄ => ?_) fun _ h => h
  subst hb₄
  refine (ends_kept_lift _ b₄ s₄).mono (fun _ b₅ s₅ hb₅ => ?_) fun _ h => h
  subst hb₅
  exact ⟨leaf, hrenders, hbeside.wrapsAt hwraps⟩

end Pass

/-- The documents from number `k` on have had their turns: `own` is what they were rendered to. -/
structure Threaded (k : Nat) (docs : List Document) (own : List Leaf) (b b' : Bundle) : Prop where
  renders : List.Forall₂ (fun slot leaf => Renders slot.1 slot.2 leaf) (docs.zipIdx k) own
  length : b'.documents.length = b.documents.length
  front : b'.documents.take k = b.documents.take k
  wrapped : wrapAll (b.output.intro.getD .nothing) (b.output.outro.getD .nothing)
    b.documents.length (k + 1) own b.output.data =
      ((b'.documents.drop k).map Document.leaf, b'.output.data)

section Passes

variable {b : Bundle} {s : Bench} {k : Nat} {docs : List Document}

theorem WrapsAt.front {leaf : Leaf} {b b' : Bundle} (h : WrapsAt k leaf b b') :
    b'.documents.take k = b.documents.take k := by
  refine List.ext_getElem? fun j => ?_
  rw [List.getElem?_take, List.getElem?_take]
  split
  · next hlt => exact h.others j (Nat.ne_of_lt hlt)
  · rfl

theorem Threaded.cons {d : Document} {leaf : Leaf} {own : List Leaf} {b b₁ b' : Bundle}
    (hrenders : Renders d k leaf) (hwraps : WrapsAt k leaf b b₁)
    (hrest : Threaded (k + 1) docs own b₁ b') : Threaded k (d :: docs) (leaf :: own) b b' where
  renders := by
    rw [List.zipIdx_cons]
    exact .cons hrenders hrest.renders
  length := hrest.length.trans hwraps.length
  front := by
    have h := congrArg (List.take k) hrest.front
    rw [List.take_take, List.take_take, Nat.min_eq_left (Nat.le_succ k)] at h
    exact h.trans hwraps.front
  wrapped := by
    -- The turns that follow leave the document as it is.
    have hdone : b'.documents[k]? = b₁.documents[k]? := by
      have h := congrArg (·[k]?) hrest.front
      simpa using h
    have hk : b'.documents[k]?.map Document.leaf =
        some ⟨(b.wrapped k leaf).result, (b.wrapped k leaf).headings⟩ := by
      rw [hdone, hwraps.done]
    obtain ⟨d', hd', hleaf⟩ := Option.map_eq_some_iff.1 hk
    have hdrop : b'.documents.drop k = d' :: b'.documents.drop (k + 1) := by
      rw [List.drop_eq_getElem?_toList_append, hd']
      rfl
    have hnext := hrest.wrapped
    rw [hwraps.output, hwraps.length] at hnext
    unfold wrapAll
    rw [hdrop, List.map_cons, hleaf]
    exact congrArg (fun q : List Leaf × Json.Fields => (_ :: q.1, q.2)) hnext

theorem ends_passes_threaded (inner : Making Generated) (plan : Relocation) (docs : List Document)
    (b : Bundle) (s : Bench) (hk : k + docs.length = b.documents.length) :
    ((docs.zipIdx k).forM fun (d, i) => pass inner plan i d).Ends b s
      (fun _ b' _ => ∃ own, Threaded k docs own b b') fun _ => True := by
  induction docs generalizing k b s with
  | nil =>
    have hlength : b.documents.length ≤ k := Nat.le_of_eq hk.symm
    refine ⟨[], .nil, rfl, rfl, ?_⟩
    rw [List.drop_eq_nil_of_le hlength]
    rfl
  | cons d docs ih =>
    rw [List.length_cons] at hk
    rw [List.zipIdx_cons, List.forM_eq_forM, List.forM_cons, Making.ends_bind]
    refine (ends_pass_wraps inner plan b s (by omega) d).mono ?_ fun _ h => h
    rintro _ b₁ s₁ ⟨leaf, hrenders, hwraps⟩
    refine (ih b₁ s₁ ?_).mono ?_ fun _ h => h
    · rw [hwraps.length]
      omega
    · rintro _ b' s' ⟨own, hrest⟩
      exact ⟨leaf :: own, hrest.cons hrenders hwraps⟩

theorem ends_threaded (inner : Making Generated) (b : Bundle) (s : Bench) :
    (setPage inner).Ends b s
      (fun g b' _ => (∃ own, Threaded 0 b.documents own b b') ∧
        g.outline = b'.documents.flatMap (·.outline)) fun _ => True := by
  unfold setPage
  simp only [Making.ends_bind, Making.ends_bundle, Making.ends_lift]
  refine (Work.ends_true _ s).mono (fun layout s₁ _ => ?_) fun _ h => h
  refine (ends_passes_threaded inner _ b.documents b s₁ (Nat.zero_add _)).mono ?_ fun _ h => h
  rintro _ b₂ s₂ hthreaded
  refine (Work.ends_true _ s₂).mono (fun html s₃ _ => ?_) fun _ h => h
  exact ⟨hthreaded, rfl⟩

end Passes

/-- Documents that are wrapped in a row come out as their intro, their own markup and their outro,
each over the data that the one before it left, and lose none of its fields. So do the documents of a
bundle when its page is generated: what they were rendered to is wrapped in order, the page lists the
headings that are left, and the bundle keeps the data. -/
theorem generate_threads :
    (∀ intro outro leaves data, let done := wrapAll intro outro leaves.length 1 leaves data
      Threads intro outro leaves.length 1 leaves data done.1 done.2 ∧
        ∀ name, (data.lookup name).isSome → (done.2.lookup name).isSome) ∧
    ∀ b s, generate.Ends b s
      (fun g b' _ => ∃ own,
        List.Forall₂ (fun slot leaf => Renders slot.1 slot.2 leaf) b.documents.zipIdx own ∧
        Threads (b.output.intro.getD .nothing) (b.output.outro.getD .nothing) b.documents.length 1
          own b.output.data (b'.documents.map Document.leaf) b'.output.data ∧
        g.outline = (b'.documents.map Document.leaf).flatMap (·.outline))
      fun _ => True := by
  refine ⟨fun intro outro leaves data => ?_, fun b s => ?_⟩
  · have h := threads_wrapAll intro outro leaves.length 1 leaves data
    exact ⟨h, fun name hname => h.isSome_lookup hname⟩
  · unfold generate
    simp only [Making.ends_bind, Making.ends_bundle, Making.ends_lift, Work.ends_get]
    refine (ends_threaded _ b s).mono ?_ fun _ h => h
    rintro g b' s' ⟨⟨own, hthreaded⟩, houtline⟩
    refine ⟨own, hthreaded.renders, ?_, ?_⟩
    · have h := threads_wrapAll (b.output.intro.getD .nothing) (b.output.outro.getD .nothing)
        b.documents.length 1 own b.output.data
      rw [hthreaded.wrapped] at h
      exact h
    · rw [houtline, List.flatMap_map]
      rfl

end Bundle
end Bindery
