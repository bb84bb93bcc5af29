import Bindery.Proofs.Project.Nesting

/-! A first pass of a bundle goes the way that its references go. What holds between the benches before
and after any reference is followed, holds between those before and after the pass. -/

namespace Bindery

variable {brief : Brief} {output : Output} {tree : FileTree} {old : List Path} {s : Bench} {b : Bundle}
  {deep : Prop} {R : Bench → Bench → Prop}

/-- A relation between benches that holds of a part of a run which only adds to the registries, and
of two parts when it holds of each. -/
structure Bench.Course (R : Bench → Bench → Prop) : Prop where
  stocks : ∀ ⦃s s'⦄, s.Stocks s' → R s s'
  trans : ∀ ⦃s₁ s₂ s₃⦄, R s₁ s₂ → R s₂ s₃ → R s₁ s₃

namespace Bundle

variable {inner : Making Generated} {count : Nat} {plan : Relocation}

/-- Following any reference by the plan, in the course of a run and whether it fails or not, keeps to
`R`. -/
def Keeps (brief : Brief) (output : Output) (tree : FileTree) (old : List Path)
    (inner : Making Generated) (count : Nat) (R : Bench → Bench → Prop) (plan : Relocation) : Prop :=
  ∀ ⦃b s⦄, b.Housed brief output s → s.Underway brief output tree old →
    old.length + count ≤ s.session.linked.length →
    ∀ ⦃r t c⦄, (t, c) ∈ s.session.store.snapshot r → ∀ current,
      (followCell inner plan current c).Exits b s (fun _ _ => R s) fun _ _ => R s

variable (hroot : brief.root.IsNormal) (hinner : Goes brief output tree old inner (count + 1) deep)
  (hR : Bench.Course R)

section Pass

variable (hplan : Fits brief output plan)
  (hkeeps : Keeps brief output tree old inner count R plan)

include hroot hinner hR hplan hkeeps

theorem keeps_followCells (hb : b.Housed brief output s) (h : s.Underway brief output tree old)
    (hcount : old.length + count ≤ s.session.linked.length) {r : RegistryId} {current : Path}
    {slots : List (Token × CellId)} (hslots : ∀ slot ∈ slots, slot ∈ s.session.store.snapshot r) :
    (slots.forM fun (_, cell) => followCell inner plan current cell).Exits b s
      (fun _ _ => R s) fun _ _ => R s := by
  induction slots generalizing s with
  | nil => exact hR.stocks h.regular.stocks_refl
  | cons slot slots ih =>
    rw [List.forM_eq_forM, List.forM_cons, Making.exits_bind]
    have hslot := hslots slot List.mem_cons_self
    refine ((goes_followCell hroot hinner hb h hcount hplan hslot).and
      (hkeeps hb h hcount hslot current)).mono ?_ fun _ _ _ h => h.2
    rintro _ b₁ s₁ ⟨⟨rfl, hunderway, hadvances, -⟩, hkept⟩
    refine (ih (hb.onward hadvances.toOnward) hunderway
      (Nat.le_trans hcount hadvances.linked.length_le) fun slot' hslot' => ?_).mono
      (fun _ _ _ hrest => hR.trans hkept hrest) fun _ _ _ hrest => hR.trans hkept hrest
    exact hadvances.extends_store.slots r _ (hslots slot' (List.mem_cons_of_mem _ hslot'))

theorem keeps_pass (hb : b.Housed brief output s) (h : s.Underway brief output tree old)
    (hcount : old.length + count ≤ s.session.linked.length) {i : Nat} {doc : Document}
    (hlt : doc.registry < s.session.store.registries.size)
    (hdir : ∃ dir, doc.source.parent? = some dir ∧ dir.IsNormal) :
    (pass inner plan i doc).Exits b s (fun _ _ => R s) fun _ _ => R s := by
  unfold pass followAll
  simp only [Making.exits_bind, Making.exits_lift, Work.exits_session]
  refine exits_takeUp h.regular hlt hdir (fun _ _ _ _ _ hs => hR.stocks hs) fun b₁ s₁ hkept hs _ => ?_
  have hb₁ := (hb.onward hs.onward).kept hkept
  have hcount₁ := hs.linked.symm ▸ hcount
  refine ((goes_followCells hroot hinner hb₁ (h.stocks hs) hcount₁ hplan fun _ h => h).and
    (keeps_followCells hroot hinner hR hplan hkeeps hb₁ (h.stocks hs) hcount₁ fun _ h => h)).mono ?_
    fun _ _ _ hfails => hR.trans (hR.stocks hs) hfails.2
  rintro _ b₂ s₂ ⟨⟨-, hunderway, -⟩, hrest⟩
  refine Work.exits_leave hunderway.regular fun s₃ hs₃ => ?_
  exact hR.trans (hR.trans (hR.stocks hs) hrest) (hR.stocks hs₃)

theorem keeps_passes {docs : List (Document × Nat)} (hb : b.Housed brief output s)
    (h : s.Underway brief output tree old) (hcount : old.length + count ≤ s.session.linked.length)
    (hdocs : ∀ x ∈ docs, x.1.registry < s.session.store.registries.size ∧
      ∃ dir, x.1.source.parent? = some dir ∧ dir.IsNormal) :
    (docs.forM fun (doc, i) => pass inner plan i doc).Exits b s (fun _ _ => R s) fun _ _ => R s := by
  induction docs generalizing b s with
  | nil => exact hR.stocks h.regular.stocks_refl
  | cons x docs ih =>
    rw [List.forM_eq_forM, List.forM_cons, Making.exits_bind]
    obtain ⟨hlt, hdir⟩ := hdocs x List.mem_cons_self
    refine ((goes_pass hroot hinner hb h hcount hplan hlt hdir).and
      (keeps_pass hroot hinner hR hplan hkeeps hb h hcount hlt hdir)).mono ?_ fun _ _ _ h => h.2
    rintro _ b₁ s₁ ⟨⟨hkept, hunderway, hadvances, -⟩, hfirst⟩
    refine (ih ((hb.onward hadvances.toOnward).kept hkept) hunderway
      (Nat.le_trans hcount hadvances.linked.length_le) fun y hy => ?_).mono
      (fun _ _ _ hrest => hR.trans hfirst hrest) fun _ _ _ hrest => hR.trans hfirst hrest
    obtain ⟨hlt', hdir'⟩ := hdocs y (List.mem_cons_of_mem _ hy)
    exact ⟨Nat.lt_of_lt_of_le hlt' hadvances.extends_store.size, hdir'⟩

end Pass

include hroot hinner hR

/-- A whole pass keeps to what each of its references keeps to, by any plan of the bundle. -/
theorem keeps_setPage (hb : b.Housed brief output s) (h : s.Underway brief output tree old)
    (hcount : old.length + count ≤ s.session.linked.length)
    (hkeeps : ∀ ⦃plan⦄, Fits brief output plan → plan.outfile = b.outfile →
      Keeps brief output tree old inner count R plan) :
    (setPage inner).Exits b s (fun _ _ => R s) fun _ _ => R s := by
  unfold setPage
  simp only [Making.exits_bind, Making.exits_bundle, Making.exits_lift]
  refine exits_loadLayout hroot hb h.regular (fun _ _ _ hs => hR.stocks hs)
    fun page s₁ _ hs₁ hroot' _ hfits => ?_
  have hb₁ := hb.onward hs₁.onward
  have hcount₁ := hs₁.linked.symm ▸ hcount
  have hdocs : ∀ x ∈ b.documents.zipIdx, x.1.registry < s₁.session.store.registries.size ∧
      ∃ dir, x.1.source.parent? = some dir ∧ dir.IsNormal := fun x hx => by
    obtain ⟨hlt, -, hparent⟩ := hb₁.documents x.1 (List.fst_mem_of_mem_zipIdx hx)
    exact ⟨hlt, hparent⟩
  refine ((goes_passes hroot hinner hb₁ (h.stocks hs₁) hcount₁ hfits hdocs).and
    (keeps_passes hroot hinner hR hfits (hkeeps hfits rfl) hb₁ (h.stocks hs₁) hcount₁ hdocs)).mono ?_
    fun _ _ _ hfails => hR.trans (hR.stocks hs₁) hfails.2
  rintro _ b₂ s₂ ⟨⟨hkept, hunderway, hadvances, -⟩, hrest⟩
  have hb₂ := (hb₁.onward hadvances.toOnward).kept hkept
  have hmade := hR.trans (hR.stocks hs₁) hrest
  exact Layout.exits_render hunderway.regular (fun _ _ _ hs => hR.trans hmade (hR.stocks hs)) hroot'
    hfits.layout hb₂.registry_lt fun _ _ hs₃ _ => hR.trans hmade (hR.stocks hs₃)

end Bundle
end Bindery
