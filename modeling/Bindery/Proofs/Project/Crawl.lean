import Bindery.Path
import Mathlib.Logic.Relation

/-! The order in which documents are taken up, apart from what is done to them. A run goes along the
links of a document, marks what is new among them, and takes it up before the next link. It stops
at a document that is on its way already.

Only the entry is on its way without a mark, so only a link back to the entry can stop a run, and
only as long as the entry is not marked by a link to itself. -/

namespace Bindery

/-- The documents of a run. -/
structure Progress where
  /-- A link has asked for a page of them. -/
  marked : List Path := []
  inFlight : List Path := []
  finished : List Path := []

namespace Progress

def mark (σ : Progress) (d : Path) : Progress := { σ with marked := d :: σ.marked }

def enter (σ : Progress) (d : Path) : Progress := { σ with inFlight := d :: σ.inFlight }

def leave (σ : Progress) (d : Path) : Progress :=
  { σ with inFlight := σ.inFlight.erase d, finished := d :: σ.finished }

end Progress

/-- What is left to do: to take a document up, or to go along the rest of its links. -/
inductive Task where
  | document (d : Path)
  | links (d : Path) (rest : List Path)

/-- The document that a task is about. -/
def Task.source : Task → Path
  | .document d | .links d _ => d

/-- The links that are left to a task are links of its document. -/
def Task.Follows (links : Path → List Path) : Task → Prop
  | .document _ => True
  | .links d rest => rest ⊆ links d

/-- A run over documents with these links. It comes to an end, or it stops at a document. -/
inductive Crawl (links : Path → List Path) : Task → Progress → Option Path → Progress → Prop where
  | halt {d σ} : d ∈ σ.inFlight → Crawl links (.document d) σ (some d) σ
  | take {d σ σ'} : d ∉ σ.inFlight →
      Crawl links (.links d (links d)) (σ.enter d) none σ' →
      Crawl links (.document d) σ none (σ'.leave d)
  | fail {d σ p σ'} : d ∉ σ.inFlight →
      Crawl links (.links d (links d)) (σ.enter d) (some p) σ' →
      Crawl links (.document d) σ (some p) σ'
  | done {d σ} : Crawl links (.links d []) σ none σ
  | known {d l rest σ o σ'} : l ∈ σ.marked → Crawl links (.links d rest) σ o σ' →
      Crawl links (.links d (l :: rest)) σ o σ'
  | skip {d l rest σ o σ'} : l ∉ σ.marked → l = d ∨ l ∈ σ.finished →
      Crawl links (.links d rest) (σ.mark l) o σ' → Crawl links (.links d (l :: rest)) σ o σ'
  | follow {d l rest σ σ₁ o σ'} : l ∉ σ.marked → l ≠ d → l ∉ σ.finished →
      Crawl links (.document l) (σ.mark l) none σ₁ → Crawl links (.links d rest) σ₁ o σ' →
      Crawl links (.links d (l :: rest)) σ o σ'
  | stop {d l rest σ p σ'} : l ∉ σ.marked → l ≠ d → l ∉ σ.finished →
      Crawl links (.document l) (σ.mark l) (some p) σ' →
      Crawl links (.links d (l :: rest)) σ (some p) σ'

variable {links : Path → List Path} {entry : Path}

/-- One document leads to another by links. -/
def Leads (links : Path → List Path) : Path → Path → Prop :=
  Relation.ReflTransGen fun d l => l ∈ links d

/-- What is kept along links holds of all that a document leads to. -/
theorem Leads.closed {P : Path → Prop} {d x : Path} (h : Leads links d x)
    (hP : ∀ y, P y → ∀ l ∈ links y, P l) (hd : P d) : P x := by
  induction h with
  | refl => exact hd
  | tail _ hlink ih => exact hP _ ih _ hlink

/-- Before its first link to itself, the entry has a link to another document that leads back. -/
def Returns (links : Path → List Path) (entry : Path) (rest : List Path) : Prop :=
  ∃ before link after, rest = before ++ link :: after ∧ entry ∉ before ∧ link ≠ entry ∧
    Leads links link entry

theorem returns_cons {l : Path} {rest : List Path} : Returns links entry (l :: rest) ↔
    l ≠ entry ∧ (Leads links l entry ∨ Returns links entry rest) := by
  constructor
  · rintro ⟨before, link, after, hrest, hbefore, hne, hleads⟩
    cases before with
    | nil =>
      obtain ⟨rfl, -⟩ := List.cons.inj hrest
      exact ⟨hne, .inl hleads⟩
    | cons x before =>
      obtain ⟨rfl, htail⟩ := List.cons.inj hrest
      obtain ⟨hx, hbefore⟩ := List.ne_and_not_mem_of_not_mem_cons hbefore
      exact ⟨hx.symm, .inr ⟨before, link, after, htail, hbefore, hne, hleads⟩⟩
  · rintro ⟨hne, hleads | ⟨before, link, after, rfl, hbefore, hlink, hleads⟩⟩
    · exact ⟨[], l, rest, rfl, List.not_mem_nil, hne, hleads⟩
    · exact ⟨l :: before, link, after, rfl, List.not_mem_cons_of_ne_of_not_mem hne.symm hbefore,
        hlink, hleads⟩

/-- What holds while the entry is on its way. One document may be marked but not taken up yet. -/
structure Progress.Fits (links : Path → List Path) (entry : Path) (pending : Option Path)
    (σ : Progress) : Prop where
  entry_mem : entry ∈ σ.inFlight
  marked : ∀ d ∈ σ.marked, d ≠ entry → pending = some d ∨ d ∈ σ.inFlight ∨ d ∈ σ.finished
  inFlight : ∀ d ∈ σ.inFlight, d ≠ entry → d ∈ σ.marked
  finished : ∀ d ∈ σ.finished, d ≠ entry ∧ ∀ l ∈ links d, l ∈ σ.marked

/-- What holds while no document is on its way. -/
structure Progress.Rests (links : Path → List Path) (σ : Progress) : Prop where
  inFlight : σ.inFlight = []
  marked : σ.marked ⊆ σ.finished
  finished : ∀ d ∈ σ.finished, links d ⊆ σ.marked

/-- What a part of a run leaves when it comes to an end. -/
structure Progress.Passes (links : Path → List Path) (entry : Path) (σ σ' : Progress) : Prop where
  fits : σ'.Fits links entry none
  inFlight : σ'.inFlight = σ.inFlight
  marked : σ.marked ⊆ σ'.marked

namespace Crawl

/-- What a run over a task does: where it ends, and why it stops. -/
def Sound (links : Path → List Path) (entry : Path) (task : Task) (σ : Progress)
    (o : Option Path) (σ' : Progress) : Prop :=
  match task with
  | .document d => σ.Fits links entry (some d) → d ∈ σ.marked → d = entry ∨ d ∉ σ.inFlight →
    match o with
    | none => σ.Passes links entry σ' ∧ d ≠ entry ∧ (entry ∈ σ'.marked → entry ∈ σ.marked)
    | some p => p = entry ∧ (d = entry ∨ entry ∉ σ.marked) ∧ Leads links d entry
  | .links d rest => σ.Fits links entry none → d ∈ σ.inFlight →
    match o with
    | none => σ.Passes links entry σ' ∧ (∀ l ∈ rest, l ∈ σ'.marked) ∧
      (d ≠ entry → entry ∈ σ'.marked → entry ∈ σ.marked)
    | some p => p = entry ∧ entry ∉ σ.marked ∧
      ∃ before l after, rest = before ++ l :: after ∧ entry ∉ before ∧ l ≠ d ∧ Leads links l entry

theorem fits_mark {σ : Progress} (h : σ.Fits links entry none) (l : Path) :
    (σ.mark l).Fits links entry (some l) where
  entry_mem := h.entry_mem
  marked d hd hne := by
    rcases List.mem_cons.1 hd with rfl | hd
    · exact .inl rfl
    · exact .inr ((h.marked d hd hne).resolve_left nofun)
  inFlight d hd hne := List.mem_cons_of_mem _ (h.inFlight d hd hne)
  finished d hd := by
    obtain ⟨hne, hlinks⟩ := h.finished d hd
    exact ⟨hne, fun l hl => List.mem_cons_of_mem _ (hlinks l hl)⟩

/-- A document that was taken up before may be marked at any time. -/
theorem fits_mark_of_taken {σ : Progress} (h : σ.Fits links entry none) {l : Path}
    (hl : l ∈ σ.inFlight ∨ l ∈ σ.finished) : (σ.mark l).Fits links entry none where
  entry_mem := h.entry_mem
  marked d hd hne := by
    rcases List.mem_cons.1 hd with rfl | hd
    · exact .inr hl
    · exact h.marked d hd hne
  inFlight := (fits_mark h l).inFlight
  finished := (fits_mark h l).finished

theorem fits_enter {σ : Progress} {d : Path} (h : σ.Fits links entry (some d))
    (hd : d ∈ σ.marked) : (σ.enter d).Fits links entry none where
  entry_mem := List.mem_cons_of_mem _ h.entry_mem
  marked x hx hne := by
    rcases h.marked x hx hne with heq | hflight | hfinished
    · exact .inr (.inl (Option.some.inj heq ▸ List.mem_cons_self))
    · exact .inr (.inl (List.mem_cons_of_mem _ hflight))
    · exact .inr (.inr hfinished)
  inFlight x hx hne := by
    rcases List.mem_cons.1 hx with rfl | hx
    · exact hd
    · exact h.inFlight x hx hne
  finished := h.finished

/-- A document that has been gone along is closed under its links. -/
theorem fits_leave {σ : Progress} {d : Path} (h : σ.Fits links entry none) (hne : d ≠ entry)
    (hd : d ∈ σ.inFlight) (hlinks : ∀ l ∈ links d, l ∈ σ.marked) :
    (σ.leave d).Fits links entry none where
  entry_mem := (List.mem_erase_of_ne hne.symm).2 h.entry_mem
  marked x hx hx' := by
    rcases (h.marked x hx hx').resolve_left nofun with hflight | hfinished
    · by_cases hxd : x = d
      · exact .inr (.inr (hxd ▸ List.mem_cons_self))
      · exact .inr (.inl ((List.mem_erase_of_ne hxd).2 hflight))
    · exact .inr (.inr (List.mem_cons_of_mem _ hfinished))
  inFlight x hx hx' := h.inFlight x (List.mem_of_mem_erase hx) hx'
  finished x hx := by
    rcases List.mem_cons.1 hx with rfl | hx
    · exact ⟨hne, hlinks⟩
    · exact h.finished x hx

/-- The entry is the one document on its way that is not marked. -/
theorem eq_entry_of_inFlight {σ : Progress} {pending : Option Path}
    (h : σ.Fits links entry pending) {d : Path} (hd : d ∈ σ.inFlight) (hmarked : d ∉ σ.marked) :
    d = entry := by
  by_cases hne : d = entry
  · exact hne
  · exact absurd (h.inFlight d hd hne) hmarked

theorem sound {task : Task} {σ σ' : Progress} {o : Option Path} (h : Crawl links task σ o σ') :
    Sound links entry task σ o σ' := by
  induction h with
  | @halt d σ hd =>
    intro hfits hmarked hnew
    have hentry : d = entry := hnew.resolve_right (fun h => h hd)
    exact ⟨hentry, .inl hentry, hentry ▸ .refl⟩
  | @take d σ σ' hd hlinks ih =>
    intro hfits hmarked hnew
    have hne : d ≠ entry := fun heq => hd (heq ▸ hfits.entry_mem)
    obtain ⟨hpasses, hall, hentry⟩ := ih (fits_enter hfits hmarked) List.mem_cons_self
    have hmem : d ∈ σ'.inFlight := hpasses.inFlight ▸ List.mem_cons_self
    refine ⟨⟨fits_leave hpasses.fits hne hmem hall, ?_, hpasses.marked⟩, hne, hentry hne⟩
    exact (congrArg (List.erase · d) hpasses.inFlight).trans (List.erase_cons_head d σ.inFlight)
  | @fail d σ p σ' hd hlinks ih =>
    intro hfits hmarked hnew
    obtain ⟨rfl, hunmarked, before, l, after, hrest, -, -, hleads⟩ :=
      ih (fits_enter hfits hmarked) List.mem_cons_self
    have hl : l ∈ links d := hrest ▸ List.mem_append_right _ List.mem_cons_self
    exact ⟨rfl, .inr hunmarked, .head hl hleads⟩
  | done =>
    intro hfits hd
    exact ⟨⟨hfits, rfl, List.Subset.refl _⟩, nofun, fun _ h => h⟩
  | @known d l rest σ o σ' hl hrest ih =>
    intro hfits hd
    have hih := ih hfits hd
    cases o with
    | none =>
      obtain ⟨hpasses, hall, hentry⟩ := hih
      refine ⟨hpasses, fun x hx => ?_, hentry⟩
      rcases List.mem_cons.1 hx with rfl | hx
      · exact hpasses.marked hl
      · exact hall x hx
    | some p =>
      obtain ⟨hp, hunmarked, before, link, after, rfl, hbefore, hlink, hleads⟩ := hih
      refine ⟨hp, hunmarked, l :: before, link, after, rfl, ?_, hlink, hleads⟩
      exact List.not_mem_cons_of_ne_of_not_mem (fun heq => hunmarked (heq ▸ hl)) hbefore
  | @skip d l rest σ o σ' hl hleft hrest ih =>
    intro hfits hd
    have htaken : l ∈ σ.inFlight ∨ l ∈ σ.finished :=
      hleft.imp_left fun (hself : l = d) => hself.symm ▸ hd
    -- The entry is not finished, so only itself can come to it here.
    have hentry : l = entry → d = entry := fun heq =>
      (hleft.resolve_right fun h => (hfits.finished l h).1 heq).symm.trans heq
    have hih := ih (fits_mark_of_taken hfits htaken) hd
    cases o with
    | none =>
      obtain ⟨hpasses, hall, hback⟩ := hih
      refine ⟨⟨hpasses.fits, hpasses.inFlight, List.subset_of_cons_subset hpasses.marked⟩,
        fun x hx => ?_, fun hne hmem => ?_⟩
      · rcases List.mem_cons.1 hx with rfl | hx
        · exact hpasses.marked List.mem_cons_self
        · exact hall x hx
      · exact (List.mem_cons.1 (hback hne hmem)).resolve_left fun heq => hne (hentry heq.symm)
    | some p =>
      obtain ⟨hp, hunmarked, before, link, after, rfl, hbefore, hlink, hleads⟩ := hih
      obtain ⟨hne, hunmarked⟩ := List.ne_and_not_mem_of_not_mem_cons hunmarked
      exact ⟨hp, hunmarked, l :: before, link, after, rfl,
        List.not_mem_cons_of_ne_of_not_mem hne hbefore, hlink, hleads⟩
  | @follow d l rest σ σ₁ o σ' hl hne hunfinished hdocument hrest ihdocument ihrest =>
    intro hfits hd
    have hnew : l = entry ∨ l ∉ (σ.mark l).inFlight := by
      by_cases hflight : l ∈ σ.inFlight
      · exact .inl (eq_entry_of_inFlight hfits hflight hl)
      · exact .inr hflight
    obtain ⟨hpasses₁, hl_entry, hentry₁⟩ := ihdocument (fits_mark hfits l) List.mem_cons_self hnew
    have hmarked₁ : σ.marked ⊆ σ₁.marked := List.subset_of_cons_subset hpasses₁.marked
    have hih := ihrest hpasses₁.fits (hpasses₁.inFlight ▸ hd)
    have hback : entry ∈ σ₁.marked → entry ∈ σ.marked := fun h =>
      (List.mem_cons.1 (hentry₁ h)).resolve_left (Ne.symm hl_entry)
    cases o with
    | none =>
      obtain ⟨hpasses, hall, hentry⟩ := hih
      refine ⟨⟨hpasses.fits, hpasses.inFlight.trans hpasses₁.inFlight,
        List.Subset.trans hmarked₁ hpasses.marked⟩, fun x hx => ?_, fun h h' => hback (hentry h h')⟩
      rcases List.mem_cons.1 hx with rfl | hx
      · exact hpasses.marked (hpasses₁.marked List.mem_cons_self)
      · exact hall x hx
    | some p =>
      obtain ⟨hp, hunmarked, before, link, after, rfl, hbefore, hlink, hleads⟩ := hih
      exact ⟨hp, fun h => hunmarked (hmarked₁ h), l :: before, link, after, rfl,
        List.not_mem_cons_of_ne_of_not_mem (Ne.symm hl_entry) hbefore, hlink, hleads⟩
  | @stop d l rest σ p σ' hl hne hunfinished hdocument ih =>
    intro hfits hd
    have hnew : l = entry ∨ l ∉ (σ.mark l).inFlight := by
      by_cases hflight : l ∈ σ.inFlight
      · exact .inl (eq_entry_of_inFlight hfits hflight hl)
      · exact .inr hflight
    obtain ⟨hp, hunmarked, hleads⟩ := ih (fits_mark hfits l) List.mem_cons_self hnew
    refine ⟨hp, ?_, [], l, rest, rfl, List.not_mem_nil, hne, hleads⟩
    rcases hunmarked with rfl | hunmarked
    · exact hl
    · exact fun h => hunmarked (List.mem_cons_of_mem _ h)

/-- A run that comes to an end has laid down all that it took up. -/
theorem inFlight_eq {task : Task} {σ σ' : Progress} {o : Option Path}
    (h : Crawl links task σ o σ') (ho : o = none) : σ'.inFlight = σ.inFlight := by
  induction h with
  | halt | fail | stop => cases ho
  | @take d σ σ' hd hlinks ih =>
    exact (congrArg (List.erase · d) (ih ho)).trans (List.erase_cons_head d σ.inFlight)
  | done => rfl
  | known hl hrest ih => exact ih ho
  | skip hl hleft hrest ih => exact ih ho
  | follow hl hne hunfinished hdocument hrest ihdocument ihrest =>
    exact (ihrest ho).trans (ihdocument rfl)

/-- With the entry alone on its way and not marked, nothing that was met leads to the entry. -/
theorem not_leads {σ : Progress} (hfits : σ.Fits links entry none) (hflight : σ.inFlight = [entry])
    (hentry : entry ∉ σ.marked) {d : Path} (hd : d ∈ σ.marked ∨ d ∈ σ.finished) :
    ¬ Leads links d entry := by
  intro hleads
  have hmet : entry ∈ σ.marked ∨ entry ∈ σ.finished := by
    refine hleads.closed (P := fun x => x ∈ σ.marked ∨ x ∈ σ.finished) (fun x hx l hlink => ?_) hd
    have hfinished : x ∈ σ.finished := by
      rcases hx with hx | hx
      · have hne : x ≠ entry := fun heq => hentry (heq ▸ hx)
        refine ((hfits.marked x hx hne).resolve_left nofun).resolve_left fun hmem => hne ?_
        exact List.mem_singleton.1 (hflight ▸ hmem)
      · exact hx
    exact .inl ((hfits.finished x hfinished).2 l hlink)
  rcases hmet with hmet | hmet
  · exact hentry hmet
  · exact (hfits.finished entry hmet).1 rfl

theorem not_returns {task : Task} {σ σ' : Progress} {o : Option Path}
    (h : Crawl links task σ o σ') : ∀ rest, task = .links entry rest → o = none →
      σ.Fits links entry none → σ.inFlight = [entry] → entry ∉ σ.marked →
      ¬ Returns links entry rest := by
  induction h with
  | halt | take | fail | stop => nofun
  | done =>
    rintro rest hrest - - - - ⟨before, link, after, hsplit, -⟩
    obtain ⟨-, rfl⟩ := Task.links.inj hrest
    simp at hsplit
  | @known d l rest σ o σ' hl hrest ih =>
    rintro _ htask ho hfits hflight hentry hreturns
    obtain ⟨rfl, rfl⟩ := Task.links.inj htask
    obtain ⟨hne, hleads | hreturns⟩ := returns_cons.1 hreturns
    · exact not_leads hfits hflight hentry (.inl hl) hleads
    · exact ih rest rfl ho hfits hflight hentry hreturns
  | @skip d l rest σ o σ' hl hleft hrest ih =>
    rintro _ htask ho hfits hflight hentry hreturns
    obtain ⟨rfl, rfl⟩ := Task.links.inj htask
    obtain ⟨hne, hreturns⟩ := returns_cons.1 hreturns
    have hfinished : l ∈ σ.finished := hleft.resolve_left hne
    rcases hreturns with hleads | hreturns
    · exact not_leads hfits hflight hentry (.inr hfinished) hleads
    · refine ih rest rfl ho (fits_mark_of_taken hfits (.inr hfinished)) hflight ?_ hreturns
      exact List.not_mem_cons_of_ne_of_not_mem (Ne.symm hne) hentry
  | @follow d l rest σ σ₁ o σ' hl hne hunfinished hdocument hrest ihdocument ihrest =>
    rintro _ htask ho hfits hflight hentry hreturns
    obtain ⟨rfl, rfl⟩ := Task.links.inj htask
    have hnew : l ∉ (σ.mark l).inFlight := by
      intro h
      exact hne (List.mem_singleton.1 (hflight ▸ h))
    obtain ⟨hpasses, -, hback⟩ := hdocument.sound (fits_mark hfits l) List.mem_cons_self (.inr hnew)
    have hflight₁ : σ₁.inFlight = [d] := hpasses.inFlight.trans hflight
    have hentry₁ : d ∉ σ₁.marked := fun h =>
      hentry ((List.mem_cons.1 (hback h)).resolve_left (Ne.symm hne))
    obtain ⟨-, hleads | hreturns⟩ := returns_cons.1 hreturns
    · have hmem : l ∈ σ₁.marked := hpasses.marked List.mem_cons_self
      exact not_leads hpasses.fits hflight₁ hentry₁ (.inl hmem) hleads
    · exact ihrest rest rfl ho hpasses.fits hflight₁ hentry₁ hreturns

/-- What is finished stays so. -/
theorem finished_subset {task : Task} {σ σ' : Progress} {o : Option Path}
    (h : Crawl links task σ o σ') : σ.finished ⊆ σ'.finished := by
  induction h with
  | halt | done => exact List.Subset.refl _
  | take hd hlinks ih => exact List.Subset.trans ih (List.subset_cons_self _ _)
  | fail hd hlinks ih => exact ih
  | known hl hrest ih => exact ih
  | skip hl hleft hrest ih => exact ih
  | follow hl hne hunfinished hdocument hrest ihdocument ihrest =>
    exact List.Subset.trans ihdocument ihrest
  | stop hl hne hunfinished hdocument ih => exact ih

/-- A run finishes what its document leads to. -/
theorem leads_of_finished {task : Task} {σ σ' : Progress} {o : Option Path}
    (h : Crawl links task σ o σ') (htask : task.Follows links) {x : Path}
    (hx : x ∈ σ'.finished) : x ∈ σ.finished ∨ Leads links task.source x := by
  induction h with
  | halt | done => exact .inl hx
  | take hd hlinks ih =>
    rcases List.mem_cons.1 hx with rfl | hx
    · exact .inr .refl
    · exact ih (List.Subset.refl _) hx
  | fail hd hlinks ih => exact ih (List.Subset.refl _) hx
  | known hl hcrawl ih | skip hl hleft hcrawl ih =>
    exact ih (List.subset_of_cons_subset htask) hx
  | follow hl hne hunfinished hdocument hcrawl ihdocument ihrest =>
    rcases ihrest (List.subset_of_cons_subset htask) hx with hx | hleads
    · exact (ihdocument trivial hx).imp_right fun hleads => .head (htask List.mem_cons_self) hleads
    · exact .inr hleads
  | stop hl hne hunfinished hdocument ih =>
    exact (ih trivial hx).imp_right fun hleads => .head (htask List.mem_cons_self) hleads

/-- What a run marks is linked by a document that its own leads to. -/
theorem linked_of_marked {task : Task} {σ σ' : Progress} {o : Option Path}
    (h : Crawl links task σ o σ') (htask : task.Follows links) {x : Path} (hx : x ∈ σ'.marked) :
    x ∈ σ.marked ∨ ∃ d, Leads links task.source d ∧ x ∈ links d := by
  induction h with
  | halt | done => exact .inl hx
  | take hd hlinks ih | fail hd hlinks ih => exact ih (List.Subset.refl _) hx
  | known hl hcrawl ih => exact ih (List.subset_of_cons_subset htask) hx
  | @skip d l rest σ o σ' hl hleft hcrawl ih =>
    rcases ih (List.subset_of_cons_subset htask) hx with hx | hlinked
    · rcases List.mem_cons.1 hx with rfl | hx
      · exact .inr ⟨d, .refl, htask List.mem_cons_self⟩
      · exact .inl hx
    · exact .inr hlinked
  | @follow d l rest σ σ₁ o σ' hl hne hunfinished hdocument hcrawl ihdocument ihrest =>
    have hlink : l ∈ links d := htask List.mem_cons_self
    rcases ihrest (List.subset_of_cons_subset htask) hx with hx | hlinked
    · rcases ihdocument trivial hx with hx | ⟨d', hleads, hd'⟩
      · rcases List.mem_cons.1 hx with rfl | hx
        · exact .inr ⟨d, .refl, hlink⟩
        · exact .inl hx
      · exact .inr ⟨d', .head hlink hleads, hd'⟩
    · exact .inr hlinked
  | @stop d l rest σ p σ' hl hne hunfinished hdocument ih =>
    have hlink : l ∈ links d := htask List.mem_cons_self
    rcases ih trivial hx with hx | ⟨d', hleads, hd'⟩
    · rcases List.mem_cons.1 hx with rfl | hx
      · exact .inr ⟨d, .refl, hlink⟩
      · exact .inl hx
    · exact .inr ⟨d', .head hlink hleads, hd'⟩

/-- Links that are marked are passed by. -/
theorem eq_of_marked {σ σ' : Progress} {o : Option Path} {d : Path} {rest : List Path}
    (h : Crawl links (.links d rest) σ o σ') (hrest : rest ⊆ σ.marked) : o = none ∧ σ' = σ := by
  induction rest with
  | nil =>
    cases h
    exact ⟨rfl, rfl⟩
  | cons l rest ih =>
    have hl := hrest List.mem_cons_self
    cases h with
    | known _ hcrawl => exact ih hcrawl (List.subset_of_cons_subset hrest)
    | skip hnew | follow hnew | stop hnew => exact absurd hl hnew

/-- A run over a document stops when the document was not met before and returns to itself, and
nowhere else. -/
theorem document_rests {σ σ' : Progress} {o : Option Path} (hσ : σ.Rests links)
    (h : Crawl links (.document entry) σ o σ') :
    o = some entry ∧ entry ∉ σ.finished ∧ Returns links entry (links entry) ∨
      o = none ∧ σ'.Rests links ∧ (entry ∈ σ.finished ∨ ¬ Returns links entry (links entry)) := by
  have hfree : entry ∉ σ.inFlight := hσ.inFlight ▸ List.not_mem_nil
  by_cases hmet : entry ∈ σ.finished
  · have hmarked : links entry ⊆ (σ.enter entry).marked := hσ.finished entry hmet
    cases h with
    | halt hd => exact absurd hd hfree
    | fail hd hlinks => exact absurd (hlinks.eq_of_marked hmarked).1 nofun
    | take hd hlinks =>
      obtain ⟨-, rfl⟩ := hlinks.eq_of_marked hmarked
      refine .inr ⟨rfl, ⟨?_, fun m hm => List.mem_cons_of_mem _ (hσ.marked hm), fun d hd => ?_⟩,
        .inl hmet⟩
      · exact (List.erase_cons_head entry σ.inFlight).trans hσ.inFlight
      · rcases List.mem_cons.1 hd with rfl | hd
        · exact hmarked
        · exact hσ.finished d hd
  · have hfits : (σ.enter entry).Fits links entry none := by
      refine ⟨List.mem_cons_self, fun d hd _ => .inr (.inr (hσ.marked hd)), fun d hd hne => ?_,
        fun d hd => ⟨fun heq => hmet (heq ▸ hd), hσ.finished d hd⟩⟩
      exact absurd (List.mem_singleton.1 (hσ.inFlight ▸ hd)) hne
    have hflight : (σ.enter entry).inFlight = [entry] := congrArg (entry :: ·) hσ.inFlight
    have hunmarked : entry ∉ (σ.enter entry).marked := fun hm => hmet (hσ.marked hm)
    cases h with
    | halt hd => exact absurd hd hfree
    | fail hd hlinks =>
      obtain ⟨rfl, -, before, l, after, hrest, hbefore, hne, hleads⟩ :=
        hlinks.sound hfits List.mem_cons_self
      exact .inl ⟨rfl, hmet, before, l, after, hrest, hbefore, hne, hleads⟩
    | @take _ _ σ₁ hd hlinks =>
      have hreturns := hlinks.not_returns _ rfl rfl hfits hflight hunmarked
      obtain ⟨hpasses, hall, -⟩ := hlinks.sound hfits List.mem_cons_self
      have hflight₁ : σ₁.inFlight = [entry] := hpasses.inFlight.trans hflight
      refine .inr ⟨rfl, ⟨?_, fun m hm => ?_, fun d hd => ?_⟩, .inr hreturns⟩
      · show σ₁.inFlight.erase entry = []
        rw [hflight₁, List.erase_cons_head]
      · by_cases heq : m = entry
        · exact heq ▸ List.mem_cons_self
        · refine List.mem_cons_of_mem _ (((hpasses.fits.marked m hm heq).resolve_left nofun).resolve_left
            fun hmem => heq ?_)
          exact List.mem_singleton.1 (hflight₁ ▸ hmem)
      · rcases List.mem_cons.1 hd with rfl | hd
        · exact hall
        · exact (hpasses.fits.finished d hd).2

/-- A run over the entry stops when the entry returns to itself, and nowhere else. -/
theorem document_entry {σ : Progress} {o : Option Path}
    (h : Crawl links (.document entry) {} o σ) :
    o = some entry ∧ Returns links entry (links entry) ∨
      o = none ∧ ¬ Returns links entry (links entry) := by
  have hnone : ({} : Progress).Rests links := ⟨rfl, List.Subset.refl _, nofun⟩
  rcases document_rests hnone h with ⟨ho, -, hreturns⟩ | ⟨ho, -, hmet | hreturns⟩
  · exact .inl ⟨ho, hreturns⟩
  · cases hmet
  · exact .inr ⟨ho, hreturns⟩

end Crawl

end Bindery
