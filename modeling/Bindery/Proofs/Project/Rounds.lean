import Bindery.Proofs.Project.Crawl

/-! Several documents are taken up one after the other. Which of them and of the documents they lead to
get a page does not depend on the order of the links in a document, and neither does whether the run
stops, as long as no document links to itself. -/

namespace Bindery

/-- The document `e` of `ds` returns to itself, and none before it leads to it. -/
def StopsAt (links : Path → List Path) (ds : List Path) (e : Path) : Prop :=
  ∃ before after, ds = before ++ e :: after ∧ (∀ d ∈ before, ¬ Leads links d e) ∧
    Returns links e (links e)

/-- A document of `ds` leads to another one, which is none of those before it. -/
def Paged (links : Path → List Path) (ds : List Path) (l : Path) : Prop :=
  ∃ before e after, ds = before ++ e :: after ∧ l ∉ before ∧ l ≠ e ∧ Leads links e l

/-- Each of the documents was taken up in its turn, and the run over it came to an end. -/
inductive Rounds (links : Path → List Path) : List Path → Progress → Prop where
  | start : Rounds links [] {}
  | next {before e σ σ'} : Rounds links before σ → Crawl links (.document e) σ none σ' →
      Rounds links (before ++ [e]) σ'

variable {links links' : Path → List Path} {ds : List Path} {e l x : Path}

/-- What a document leads to is one of those that are taken up, or gets a page. -/
theorem Leads.mem_or_paged (h : Leads links e x) (he : e ∈ ds) : x ∈ ds ∨ Paged links ds x := by
  by_cases hx : x ∈ ds
  · exact .inl hx
  · obtain ⟨before, after, rfl⟩ := List.append_of_mem he
    refine .inr ⟨before, e, after, rfl, fun hmem => hx (List.mem_append_left _ hmem), ?_, h⟩
    rintro rfl
    exact hx he

theorem Paged.exists_leads (h : Paged links ds l) : ∃ e ∈ ds, Leads links e l := by
  obtain ⟨before, e, after, rfl, -, -, hleads⟩ := h
  exact ⟨e, by simp, hleads⟩

namespace Rounds

variable {before after : List Path} {p : Path} {σ σ' : Progress}

theorem rests (h : Rounds links before σ) : σ.Rests links := by
  induction h with
  | start => exact ⟨rfl, List.Subset.refl _, nofun⟩
  | next _ hcrawl ih =>
    rcases hcrawl.document_rests ih with ⟨hnone, -⟩ | ⟨-, hrests, -⟩
    · cases hnone
    · exact hrests

theorem subset_finished (h : Rounds links before σ) : before ⊆ σ.finished := by
  induction h with
  | start => exact List.Subset.refl _
  | next _ hcrawl ih =>
    intro d hd
    rcases List.mem_append.1 hd with hd | hd
    · exact hcrawl.finished_subset (ih hd)
    · obtain rfl := List.mem_singleton.1 hd
      cases hcrawl
      exact List.mem_cons_self

theorem exists_leads (h : Rounds links before σ) (hx : x ∈ σ.finished) :
    ∃ d ∈ before, Leads links d x := by
  induction h with
  | start => cases hx
  | @next before e σ σ' _ hcrawl ih =>
    rcases hcrawl.leads_of_finished trivial hx with hx | hleads
    · obtain ⟨d, hd, hleads⟩ := ih hx
      exact ⟨d, List.mem_append_left _ hd, hleads⟩
    · exact ⟨e, by simp, hleads⟩

/-- All that a finished document leads to is finished. -/
theorem finished_of_leads (h : Rounds links before σ) {d : Path} (hd : d ∈ σ.finished)
    (hleads : Leads links d x) : x ∈ σ.finished :=
  hleads.closed (fun y hy _ hl => h.rests.marked (h.rests.finished y hy hl)) hd

/-- The marks are on the links of the finished documents. -/
theorem marked_iff (h : Rounds links before σ) :
    x ∈ σ.marked ↔ ∃ e ∈ before, ∃ d, Leads links e d ∧ x ∈ links d := by
  constructor
  · intro hx
    induction h with
    | start => cases hx
    | @next before e σ σ' _ hcrawl ih =>
      rcases hcrawl.linked_of_marked trivial hx with hx | ⟨d, hleads, hlink⟩
      · obtain ⟨e', he', hlinked⟩ := ih hx
        exact ⟨e', List.mem_append_left _ he', hlinked⟩
      · exact ⟨e, by simp, d, hleads, hlink⟩
  · rintro ⟨e, he, d, hleads, hlink⟩
    exact h.rests.finished d (h.finished_of_leads (h.subset_finished he) hleads) hlink

/-- A run that stops does so at its document. -/
theorem stopsAt (h : Rounds links before σ) (hcrawl : Crawl links (.document e) σ (some p) σ')
    (after : List Path) : p = e ∧ StopsAt links (before ++ e :: after) e := by
  rcases hcrawl.document_rests h.rests with ⟨hp, hnew, hreturns⟩ | ⟨hnone, -⟩
  · refine ⟨Option.some.inj hp, before, after, rfl, fun d hd hleads => hnew ?_, hreturns⟩
    exact h.finished_of_leads (h.subset_finished hd) hleads
  · cases hnone

theorem not_stopsAt (h : Rounds links before σ) : ¬ StopsAt links before e := by
  induction h with
  | start =>
    rintro ⟨before, after, hsplit, -⟩
    simp at hsplit
  | @next before e' σ σ' hrounds hcrawl ih =>
    rintro ⟨before', after, hsplit, hfirst, hreturns⟩
    rcases List.eq_nil_or_concat after with rfl | ⟨after, last, rfl⟩
    · obtain ⟨rfl, heq⟩ := List.append_inj' hsplit rfl
      obtain rfl := List.singleton_inj.1 heq
      rcases hcrawl.document_rests hrounds.rests with ⟨hnone, -⟩ | ⟨-, -, hmet | hfree⟩
      · cases hnone
      · obtain ⟨d, hd, hleads⟩ := hrounds.exists_leads hmet
        exact hfirst d hd hleads
      · exact hfree hreturns
    · refine ih ⟨before', after, ?_, hfirst, hreturns⟩
      rw [List.concat_eq_append, ← List.cons_append, ← List.append_assoc] at hsplit
      exact (List.append_inj' hsplit rfl).1

end Rounds

/-! The order of the links. -/

/-- The documents that `ds` lead to have the same links, in any order. -/
def SameLinks (links links' : Path → List Path) (ds : List Path) : Prop :=
  ∀ e ∈ ds, ∀ d, Leads links e d → ∀ l, l ∈ links d ↔ l ∈ links' d

namespace SameLinks

theorem leads (h : SameLinks links links' ds) (he : e ∈ ds) (hd : Leads links e l) :
    Leads links l x ↔ Leads links' l x := by
  constructor
  · intro hx
    induction hx with
    | refl => exact .refl
    | tail hleads hlink ih => exact ih.tail ((h e he _ (hd.trans hleads) _).1 hlink)
  · intro hx
    induction hx with
    | refl => exact .refl
    | tail _ hlink ih => exact ih.tail ((h e he _ (hd.trans ih) _).2 hlink)

theorem paged (h : SameLinks links links' ds) : Paged links ds l ↔ Paged links' ds l := by
  constructor
  · rintro ⟨before, e, after, rfl, hbefore, hne, hleads⟩
    exact ⟨before, e, after, rfl, hbefore, hne, (h.leads (by simp) .refl).1 hleads⟩
  · rintro ⟨before, e, after, rfl, hbefore, hne, hleads⟩
    exact ⟨before, e, after, rfl, hbefore, hne, (h.leads (by simp) .refl).2 hleads⟩

theorem symm (h : SameLinks links links' ds) : SameLinks links' links ds :=
  fun e he d hd l => (h e he d ((h.leads he .refl).2 hd) l).symm

/-- The order of the links decides where a run stops by a link of a document to itself alone. -/
theorem self_mem (h : SameLinks links links' ds) (hfree : ¬ StopsAt links ds e)
    (hstops : StopsAt links' ds e) : e ∈ links e := by
  obtain ⟨before, after, rfl, hfirst, front, l, rest, hsplit, hfront, hne, hleads⟩ := hstops
  have he : e ∈ before ++ e :: after := by simp
  have hl : l ∈ links e := (h e he e .refl l).2 (hsplit ▸ by simp)
  by_cases hself : e ∈ links e
  · exact hself
  refine absurd ⟨before, after, rfl, fun d hd hleads => hfirst d hd ?_, ?_⟩ hfree
  · exact (h.leads (by simp [hd]) .refl).1 hleads
  · obtain ⟨front, rest, hlinks⟩ := List.append_of_mem hl
    refine ⟨front, l, rest, hlinks, fun hmem => hself ?_, hne, ?_⟩
    · exact hlinks ▸ List.mem_append_left _ hmem
    · exact (h.leads he (.single hl)).2 hleads

end SameLinks
end Bindery
