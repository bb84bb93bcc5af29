import Bindery.Proofs.Project.Compilation

/-! When a compilation ends with a cycle. It does so exactly for a project whose entry returns to
itself by a link before its first link to itself. The other cycles of the links go unnoticed. -/

namespace Bindery.Bundle

variable {brief : Brief} {output : Output} {tree : FileTree} {entry : Path} {b : Bundle} {s : Bench}
  {E : Failure → Prop}

/-- A compilation that fails with a cycle has come back to its entry, by a link that stands before
the links of the entry to itself. Without such a link it comes to an end, unless the texts fail. -/
theorem compile_cycle_iff_returns (h : brief.Complete tree entry)
    (hinput : brief.input.files brief.mapping brief.root = [entry]) (hlayout : output.layout = none)
    (houtfile : (output.fileFor brief.input brief.root).isSome = true) :
    let links := brief.links tree
    let result := ((compile brief output).run.run { tree, session := .fresh }).1
    (∀ d, result = .error (.cycle d) → d = entry ∧ Returns links entry (links entry)) ∧
      (∀ report, result = .ok report → ¬ Returns links entry (links entry)) ∧
      ∀ f, result = .error f → f = .cycle entry ∨ f.OfContent := by
  intro links result
  have hends : (compile brief output).Ends { tree, session := .fresh }
      (fun _ _ => ¬ Returns (brief.links tree) entry (brief.links tree entry))
      (fun f => f.OfContent ∨
        f = .cycle entry ∧ Returns (brief.links tree) entry (brief.links tree entry)) := by
    unfold compile
    simp only [Work.ends_bind, Making.ends_within]
    refine ends_make h.plugins Store.descends_newRoot Nat.one_pos (fun _ => .inl) fun b s hmade => ?_
    have hmade' : Made { brief with input := brief.input } { output with data := output.data } none
        { tree, session := .fresh } b s := hmade
    have hfile : b.outfile.isSome = true := by
      unfold outfile
      rw [hmade.target_eq, hmade.brief_eq, hmade.output_eq]
      exact houtfile
    have hsets := sets_of_made h .refl hmade' hinput (fun _ _ _ _ h => h) hfile
    have hfresh : Agrees tree (brief.files tree entry) { tree, session := .fresh } {} :=
      ⟨Store.descends_newRoot, fun _ hslot => absurd hslot List.not_mem_nil,
        fun _ hd => absurd hd List.not_mem_nil, rfl, rfl, fun _ _ _ _ h => h⟩
    have hagrees := hfresh.widen hmade.widens hmade.same
    have hdepth : tree.files.length < s.depth b.brief.mapping + 0 := by
      unfold Bench.depth
      rw [hmade.same.tree]
      change tree.files.length < 2 * (tree.files.length + 1) + b.brief.mapping.length + 1 + 0
      omega
    have hcompiles := compiles_generateWithin h hlayout (s.depth b.brief.mapping) hdepth
      .refl hsets hagrees ⟨List.nodup_nil, fun _ hd => absurd hd List.not_mem_nil⟩ rfl
    unfold write generate
    simp only [Making.ends_bind, Making.ends_bundle, Making.ends_lift, Work.ends_get]
    refine hcompiles.mono ?_ ?_
    · rintro g b' s' ⟨-, -, σ', hcrawl, -⟩
      have hreturns : ¬ Returns (brief.links tree) entry (brief.links tree entry) := by
        rcases hcrawl.document_entry with ⟨hnone, -⟩ | ⟨-, hreturns⟩
        · cases hnone
        · exact hreturns
      exact ends_emit (fun _ => .inl) (fun _ _ => hreturns) fun _ _ _ _ _ _ _ _ _ => hreturns
    · rintro f (hcontent | ⟨p, σ', rfl, hcrawl⟩)
      · exact .inl hcontent
      · rcases hcrawl.document_entry with ⟨hentry, hreturns⟩ | ⟨hnone, -⟩
        · exact .inr ⟨Option.some.inj hentry ▸ rfl, hreturns⟩
        · cases hnone
  unfold Work.Ends at hends
  rcases hrun : (compile brief output).run.run { tree, session := .fresh } with ⟨r, s⟩
  have hresult : result = r := congrArg Prod.fst hrun
  rw [hrun] at hends
  rw [hresult]
  cases r with
  | ok report => exact ⟨fun _ hd => (by cases hd), fun _ _ => hends, fun _ hf => (by cases hf)⟩
  | error e =>
    refine ⟨fun d hd => ?_, fun _ hok => (by cases hok), fun f hf => ?_⟩
    · obtain rfl := Except.error.inj hd
      obtain hcontent | ⟨hentry, hreturns⟩ := hends
      · exact hcontent.elim
      · exact ⟨Failure.cycle.inj hentry, hreturns⟩
    · obtain rfl := Except.error.inj hf
      exact hends.symm.imp_left And.left

/-- An entry that leads to a cycle and is no part of it. -/
def spur : FileTree := { files := [
  (["a.md"], .text "[b](b.md)"), (["b.md"], .text "[c](c.md)"), (["c.md"], .text "[b](b.md)")] }

def spurBrief : Brief := { input := .one "a.md", root := ⟨"/"⟩ }

theorem mem_of_leads_spur {d : Path} (h : Leads (spurBrief.links spur) ⟨"/a.md"⟩ d) :
    d ∈ ([⟨"/a.md"⟩, ⟨"/b.md"⟩, ⟨"/c.md"⟩] : List Path) :=
  h.closed (by decide +kernel) List.mem_cons_self

theorem complete_spur : spurBrief.Complete spur ⟨"/a.md"⟩ where
  plugins := rfl
  root := ⟨rfl, by decide +kernel⟩
  normal := ⟨rfl, by decide +kernel⟩
  markdown := by decide +kernel
  declaration := nofun
  documents d hd := by
    have hmem := mem_of_leads_spur hd
    have hall : ∀ d ∈ ([⟨"/a.md"⟩, ⟨"/b.md"⟩, ⟨"/c.md"⟩] : List Path),
        spurBrief.root.isWithin d = true ∧ .up ∉ d.components ∧
          (spur.read d).isOk = true := by decide +kernel
    obtain ⟨hwithin, hup, hread⟩ := hall d hmem
    refine ⟨hwithin, hup, rfl, ?_⟩
    cases h : spur.read d with
    | ok text => exact ⟨text, rfl⟩
    | error f => simp [h, Except.isOk, Except.toBool] at hread
  tokens := by
    have hfiles : ∀ p ∈ spurBrief.files spur ⟨"/a.md"⟩, p = ⟨"/b.md"⟩ ∨ p = ⟨"/c.md"⟩ := by
      rintro p ⟨d, hd, hp⟩
      have hall : ∀ d ∈ ([⟨"/a.md"⟩, ⟨"/b.md"⟩, ⟨"/c.md"⟩] : List Path),
          ∀ p ∈ spurBrief.references spur d, p = ⟨"/b.md"⟩ ∨ p = ⟨"/c.md"⟩ := by decide +kernel
      exact hall d (mem_of_leads_spur hd) p hp
    have hne : Token.ofOrigin "/b.md" ≠ Token.ofOrigin "/c.md" := by decide +kernel
    intro p hp q hq htoken
    rcases hfiles p hp with rfl | rfl <;> rcases hfiles q hq with rfl | rfl
    · rfl
    · exact absurd htoken hne
    · exact absurd htoken.symm hne
    · rfl

/-- The documents `b.md` and `c.md` link to each other, and no cycle is found. -/
theorem compile_cycle_iff_returns_spur :
    ((⟨"/c.md"⟩ : Path) ∈ spurBrief.links spur ⟨"/b.md"⟩ ∧
      (⟨"/b.md"⟩ : Path) ∈ spurBrief.links spur ⟨"/c.md"⟩ ∧
      Leads (spurBrief.links spur) ⟨"/a.md"⟩ ⟨"/b.md"⟩) ∧
    ∀ d, ((compile spurBrief { dist := some ⟨"out"⟩ }).run.run
      { tree := spur, session := .fresh }).1 ≠ .error (.cycle d) := by
  have hreturns : ¬ Returns (spurBrief.links spur) ⟨"/a.md"⟩ (spurBrief.links spur ⟨"/a.md"⟩) := by
    rintro ⟨before, link, after, hrest, -, hne, hleads⟩
    have hlink : link ∈ spurBrief.links spur ⟨"/a.md"⟩ :=
      hrest ▸ List.mem_append_right _ List.mem_cons_self
    have hb : ∀ l ∈ spurBrief.links spur ⟨"/a.md"⟩, l ∈ ([⟨"/b.md"⟩, ⟨"/c.md"⟩] : List Path) := by
      decide +kernel
    have hback := hleads.closed (P := (· ∈ ([⟨"/b.md"⟩, ⟨"/c.md"⟩] : List Path)))
      (by decide +kernel) (hb link hlink)
    exact absurd hback (by decide)
  have hsome : (Output.fileFor { dist := some ⟨"out"⟩ } (.one "a.md") ⟨"/"⟩).isSome = true := rfl
  have hends := compile_cycle_iff_returns complete_spur (by decide +kernel) rfl hsome
  refine ⟨⟨by decide +kernel, by decide +kernel, .single (by decide +kernel)⟩, fun d hcycle => ?_⟩
  exact hreturns (hends.1 d hcycle).2

end Bindery.Bundle
