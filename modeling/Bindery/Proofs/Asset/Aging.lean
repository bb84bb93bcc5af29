import Bindery.Proofs.Asset.Settling

/-! What may become of an asset in a session. Registering, marking and placing leave its source where
it is, but for the one step in which a document becomes a page. -/

namespace Bindery

/-- What may become of an asset: a page is made of a document, and nothing else moves a source. -/
structure Asset.Becomes (a a' : Asset) : Prop where
  normal : a'.source.IsNormal
  marked : a.isMarked = true → a'.isMarked = true
  kept : a'.isMarked = a.isMarked → a'.source = a.source
  page : a.isMarked = false → a'.isMarked = true →
    a.source.isMarkdown = true ∧ a'.source = a.source.withExtension "html"

namespace Asset.Becomes

variable {a a' a₁ a₂ a₃ : Asset}

theorem of_eq (ha : a.source.IsNormal) (hsource : a'.source = a.source)
    (hmarked : a'.isMarked = a.isMarked) : a.Becomes a' := by
  refine ⟨hsource.symm ▸ ha, fun h => hmarked.trans h, fun _ => hsource, fun hnot hmark => ?_⟩
  rw [hmarked, hnot] at hmark
  cases hmark

theorem refl (ha : a.source.IsNormal) : a.Becomes a := of_eq ha rfl rfl

theorem trans (h : a₁.Becomes a₂) (h' : a₂.Becomes a₃) : a₁.Becomes a₃ := by
  refine ⟨h'.normal, fun hmarked => h'.marked (h.marked hmarked), fun hsame => ?_, fun hnot hmark => ?_⟩
  · have hmiddle : a₂.isMarked = a₁.isMarked := by
      cases hmarked : a₁.isMarked with
      | true => exact h.marked hmarked
      | false =>
        refine Bool.eq_false_iff.2 fun hmark => ?_
        have hlast := h'.marked hmark
        rw [hsame, hmarked] at hlast
        cases hlast
    exact (h'.kept (hsame.trans hmiddle.symm)).trans (h.kept hmiddle)
  · cases hmiddle : a₂.isMarked with
    | true =>
      obtain ⟨hmarkdown, hsource⟩ := h.page hnot hmiddle
      exact ⟨hmarkdown, (h'.kept (hmark.trans hmiddle.symm)).trans hsource⟩
    | false =>
      rw [← h.kept (hmiddle.trans hnot.symm)]
      exact h'.page hmiddle hmark

/-- A document becomes a page. -/
theorem page_place (plan : Relocation) (ha : a.source.IsNormal) (hunmarked : a.isMarked = false)
    (hmarkdown : a.source.isMarkdown = true) :
    a.Becomes (plan.place { a with source := a.source.withExtension "html", isMarked := true }) := by
  obtain ⟨-, -, -, -, -, hhtml, -⟩ := Path.withExtension_html ha hmarkdown
  have hsource : (plan.place { a with
      source := a.source.withExtension "html", isMarked := true }).source =
        a.source.withExtension "html" := by
    rw [Relocation.source_place, hhtml.normalize_eq]
  refine ⟨hsource.symm ▸ hhtml, fun _ => Relocation.isMarked_place, fun hsame => ?_,
    fun _ _ => ⟨hmarkdown, hsource⟩⟩
  rw [Relocation.isMarked_place, hunmarked] at hsame
  cases hsame

end Asset.Becomes

/-- No page can be made of the asset any more: it is one, or is no document. -/
def Asset.IsFinal (a : Asset) : Prop := a.isMarked = true ∨ a.source.isMarkdown = false

theorem Asset.IsFinal.isMarked_eq {a a' : Asset} (h : a.IsFinal) (ha : a.Becomes a') :
    a'.isMarked = a.isMarked := by
  cases hmarked : a.isMarked with
  | true => exact ha.marked hmarked
  | false =>
    refine Bool.eq_false_iff.2 fun hmark => ?_
    obtain ⟨hmarkdown, -⟩ := ha.page hmarked hmark
    rcases h with hpage | hnone
    · rw [hmarked] at hpage
      cases hpage
    · rw [hmarkdown] at hnone
      cases hnone

theorem Asset.IsFinal.becomes {a a' : Asset} (h : a.IsFinal) (ha : a.Becomes a') : a'.IsFinal := by
  have hsame := h.isMarked_eq ha
  refine h.imp ha.marked fun hnone => ?_
  rwa [ha.kept hsame]

/-- What may become of the assets of a store. -/
def Store.Ages (s s' : Store) : Prop :=
  ∀ c a, s.asset? c = some a → a.source.IsNormal → ∃ a', s'.asset? c = some a' ∧ a.Becomes a'

namespace Store.Ages

variable {s s₁ s₂ s₃ : Store}

theorem of_cells {s' : Store} (h : s'.cells = s.cells) : s.Ages s' := by
  intro c a ha hnormal
  refine ⟨a, ?_, .refl hnormal⟩
  unfold asset? at ha ⊢
  rw [h]
  exact ha

theorem trans (h : s₁.Ages s₂) (h' : s₂.Ages s₃) : s₁.Ages s₃ := by
  intro c a ha hnormal
  obtain ⟨a', ha', hbecomes⟩ := h c a ha hnormal
  obtain ⟨a'', ha'', hbecomes'⟩ := h' c a' ha' hbecomes.normal
  exact ⟨a'', ha'', hbecomes.trans hbecomes'⟩

theorem modifyCell (s : Store) (c : CellId) {f : Asset → Asset}
    (hf : ∀ a, s.asset? c = some a → a.source.IsNormal → a.Becomes (f a)) :
    s.Ages (s.modifyCell c f) := by
  intro d a ha hnormal
  rw [asset?_modifyCell, ha]
  split
  · next heq =>
    subst heq
    exact ⟨f a, rfl, hf a ha hnormal⟩
  · exact ⟨a, rfl, .refl hnormal⟩

/-- A registration gives an asset that is there a note at most. -/
theorem register (s : Store) (r : RegistryId) (origin : String) :
    s.Ages (s.register r origin none).1 := by
  obtain ⟨s₀, c, heq, -, hcell⟩ := register_eq_insert s r origin none
  obtain ⟨note, hnote, hasset⟩ := asset?_foldl_insertAt (.ofOrigin origin) c (s₀.chain r) s₀
  have hbefore : s.Ages s₀ := by
    rcases hcell with ⟨-, hcells⟩ | ⟨-, -, hcells⟩
    · exact of_cells (hcells.trans (congrArg cells (modifyCell_id s c)))
    · intro d a ha hnormal
      have hlt : d < s.cells.size := asset?_isSome.1 (ha ▸ rfl)
      refine ⟨a, ?_, .refl hnormal⟩
      unfold asset? at ha ⊢
      rw [hcells, Array.getElem?_push, if_neg (Nat.ne_of_lt hlt), ha]
  refine hbefore.trans fun d a ha hnormal => ?_
  have hafter : (s.register r origin none).1.asset? d =
      if c = d then (s₀.asset? d).map note else s₀.asset? d := by
    rw [heq]
    exact hasset d
  rw [hafter, ha]
  split
  · obtain ⟨isMaster, hisMaster⟩ := hnote a
    exact ⟨note a, rfl, hisMaster ▸ .of_eq hnormal rfl rfl⟩
  · exact ⟨a, rfl, .refl hnormal⟩

theorem registerAll (s : Store) (r : RegistryId) (origins : List String) :
    s.Ages (s.registerAll r origins) := by
  induction origins generalizing s with
  | nil => exact of_cells rfl
  | cons origin origins ih => exact (register s r origin).trans (ih _)

theorem relocate (s : Store) (plan : Relocation) (html : String) (r : RegistryId) :
    s.Ages (plan.run html s r).store := by
  intro c a ha hnormal
  obtain ⟨b, hb, hsource, hmarked⟩ := Relocation.asset?_run ha hnormal
  exact ⟨b, hb, .of_eq hnormal hsource hmarked⟩

end Store.Ages

/-- The asset of a token is one that no page can be made of any more. -/
def Store.Resolves (s : Store) (t : Token) : Prop :=
  ∃ c a, (t, c) ∈ s.snapshot 0 ∧ s.asset? c = some a ∧ a.source.IsNormal ∧ a.IsFinal

theorem Store.Resolves.later {s s' : Store} {t : Token} (h : s.Resolves t) (hextends : s.Extends s')
    (hages : s.Ages s') : s'.Resolves t := by
  obtain ⟨c, a, hslot, ha, hnormal, hfinal⟩ := h
  obtain ⟨a', ha', hbecomes⟩ := hages c a ha hnormal
  exact ⟨c, a', hextends.slots 0 _ hslot, ha', hbecomes.normal, hfinal.becomes hbecomes⟩

end Bindery
