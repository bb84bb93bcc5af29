import Bindery.Proofs.Asset.Slots
import Bindery.Proofs.Rendering.Uniform
import Bindery.Rendering.Productions

/-! Rendering a document registers its references one after the other, and does nothing else to the
registries. Neither its markup nor the references depend on what was registered before. -/

namespace Bindery

/-- Registers origins in order. -/
def Store.registerAll (s : Store) (r : RegistryId) (origins : List String) : Store :=
  origins.foldl (fun s origin => (s.register r origin none).1) s

namespace Productions

/-- The result, the registered origins and the outline depend neither on the registry nor on the
store. The origins are read from the directory `base`. -/
def Scripted (base : Path) (α : Type) (x : RegistryId → Linking α) : Prop :=
  ∃ (result : Except MarkupError α) (origins : List String) (outline : List Heading),
    (∀ origin ∈ origins, ∃ target, origin = (base.resolve target).text) ∧
    ∀ r recording, (x r).run.run recording =
      (result, ⟨recording.store.registerAll r origins, recording.outline ++ outline⟩)

variable {base : Path}

theorem scripted_of_result {α : Type} {x : RegistryId → Linking α} (result : Except MarkupError α)
    (h : ∀ r recording, (x r).run.run recording = (result, recording)) : Scripted base α x := by
  refine ⟨result, [], [], by simp, fun r recording => ?_⟩
  rw [h, List.append_nil]
  rfl

theorem sequential_scripted : Sequential (Scripted base) where
  pure a := scripted_of_result (.ok a) fun _ _ => rfl
  bind {α β x f} hx hf := by
    obtain ⟨result, origins, outline, horigins, hrun⟩ := hx
    have hbind : ∀ r recording, (x r >>= f r).run.run recording =
        (ExceptT.bindCont (f r) result : StateM Recording _)
          ⟨recording.store.registerAll r origins, recording.outline ++ outline⟩ := by
      intro r recording
      change (ExceptT.bindCont (f r) ((x r).run.run recording).1 : StateM Recording _)
        ((x r).run.run recording).2 = _
      rw [hrun]
    cases result with
    | error e => exact ⟨.error e, origins, outline, horigins, hbind⟩
    | ok a =>
      obtain ⟨result', origins', outline', horigins', hrun'⟩ := hf a
      refine ⟨result', origins ++ origins', outline ++ outline', ?_, fun r recording => ?_⟩
      · intro origin horigin
        rcases List.mem_append.1 horigin with h | h
        · exact horigins origin h
        · exact horigins' origin h
      · rw [hbind]
        refine (hrun' r _).trans ?_
        simp [Store.registerAll, List.append_assoc]

theorem scripted_linkFile (target : List Char) :
    Scripted base _ fun r => linkFile r base target := by
  refine ⟨.ok (Token.ofOrigin (base.resolve ⟨String.ofList target⟩).text).text.toList,
    [(base.resolve ⟨String.ofList target⟩).text], [], ?_, fun r recording => ?_⟩
  · intro origin horigin
    exact ⟨_, List.mem_singleton.1 horigin⟩
  · have htoken := Store.token_register recording.store r
      (base.resolve ⟨String.ofList target⟩).text none
    rw [← htoken, List.append_nil]
    rfl

theorem scripted_reference (href : List Char) :
    Scripted base _ fun r => reference r base href := by
  unfold reference
  cases Html.Reference.localTarget href with
  | none => exact sequential_scripted.pure _
  | some target => exact scripted_linkFile target

theorem all_linking (options : Markdown.Options) :
    Productions.All (Scripted base) fun r => linking options r base where
  heading level html raw := by
    refine ⟨.ok _, [], [_], by simp, fun r recording => rfl⟩
  link href title html := sequential_scripted.bind (scripted_reference href) fun href =>
    sequential_scripted.bind (scripted_of_result (titleAttrs title) fun _ _ => rfl) fun _ =>
      sequential_scripted.pure _
  image src title alt := sequential_scripted.bind (scripted_reference src) fun src =>
    sequential_scripted.bind (scripted_of_result (titleAttrs title) fun _ _ => rfl) fun _ =>
      sequential_scripted.pure _
  html markup := Html.Reference.redirect_all sequential_scripted scripted_linkFile markup

end Productions

namespace Rendering

/-- A document registers the same origins whatever the store it is rendered with. -/
theorem linkedDocument_eq (options : Markdown.Options) (base : Path) (tree : List Markdown.Node) :
    ∃ (result : Except MarkupError (List Char)) (origins : List String) (outline : List Heading),
      (∀ origin ∈ origins, ∃ target, origin = (base.resolve target).text) ∧
      ∀ r store, linkedDocument options r base store tree =
        (result, ⟨store.registerAll r origins, outline⟩) := by
  obtain ⟨result, origins, outline, horigins, hrun⟩ :=
    document_all Productions.sequential_scripted (Productions.all_linking options) options tree
  exact ⟨result, origins, outline, horigins, fun r store => hrun r { store }⟩

end Rendering
end Bindery
