import Bindery.Proofs.FileTree
import Bindery.Proofs.Project.Operations

/-! What a document of a project refers to, and which of its references are links to documents. -/

namespace Bindery

/-- The text of a declaration after every document. -/
def Brief.extra (brief : Brief) (tree : FileTree) : Except FileFault String :=
  match brief.declare with
  | some path => tree.read (brief.root.resolve path)
  | none => .ok ""

/-- The files a document refers to, in order of first reference, from rendering it alone. -/
def Brief.references (brief : Brief) (tree : FileTree) (d : Path) : List Path :=
  match tree.read d, brief.extra tree with
  | .ok body, .ok extra =>
    let (store, registry) := Store.newRoot {}
    let (_, made) := Rendering.linkedDocument brief.marked registry (d.parent?.getD ⟨"."⟩) store
      (Markdown.tokenize (body ++ extra) brief.marked)
    (made.store.assetsOf registry).map (·.source)
  | _, _ => []

/-- The Markdown documents a document links to, in order of the first links. -/
def Brief.links (brief : Brief) (tree : FileTree) (d : Path) : List Path :=
  (brief.references tree d).filter (·.isMarkdown)

namespace Store

variable {r : RegistryId}

/-- A list is another one when its images are, and they tell the members of that one apart. -/
theorem eq_of_map_eq {α β : Type} {f : α → β} {l l' : List α} (hnodup : (l'.map f).Nodup)
    (hsub : ∀ x ∈ l, x ∈ l') (h : l.map f = l'.map f) : l = l' := by
  have hinj := List.inj_on_of_nodup_map hnodup
  have hlength : l.length = l'.length := by simpa using congrArg List.length h
  refine List.ext_getElem hlength fun i hi hi' => ?_
  have himage : f l[i] = f l'[i] := by
    have hget := congrArg (·[i]?) h
    simpa [hi, hi'] using hget
  exact hinj (hsub _ (List.getElem_mem hi)) (List.getElem_mem hi') himage

/-- The assets under some tokens, when each is of its origin and comes from a list. -/
theorem assets_of_each {s : Store} {origins : List String}
    (heach : s.Each fun t a => t = .ofOrigin a.source.text ∧ a.source.text ∈ origins)
    {slots : List (Token × CellId)} (hslots : ∀ slot ∈ slots, slot ∈ s.snapshot 0) :
    ((slots.filterMap fun (_, c) => s.asset? c).map fun a => Token.ofOrigin a.source.text) =
        slots.map Prod.fst ∧
      ∀ a ∈ slots.filterMap fun (_, c) => s.asset? c, a.source.text ∈ origins := by
  induction slots with
  | nil => exact ⟨rfl, nofun⟩
  | cons slot slots ih =>
    obtain ⟨t, c⟩ := slot
    obtain ⟨htokens, hall⟩ := ih fun slot hslot => hslots slot (List.mem_cons_of_mem _ hslot)
    obtain ⟨a, ha, htoken, hmem⟩ := heach (t, c) (hslots _ List.mem_cons_self)
    have hcons : ((t, c) :: slots).filterMap (fun (_, c) => s.asset? c) =
        a :: slots.filterMap fun (_, c) => s.asset? c := List.filterMap_cons_some ha
    rw [hcons]
    refine ⟨?_, fun a' ha' => ?_⟩
    · rw [List.map_cons, List.map_cons, htokens, ← htoken]
    · rcases List.mem_cons.1 ha' with rfl | ha'
      · exact hmem
      · exact hall a' ha'

/-- In a new root, the assets come from the origins in order of first use. -/
theorem sources_registerAll (origins : List String) :
    (((newRoot {}).1.registerAll 0 origins).assetsOf 0).map (·.source) =
      (firstOrigins [] origins).map Path.mk := by
  have hnone : (newRoot {}).1.tokens 0 = ([] : List String).map Token.ofOrigin := rfl
  have hdescends := (descends_newRoot.registerAll Nat.one_pos origins).1
  have htokens := tokens_registerAll descends_newRoot Nat.one_pos origins hnone
  have hempty : (newRoot {}).1.Each fun t a => t = .ofOrigin a.source.text ∧
      a.source.text ∈ firstOrigins [] origins := fun slot hslot => absurd hslot List.not_mem_nil
  have heach := hempty.registerAll descends_newRoot Nat.one_pos (fun _ _ _ h => h) origins hnone
    fun origin horigin _ => ⟨rfl, horigin⟩
  generalize (newRoot {}).1.registerAll 0 origins = s at hdescends htokens heach
  obtain ⟨hassets, hall⟩ := assets_of_each heach fun slot hslot => hslot
  have hnodup := hdescends.sound.nodup_tokens 0
  rw [htokens] at hnodup
  have htexts : (s.assetsOf 0).map (·.source.text) = firstOrigins [] origins := by
    refine eq_of_map_eq hnodup (fun o ho => ?_) ?_
    · obtain ⟨a, ha, rfl⟩ := List.mem_map.1 ho
      exact hall a ha
    · rw [List.map_map, ← htokens]
      exact hassets
  rw [← htexts, List.map_map]
  rfl

end Store

/-- The references of a readable document are those that its rendering registers. -/
theorem Brief.references_eq {brief : Brief} {tree : FileTree} {d : Path} {body extra : String}
    (hbody : tree.read d = .ok body) (hextra : brief.extra tree = .ok extra) :
    ∃ (result : Except MarkupError (List Char)) (origins : List String) (outline : List Heading),
      (∀ origin ∈ origins, ∃ target,
        origin = ((d.parent?.getD ⟨"."⟩).resolve target).text) ∧
      (∀ r store, Rendering.linkedDocument brief.marked r (d.parent?.getD ⟨"."⟩) store
        (Markdown.tokenize (body ++ extra) brief.marked) =
          (result, ⟨store.registerAll r origins, outline⟩)) ∧
      brief.references tree d = (Store.firstOrigins [] origins).map Path.mk := by
  obtain ⟨result, origins, outline, horigins, hrun⟩ := Rendering.linkedDocument_eq brief.marked
    (d.parent?.getD ⟨"."⟩) (Markdown.tokenize (body ++ extra) brief.marked)
  refine ⟨result, origins, outline, horigins, hrun, ?_⟩
  unfold references
  rw [hbody, hextra, ← Store.sources_registerAll]
  dsimp only
  rw [hrun]
  rfl

end Bindery
