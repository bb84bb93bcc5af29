import Bindery.Page.Layout
import Bindery.Proofs.FileTree
import Bindery.Proofs.Html.Scan
import Bindery.Proofs.Rendering.References

/-! Where the template of a page is looked for and what it refers to. The standard page refers to
nothing. -/

namespace Bindery

namespace Layout

open Html.Reference

/-- A layout is looked for in a normal directory. -/
theorem isNormal_placeOf {t : FileTree} {path : Path} (h : path.IsNormal) :
    (placeOf t path).1.IsNormal := by
  unfold placeOf
  split
  · exact h
  · next hdir =>
    cases hparent : path.parent? with
    | some dir => exact h.parent hparent
    | none =>
      refine absurd ?_ hdir
      unfold FileTree.isDirectory
      rw [FileTree.locate_root (h.components_eq_of_parent hparent)]
      rfl

/-- So is its file. -/
theorem isNormal_file {t : FileTree} {path : Path} (h : path.IsNormal) :
    (placeOf t path).2.IsNormal := by
  have hname : (Component.name "index.html").IsStep := by
    unfold Component.IsStep
    decide +kernel
  unfold placeOf
  split
  · exact h.isNormal_join hname (by decide +kernel)
  · exact h

/-- The layout that is found in a file tree. -/
def Found (tree : FileTree) (root : Path) (layout : Option Path) (l : Layout) : Prop :=
  match layout with
  | none => l = {}
  | some path =>
    let place := placeOf tree (root.resolve path)
    l.dir = some place.1 ∧
      if tree.isFile place.2 = true then tree.read place.2 = .ok l.template
      else l.template = standardPage

theorem Found.dir_eq {tree : FileTree} {root : Path} {layout : Option Path} {l : Layout}
    (h : Found tree root layout l) :
    l.dir = layout.map fun path => (placeOf tree (root.resolve path)).1 := by
  cases layout with
  | none => exact congrArg Layout.dir h
  | some path => exact h.1

/-- The template is the text of the layout's file, or the standard page when there is none. -/
theorem Found.template_eq {tree : FileTree} {root path : Path} {l : Layout}
    (h : Found tree root (some path) l) :
    tree.isFile (placeOf tree (root.resolve path)).2 = true ∧
        tree.read (placeOf tree (root.resolve path)).2 = .ok l.template ∨
      tree.isFile (placeOf tree (root.resolve path)).2 = false ∧ l.template = standardPage := by
  unfold Found at h
  dsimp only at h
  generalize placeOf tree (root.resolve path) = place at h ⊢
  cases hfile : tree.isFile place.2 with
  | true =>
    rw [hfile] at h
    simp only [if_true] at h
    exact .inl ⟨rfl, h.2⟩
  | false =>
    rw [hfile] at h
    simp only [Bool.false_eq_true, if_false] at h
    exact .inr ⟨rfl, h.2⟩

theorem Found.unique {tree : FileTree} {root : Path} {layout : Option Path} {l l' : Layout}
    (h : Found tree root layout l) (h' : Found tree root layout l') : l = l' := by
  cases layout with
  | none => exact Eq.trans h (Eq.symm h')
  | some path =>
    have htemplate : l.template = l'.template := by
      rcases h.template_eq with ⟨hfile, htext⟩ | ⟨hfile, htext⟩ <;>
        rcases h'.template_eq with ⟨hfile', htext'⟩ | ⟨hfile', htext'⟩
      · exact Except.ok.inj (htext.symm.trans htext')
      · cases hfile.symm.trans hfile'
      · cases hfile.symm.trans hfile'
      · exact htext.trans htext'.symm
    calc l = ⟨l.dir, l.template⟩ := rfl
      _ = ⟨l'.dir, l'.template⟩ := by rw [h.dir_eq, h'.dir_eq, htemplate]
      _ = l' := rfl

theorem Found.isNormal_dir {tree : FileTree} {root : Path} {layout : Option Path} {l : Layout}
    (h : Found tree root layout l) (hroot : root.IsNormal) : ∀ dir ∈ l.dir, dir.IsNormal := by
  intro dir hdir
  rw [h.dir_eq] at hdir
  obtain ⟨path, -, rfl⟩ := Option.map_eq_some_iff.1 hdir
  exact isNormal_placeOf (Path.isNormal_resolve_of_absolute hroot.absolute path)

/-- The origins that a template registers. -/
def origins (l : Layout) (root : Path) : List String :=
  (targets l.template.toList).map fun target =>
    ((l.dir.getD root).resolve ⟨String.ofList target⟩).text

/-- Registers a target and gives its token. -/
def tokenFor (base : Path) (r : RegistryId) (target : List Char) : StateM Store (List Char) :=
  modifyGet fun store =>
    let (store, token) := Productions.register r base target store
    (token, store)

theorem run_redirectPieces (base : Path) (pieces : List Piece) :
    ∃ html, ∀ r store, (redirectPieces (tokenFor base r) pieces).run store =
      (html, store.registerAll r ((pieces.filterMap Piece.target?).map fun target =>
        (base.resolve ⟨String.ofList target⟩).text)) := by
  induction pieces with
  | nil => exact ⟨[], fun _ _ => rfl⟩
  | cons piece rest ih =>
    obtain ⟨html, hrun⟩ := ih
    have hkept : ∀ (cs : List Char) (r : RegistryId) (store : Store),
        (do
          let out ← redirectPieces (tokenFor base r) rest
          return cs ++ out : StateM Store (List Char)).run store =
        (cs ++ html, store.registerAll r ((rest.filterMap Piece.target?).map fun target =>
          (base.resolve ⟨String.ofList target⟩).text)) := by
      intro cs r store
      exact congrArg (fun q : List Char × Store => (cs ++ q.1, q.2)) (hrun r store)
    cases piece with
    | text cs => exact ⟨cs ++ html, hkept cs⟩
    | value cs =>
      simp only [redirectPieces, List.filterMap_cons, Piece.target?]
      cases localTarget cs with
      | none => exact ⟨cs ++ html, hkept cs⟩
      | some target =>
        refine ⟨(Token.ofOrigin (base.resolve ⟨String.ofList target⟩).text).text.toList ++ html,
          fun r store => ?_⟩
        have htoken := Store.token_register store r (base.resolve ⟨String.ofList target⟩).text none
        have hrest := hrun r (store.register r (base.resolve ⟨String.ofList target⟩).text none).1
        rw [← htoken]
        exact congrArg (fun q : List Char × Store => (_ ++ q.1, q.2)) hrest

/-- A template registers what it names, in order. What it becomes depends on no registry. -/
theorem run_withTokens (l : Layout) (root : Path) :
    ∃ html, ∀ r store, (l.withTokens r root).run store =
      (html, store.registerAll r (l.origins root)) :=
  run_redirectPieces (l.dir.getD root) (scan l.template.toList)

theorem origins_standard (dir : Option Path) (root : Path) : origins { dir } root = [] := by
  have hnone : targets standardPage.toList = [] := by
    simp only [standardPage, String.toList_intercalate, List.map_cons, List.map_nil,
      String.toList_append]
    decide +kernel
  unfold origins
  rw [hnone]
  rfl

end Layout
end Bindery
