import Bindery.Proofs.Project.Agreement

/-! Projects whose documents are all there. Throughout a run their documents are read as they were at
the start, and rendering one of them registers its references. -/

namespace Bindery

/-- The files that the documents of a run refer to. -/
def Brief.files (brief : Brief) (tree : FileTree) (entry : Path) : Set Path :=
  {p | ∃ d, Leads (brief.links tree) entry d ∧ p ∈ brief.references tree d}

/-- All that is needed to compile `entry` and what it leads to is there, and the files referred to
have tokens of their own. -/
structure Brief.Complete (brief : Brief) (tree : FileTree) (entry : Path) : Prop where
  plugins : brief.plugins = []
  root : brief.root.IsNormal
  normal : entry.IsNormal
  markdown : entry.isMarkdown = true
  declaration : ∀ path ∈ brief.declare, (brief.root.resolve path).isMarkdown = true ∧
    .up ∉ (brief.root.resolve path).components ∧
    ∃ text, tree.read (brief.root.resolve path) = .ok text
  documents : ∀ d, Leads (brief.links tree) entry d → brief.root.isWithin d = true ∧
    .up ∉ d.components ∧ brief.mapping.lookup d.text = none ∧ ∃ text, tree.read d = .ok text
  tokens : Set.InjOn (fun p : Path => Token.ofOrigin p.text) (brief.files tree entry)

/-- A document's directory. -/
theorem Path.exists_parent {d : Path} (h : d.IsNormal) (hd : d.isMarkdown = true) :
    ∃ dir, d.parent? = some dir ∧ dir.IsNormal := by
  obtain ⟨steps, s, -, hcomponents, -⟩ := Path.withExtension_html h hd
  have hparent : d.parent? = some (Path.rooted steps) := by
    unfold Path.parent?
    rw [hcomponents, List.reverse_cons, List.reverse_append]
    simp [Path.rooted]
  exact ⟨_, hparent, h.parent hparent⟩

namespace Brief

variable {brief : Brief} {tree : FileTree} {entry d : Path}

theorem declares_iff {text : String} :
    tree.Declares (brief.declare.map (brief.root.resolve ·)) text ↔ brief.extra tree = .ok text := by
  unfold FileTree.Declares extra
  cases brief.declare with
  | none => simp [eq_comm]
  | some path => exact Iff.rfl

theorem isNormal_of_mem_references {p : Path} (hd : d.IsNormal) (hmarkdown : d.isMarkdown = true)
    (hp : p ∈ brief.references tree d) : p.IsNormal := by
  cases hbody : tree.read d with
  | error f => simp [references, hbody] at hp
  | ok body =>
    cases hextra : brief.extra tree with
    | error f => simp [references, hbody, hextra] at hp
    | ok extra =>
      obtain ⟨-, origins, -, horigins, -, hreferences⟩ := references_eq hbody hextra
      obtain ⟨dir, hparent, hdir⟩ := Path.exists_parent hd hmarkdown
      rw [hreferences] at hp
      obtain ⟨origin, horigin, rfl⟩ := List.mem_map.1 hp
      have hmem := (Store.firstOrigins_subset [] origins origin horigin).resolve_left List.not_mem_nil
      obtain ⟨target, rfl⟩ := horigins origin hmem
      rw [hparent]
      exact Path.isNormal_resolve_of_absolute hdir.absolute target

namespace Complete

variable (h : brief.Complete tree entry)
include h

/-- What the entry leads to is a document like the entry. -/
theorem document (hd : Leads (brief.links tree) entry d) : d.IsNormal ∧ d.isMarkdown = true := by
  induction hd with
  | refl => exact ⟨h.normal, h.markdown⟩
  | tail _ hlink ih =>
    obtain ⟨hmem, hmarkdown⟩ := List.mem_filter.1 hlink
    exact ⟨isNormal_of_mem_references ih.1 ih.2 hmem, hmarkdown⟩

theorem isPlain (hd : Leads (brief.links tree) entry d) : d.IsPlain :=
  ⟨(h.document hd).1, (h.documents d hd).2.1⟩

theorem exists_extra : ∃ text, brief.extra tree = .ok text := by
  unfold extra
  cases hdeclare : brief.declare with
  | none => exact ⟨_, rfl⟩
  | some path => exact (h.declaration path hdeclare).2.2

/-- There are no more documents on their way than files. -/
theorem length_le {ds : List Path} (hnodup : ds.Nodup)
    (hds : ∀ d ∈ ds, Leads (brief.links tree) entry d) : ds.length ≤ tree.files.length :=
  FileTree.length_le_of_readable hnodup fun d hd =>
    ⟨h.isPlain (hds d hd), (h.documents d (hds d hd)).2.2.2⟩

/-- Later in the run a document is read as at the start. -/
theorem reads {t : FileTree} {doc : Document} (hd : Leads (brief.links tree) entry doc.source)
    (hkeeps : tree.KeepsDocuments t) (hreads : Bundle.Reads t brief doc) :
    Bundle.Reads tree brief doc := by
  obtain ⟨hoptions, body, extra, hbody, hextra, hnodes⟩ := hreads
  obtain ⟨text, htext⟩ := (h.documents _ hd).2.2.2
  have hsame := hkeeps _ text (h.document hd).2 (h.isPlain hd) htext
  obtain rfl : text = body := Except.ok.inj (hsame.symm.trans hbody)
  refine ⟨hoptions, text, extra, htext, ?_, hnodes⟩
  unfold FileTree.Declares at hextra ⊢
  cases hdeclare : brief.declare with
  | none =>
    rw [hdeclare] at hextra
    exact hextra
  | some path =>
    obtain ⟨hmarkdown, hup, text', htext'⟩ := h.declaration path hdeclare
    have hnormal := Path.isNormal_resolve_of_absolute h.root.absolute path
    have hsame' := hkeeps _ text' hmarkdown ⟨hnormal, hup⟩ htext'
    rw [hdeclare] at hextra
    obtain rfl : text' = extra := Except.ok.inj (hsame'.symm.trans hextra)
    exact htext'

/-- Rendering a document registers its references, which are files of the run. -/
theorem rendering {doc : Document} (hd : Leads (brief.links tree) entry doc.source)
    (hreads : Bundle.Reads tree brief doc) :
    ∃ (result : Except MarkupError (List Char)) (origins : List String) (outline : List Heading),
      (∀ r store, Rendering.linkedDocument doc.options r (doc.source.parent?.getD ⟨"."⟩) store
        doc.nodes = (result, ⟨store.registerAll r origins, outline⟩)) ∧
      brief.references tree doc.source = (Store.firstOrigins [] origins).map Path.mk ∧
      ∀ o ∈ Store.firstOrigins [] origins,
        (⟨o⟩ : Path) ∈ brief.files tree entry ∧ (⟨o⟩ : Path).IsNormal := by
  obtain ⟨hoptions, body, extra, hbody, hextra, hnodes⟩ := hreads
  obtain ⟨result, origins, outline, -, hrun, hreferences⟩ :=
    references_eq hbody (declares_iff.1 hextra)
  refine ⟨result, origins, outline, ?_, hreferences, fun o ho => ?_⟩
  · rw [hoptions, hnodes]
    exact hrun
  · have hmem : (⟨o⟩ : Path) ∈ brief.references tree doc.source :=
      hreferences ▸ List.mem_map_of_mem ho
    obtain ⟨hnormal, hmarkdown⟩ := h.document hd
    exact ⟨⟨doc.source, hd, hmem⟩, isNormal_of_mem_references hnormal hmarkdown hmem⟩

end Complete
end Brief
end Bindery
