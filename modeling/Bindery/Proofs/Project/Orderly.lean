import Bindery.Proofs.Project.Documents
import Bindery.Proofs.Project.Rounds
import Bindery.Proofs.Project.Standing
import Bindery.Proofs.Spread

/-! Projects whose pages get in the way of nothing that is read. However many of the pages have been
written, the documents, the declaration and the layout are found as they were at the start. -/

namespace Bindery

open FileTree (placeOf)

namespace Brief

/-- The documents that the input asks for. -/
def entries (brief : Brief) : List Path := brief.input.files brief.mapping brief.root

/-- A document that a run may come to. -/
def Reaches (brief : Brief) (tree : FileTree) (d : Path) : Prop :=
  ∃ e ∈ brief.entries, Leads (brief.links tree) e d

/-- The files that the documents and the layout of a run refer to. -/
def named (brief : Brief) (output : Output) (tree : FileTree) : Set Path :=
  {p | (∃ d, brief.Reaches tree d ∧ p ∈ brief.references tree d) ∨
    ∃ l, Layout.Found tree brief.root output.layout l ∧ p.text ∈ l.origins brief.root}

/-- A file that is read in a run. -/
inductive Text (brief : Brief) (output : Output) (tree : FileTree) : Path → Prop
  | document {d : Path} : brief.Reaches tree d → Text brief output tree d
  | declaration {path : Path} : path ∈ brief.declare → Text brief output tree (brief.root.resolve path)
  | layout {path : Path} : path ∈ output.layout →
      Text brief output tree (Layout.placeOf tree (brief.root.resolve path)).2

/-- The file of a linked document's page. -/
def pageFile (brief : Brief) (output : Output) (tree : FileTree) (l : Path) : Path :=
  (brief.plan output tree).goal (l.withExtension "html")

/-- The places of the pages of linked documents. -/
def pagePlaces (brief : Brief) (output : Output) (tree : FileTree) : Set Place :=
  {q | ∃ l, Paged (brief.links tree) brief.entries l ∧ q = placeOf (brief.pageFile output tree l)}

/-- The places of all pages. -/
def outputPlaces (brief : Brief) (output : Output) (tree : FileTree) : Set Place :=
  brief.pagePlaces output tree ∪
    {q | ∃ file, output.fileFor brief.input brief.root = some file ∧ q = placeOf file}

/-- The files that a run copies: those it refers to, but for the documents that are linked. -/
def carried (brief : Brief) (output : Output) (tree : FileTree) : Set Path :=
  {p | p ∈ brief.named output tree ∧ ∀ d, brief.Reaches tree d → p ∉ brief.links tree d}

/-- Nothing that is read in a run is under one of its pages, and a linked document stands for
itself. -/
structure Orderly (brief : Brief) (output : Output) (tree : FileTree) : Prop where
  plugins : brief.plugins = []
  root : brief.root.IsNormal
  sound : tree.Sound
  tokens : Set.InjOn (fun p : Path => Token.ofOrigin p.text) (brief.named output tree)
  mapping : ∀ d, brief.Reaches tree d → ∀ l ∈ brief.links tree d,
    brief.mapping.lookup l.text = none
  texts : ∀ p, brief.Text output tree p → placeOf p ∉ brief.pagePlaces output tree
  layout : ∀ path ∈ output.layout, ∀ q ∈ brief.pagePlaces output tree,
    placeOf (brief.root.resolve path) <+: q.dropLast →
    tree.hasDirectory (placeOf (brief.root.resolve path)) = true

/-- A document that can be read and rendered. -/
def Renders (brief : Brief) (tree : FileTree) (d : Path) : Prop :=
  ∃ body extra html, tree.read d = .ok body ∧ brief.extra tree = .ok extra ∧
    (Rendering.linkedDocument brief.marked 0 (d.parent?.getD ⟨"."⟩) {}
      (Markdown.tokenize (body ++ extra) brief.marked)).1 = .ok html

variable {brief : Brief} {output : Output} {tree t : FileTree} {d l : Path} {places : Set Place}

theorem reaches_of_mem (h : d ∈ brief.entries) : brief.Reaches tree d := ⟨d, h, .refl⟩

theorem Reaches.link (h : brief.Reaches tree d) (hl : l ∈ brief.links tree d) :
    brief.Reaches tree l := by
  obtain ⟨e, he, hleads⟩ := h
  exact ⟨e, he, hleads.tail hl⟩

theorem reaches_of_paged (h : Paged (brief.links tree) brief.entries l) : brief.Reaches tree l :=
  h.exists_leads

theorem isNormal_of_references {p : Path} (hparent : ∃ dir, d.parent? = some dir ∧ dir.IsNormal)
    (hp : p ∈ brief.references tree d) : p.IsNormal := by
  obtain ⟨dir, hparent, hdir⟩ := hparent
  cases hbody : tree.read d with
  | error f => simp [references, hbody] at hp
  | ok body =>
    cases hextra : brief.extra tree with
    | error f => simp [references, hbody, hextra] at hp
    | ok extra =>
      obtain ⟨-, origins, -, horigins, -, hreferences⟩ := references_eq hbody hextra
      rw [hreferences] at hp
      obtain ⟨origin, horigin, rfl⟩ := List.mem_map.1 hp
      have hmem := (Store.firstOrigins_subset [] origins origin horigin).resolve_left List.not_mem_nil
      obtain ⟨target, rfl⟩ := horigins origin hmem
      rw [hparent]
      exact Path.isNormal_resolve_of_absolute hdir.absolute target

theorem exists_read_of_references {p : Path} (hp : p ∈ brief.references tree d) :
    ∃ text, tree.read d = .ok text := by
  cases hbody : tree.read d with
  | error f => simp [references, hbody] at hp
  | ok body => exact ⟨body, rfl⟩

namespace Orderly

variable (h : brief.Orderly output tree)
include h

theorem normal (hd : brief.Reaches tree d) : d.IsNormal := by
  obtain ⟨e, he, hleads⟩ := hd
  induction hleads with
  | refl =>
    obtain ⟨path, -, rfl⟩ := List.mem_map.1 he
    exact Path.isNormal_resolve_of_absolute h.root.absolute ⟨path⟩
  | tail _ hlink ih =>
    have hmem := (List.mem_filter.1 hlink).1
    obtain ⟨text, hread⟩ := exists_read_of_references hmem
    exact isNormal_of_references (FileTree.exists_parent_of_read h.sound.hasFile_nil ih hread) hmem

theorem isNormal_text {p : Path} (hp : brief.Text output tree p) : p.IsNormal := by
  cases hp with
  | document hd => exact h.normal hd
  | @declaration path _ => exact Path.isNormal_resolve_of_absolute h.root.absolute path
  | @layout path _ =>
    exact Layout.isNormal_file (Path.isNormal_resolve_of_absolute h.root.absolute path)

variable (hspread : tree.Spread places t) (hplaces : places ⊆ brief.pagePlaces output tree)
include hspread hplaces

theorem read_iff {p : Path} (hp : brief.Text output tree p) {text : String} :
    t.read p = .ok text ↔ tree.read p = .ok text :=
  hspread.read_iff h.sound (h.isNormal_text hp) fun hmem => h.texts p hp (hplaces hmem)

/-- What is read of a document is what it was at the start. -/
theorem reads {doc : Document} (hd : brief.Reaches tree doc.source)
    (hreads : Bundle.Reads t brief doc) : Bundle.Reads tree brief doc := by
  obtain ⟨hoptions, body, extra, hbody, hextra, hnodes⟩ := hreads
  refine ⟨hoptions, body, extra, (h.read_iff hspread hplaces (.document hd)).1 hbody, ?_, hnodes⟩
  unfold FileTree.Declares at hextra ⊢
  cases hdeclare : brief.declare with
  | none =>
    rw [hdeclare] at hextra
    exact hextra
  | some path =>
    rw [hdeclare] at hextra
    exact (h.read_iff hspread hplaces (.declaration hdeclare)).1 hextra

/-- A text that cannot be read could not be read at the start. -/
theorem not_renders (hd : brief.Reaches tree d) {path : Path} {f : FileFault}
    (hpath : path = d ∨ path ∈ brief.declare.map (brief.root.resolve ·))
    (hread : t.read path = .error f) : ¬ brief.Renders tree d := by
  rintro ⟨body, extra, -, hbody, hextra, -⟩
  rcases hpath with rfl | hpath
  · cases hread.symm.trans ((h.read_iff hspread hplaces (.document hd)).2 hbody)
  · obtain ⟨path, hdeclare, rfl⟩ := Option.map_eq_some_iff.1 hpath
    unfold Brief.extra at hextra
    rw [hdeclare] at hextra
    cases hread.symm.trans ((h.read_iff hspread hplaces (.declaration hdeclare)).2 hextra)

theorem placeOf_layout (hsound : t.Sound) {path : Path} (hpath : path ∈ output.layout) :
    Layout.placeOf t (brief.root.resolve path) = Layout.placeOf tree (brief.root.resolve path) := by
  have hnormal := Path.isNormal_resolve_of_absolute h.root.absolute path
  have hdir : t.isDirectory (brief.root.resolve path) =
      tree.isDirectory (brief.root.resolve path) := by
    rw [Bool.eq_iff_iff, FileTree.isDirectory_iff hsound hnormal,
      FileTree.isDirectory_iff h.sound hnormal, hspread.directory]
    refine ⟨fun hdir => hdir.elim id ?_, .inl⟩
    rintro ⟨q, hq, hprefix⟩
    exact h.layout path hpath q (hplaces hq) hprefix
  unfold Layout.placeOf
  rw [hdir]

/-- The layout that is found is the one at the start. -/
theorem found_iff (hsound : t.Sound) {layout : Layout} :
    Layout.Found t brief.root output.layout layout ↔
      Layout.Found tree brief.root output.layout layout := by
  unfold Layout.Found
  cases hlayout : output.layout with
  | none => exact Iff.rfl
  | some path =>
    have hfile : brief.Text output tree (Layout.placeOf tree (brief.root.resolve path)).2 :=
      .layout hlayout
    have hnormal := h.isNormal_text hfile
    have hsame : t.isFile (Layout.placeOf tree (brief.root.resolve path)).2 =
        tree.isFile (Layout.placeOf tree (brief.root.resolve path)).2 := by
      rw [Bool.eq_iff_iff, FileTree.isFile_iff hsound hnormal, FileTree.isFile_iff h.sound hnormal,
        hspread.file]
      exact ⟨fun hor => hor.resolve_right fun hmem => h.texts _ hfile (hplaces hmem), .inl⟩
    dsimp only
    rw [h.placeOf_layout hspread hplaces hsound hlayout, hsame, h.read_iff hspread hplaces hfile]

end Orderly

variable {doc : Document}

/-- Rendering a document registers its references, and finds no fault when it can be rendered. -/
theorem Orderly.rendering (h : brief.Orderly output tree) (hd : brief.Reaches tree doc.source)
    (hreads : Bundle.Reads tree brief doc) :
    ∃ (result : Except MarkupError (List Char)) (origins : List String) (outline : List Heading),
      (∀ r store, Rendering.linkedDocument doc.options r (doc.source.parent?.getD ⟨"."⟩) store
        doc.nodes = (result, ⟨store.registerAll r origins, outline⟩)) ∧
      brief.references tree doc.source = (Store.firstOrigins [] origins).map Path.mk ∧
      (∀ o ∈ Store.firstOrigins [] origins,
        (⟨o⟩ : Path) ∈ brief.named output tree ∧ (⟨o⟩ : Path).IsNormal) ∧
      ((∃ html, result = .ok html) ↔ brief.Renders tree doc.source) := by
  obtain ⟨hoptions, body, extra, hbody, hextra, hnodes⟩ := hreads
  have hextra' := declares_iff.1 hextra
  obtain ⟨result, origins, outline, -, hrun, hreferences⟩ := references_eq hbody hextra'
  refine ⟨result, origins, outline, ?_, hreferences, fun o ho => ?_, ?_⟩
  · rw [hoptions, hnodes]
    exact hrun
  · have hmem : (⟨o⟩ : Path) ∈ brief.references tree doc.source :=
      hreferences ▸ List.mem_map_of_mem ho
    exact ⟨.inl ⟨doc.source, hd, hmem⟩, isNormal_of_references
      (FileTree.exists_parent_of_read h.sound.hasFile_nil (h.normal hd) hbody) hmem⟩
  · constructor
    · rintro ⟨html, rfl⟩
      exact ⟨body, extra, html, hbody, hextra', congrArg Prod.fst (hrun 0 {})⟩
    · rintro ⟨body', extra', html, hbody', hextra'', hhtml⟩
      obtain rfl := Except.ok.inj (hbody.symm.trans hbody')
      obtain rfl := Except.ok.inj (hextra'.symm.trans hextra'')
      exact ⟨html, (congrArg Prod.fst (hrun 0 {})).symm.trans hhtml⟩

end Brief
end Bindery
