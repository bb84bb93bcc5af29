import Bindery.Proofs.Project.Arrival
import Bindery.Proofs.Project.Copies
import Bindery.Proofs.Project.Sessions
import Bindery.Proofs.Rendering.Mentions

/-! What the order of the links changes. With the destinations in another order within its documents,
a project has the same documents, pages and copies. The order decides only whether a document with a
link to itself is found to return to itself. -/

namespace Bindery

namespace FileTree

/-- Two trees with files and directories in the same places. -/
structure SamePlaces (t t' : FileTree) : Prop where
  file : ∀ q, t'.hasFile q = t.hasFile q
  directory : ∀ q, t'.hasDirectory q = t.hasDirectory q

namespace SamePlaces

variable {t t' : FileTree}

theorem symm (h : t.SamePlaces t') : t'.SamePlaces t :=
  ⟨fun q => (h.file q).symm, fun q => (h.directory q).symm⟩

theorem follow_eq (h : t.SamePlaces t') (p : Place) (cs : List Component) :
    t'.follow p cs = t.follow p cs := by
  induction cs generalizing p with
  | nil => rfl
  | cons c cs ih => cases c <;> simp [follow, h.file, h.directory, ih]

theorem locate_eq (h : t.SamePlaces t') (p : Path) : t'.locate p = t.locate p := by
  unfold locate
  simp only [h.follow_eq, h.file, h.directory]

theorem isFile_eq (h : t.SamePlaces t') (p : Path) : t'.isFile p = t.isFile p := by
  unfold isFile
  simp only [h.locate_eq, h.file]

theorem isDirectory_eq (h : t.SamePlaces t') (p : Path) : t'.isDirectory p = t.isDirectory p := by
  unfold isDirectory
  simp only [h.locate_eq, h.directory]

theorem sound (h : t.SamePlaces t') (hsound : t.Sound) : t'.Sound where
  directories p hp front hfront := by
    rw [h.directory] at hp ⊢
    exact hsound.directories p hp front hfront
  parents p hp := by
    rw [h.file] at hp
    rw [h.directory]
    exact hsound.parents p hp
  apart p hp := by
    rw [h.file] at hp
    rw [h.directory]
    exact hsound.apart p hp

theorem admits (h : t.SamePlaces t') {p : Place} (hp : t.Admits p) : t'.Admits p where
  above q hq := (h.file q).trans (hp.above q hq)
  place := (h.directory p).trans hp.place

theorem fits (h : t.SamePlaces t') {places : Set Place} (hfits : t.Fits places) :
    t'.Fits places :=
  ⟨fun p hp => h.admits (hfits.admits p hp), hfits.level⟩

end SamePlaces

end FileTree

open FileTree (placeOf IsAbove)
open Productions (originsOf)
open Rendering (Shuffled linkedDocument mentions)

namespace Brief

/-- A document as it is rendered, with the declaration after it. -/
def nodes (brief : Brief) (tree : FileTree) (d : Path) : Except FileFault (List Markdown.Node) := do
  let body ← tree.read d
  let extra ← brief.extra tree
  return Markdown.tokenize (body ++ extra) brief.marked

/-- The files that a document names, read from the directory it is in. -/
def originsAt (d : Path) (nodes : List Markdown.Node) : List String :=
  originsOf (d.parent?.getD ⟨"."⟩) (mentions nodes)

/-- A document with the same destinations in another order, or one that cannot be read before and
after. -/
def Rewritten : Except FileFault (List Markdown.Node) → Except FileFault (List Markdown.Node) → Prop
  | .ok nodes, .ok nodes' => Shuffled nodes nodes'
  | .error _, .error _ => True
  | _, _ => False

/-- Two trees in which the documents of a run have the same destinations, in two orders. All else that
the run reads is the same, and no two files that a document names share a token. -/
structure Reordered (brief : Brief) (output : Output) (tree tree' : FileTree) : Prop where
  places : tree.SamePlaces tree'
  layout : ∀ l, Layout.Found tree' brief.root output.layout l ↔
    Layout.Found tree brief.root output.layout l
  documents : ∀ d, brief.Reaches tree d → Rewritten (brief.nodes tree d) (brief.nodes tree' d)
  tokens : ∀ d, brief.Reaches tree d → ∀ nodes, brief.nodes tree d = .ok nodes →
    ∀ o ∈ originsAt d nodes, ∀ o' ∈ originsAt d nodes, Token.ofOrigin o = .ofOrigin o' → o = o'

variable {brief : Brief} {output : Output} {tree tree' : FileTree} {d l : Path}

theorem nodes_eq_ok {nodes : List Markdown.Node} : brief.nodes tree d = .ok nodes ↔
    ∃ body extra, tree.read d = .ok body ∧ brief.extra tree = .ok extra ∧
      Markdown.tokenize (body ++ extra) brief.marked = nodes := by
  unfold Brief.nodes
  cases tree.read d with
  | error f => simp [bind, Except.bind]
  | ok body => cases brief.extra tree <;> simp [bind, Except.bind, pure, Except.pure]

theorem renders_iff : brief.Renders tree d ↔ ∃ nodes html, brief.nodes tree d = .ok nodes ∧
    (linkedDocument brief.marked 0 (d.parent?.getD ⟨"."⟩) {} nodes).1 = .ok html := by
  simp only [nodes_eq_ok]
  constructor
  · rintro ⟨body, extra, html, hbody, hextra, hhtml⟩
    exact ⟨_, html, ⟨body, extra, hbody, hextra, rfl⟩, hhtml⟩
  · rintro ⟨nodes, html, ⟨body, extra, hbody, hextra, rfl⟩, hhtml⟩
    exact ⟨body, extra, html, hbody, hextra, hhtml⟩

/-- A document that can be rendered refers to the files it names. -/
theorem references_of_renders {nodes : List Markdown.Node} {html : List Char}
    (hnodes : brief.nodes tree d = .ok nodes)
    (hhtml : (linkedDocument brief.marked 0 (d.parent?.getD ⟨"."⟩) {} nodes).1 = .ok html) :
    brief.references tree d = (Store.firstOrigins [] (originsAt d nodes)).map Path.mk := by
  obtain ⟨body, extra, hbody, hextra, rfl⟩ := nodes_eq_ok.1 hnodes
  obtain ⟨result, origins, outline, -, hrun⟩ := Rendering.linkedDocument_eq brief.marked
    (d.parent?.getD ⟨"."⟩) (Markdown.tokenize (body ++ extra) brief.marked)
  have hresult : result = .ok html := by
    rw [hrun] at hhtml
    exact hhtml
  have hstore : (Store.newRoot {}).1.registerAll 0 origins =
      (Store.newRoot {}).1.registerAll 0 (originsAt d (Markdown.tokenize (body ++ extra) brief.marked)) := by
    have hhtml' := (congrArg Prod.fst (hrun 0 (Store.newRoot {}).1)).trans hresult
    have hregistered := Rendering.store_linkedDocument hhtml'
    rw [hrun] at hregistered
    exact hregistered
  unfold references
  rw [hbody, hextra, ← Store.sources_registerAll, ← hstore]
  dsimp only
  rw [hrun]
  rfl

namespace Reordered

variable (h : brief.Reordered output tree tree')
include h

/-- A document that can be rendered can be rendered with its destinations in the other order. -/
theorem exists_nodes (hd : brief.Reaches tree d) (hrenders : brief.Renders tree d) :
    ∃ nodes nodes' html html', Shuffled nodes nodes' ∧
      (brief.nodes tree d = .ok nodes ∧
        (linkedDocument brief.marked 0 (d.parent?.getD ⟨"."⟩) {} nodes).1 = .ok html) ∧
      brief.nodes tree' d = .ok nodes' ∧
        (linkedDocument brief.marked 0 (d.parent?.getD ⟨"."⟩) {} nodes').1 = .ok html' := by
  obtain ⟨nodes, html, hnodes, hhtml⟩ := renders_iff.1 hrenders
  have hdocument := h.documents d hd
  rw [hnodes] at hdocument
  cases hnodes' : brief.nodes tree' d with
  | error f =>
    rw [hnodes'] at hdocument
    exact hdocument.elim
  | ok nodes' =>
    rw [hnodes'] at hdocument
    have hshuffled : Shuffled nodes nodes' := hdocument
    obtain ⟨hresults, -⟩ := hshuffled.likewise
    rcases hresults with ⟨e, he, -⟩ | ⟨-, html', -, hhtml'⟩
    · cases he.symm.trans hhtml
    · exact ⟨nodes, nodes', html, html', hshuffled, ⟨hnodes, hhtml⟩, rfl, hhtml'⟩

theorem renders (hd : brief.Reaches tree d) (hrenders : brief.Renders tree d) :
    brief.Renders tree' d := by
  obtain ⟨-, nodes', -, html', -, -, hnodes', hhtml'⟩ := h.exists_nodes hd hrenders
  exact renders_iff.2 ⟨nodes', html', hnodes', hhtml'⟩

theorem mem_references (hd : brief.Reaches tree d) (hrenders : brief.Renders tree d) {p : Path} :
    p ∈ brief.references tree' d ↔ p ∈ brief.references tree d := by
  obtain ⟨nodes, nodes', html, html', hshuffled, ⟨hnodes, hhtml⟩, hnodes', hhtml'⟩ :=
    h.exists_nodes hd hrenders
  have hmem : ∀ o, o ∈ originsAt d nodes ↔ o ∈ originsAt d nodes' :=
    hshuffled.mem_originsOf (d.parent?.getD ⟨"."⟩)
  have htokens := h.tokens d hd nodes hnodes
  have htokens' : ∀ o ∈ originsAt d nodes', ∀ o' ∈ originsAt d nodes',
      Token.ofOrigin o = .ofOrigin o' → o = o' := by
    intro o ho o' ho'
    exact htokens o ((hmem o).2 ho) o' ((hmem o').2 ho')
  rw [references_of_renders hnodes hhtml, references_of_renders hnodes' hhtml', List.mem_map,
    List.mem_map]
  simp only [Store.mem_firstOrigins htokens, Store.mem_firstOrigins htokens', hmem]

theorem plan_eq : brief.plan output tree' = brief.plan output tree := by
  unfold plan Output.layoutDir Layout.placeOf
  simp only [h.places.isDirectory_eq]

theorem pageFile_eq : brief.pageFile output tree' l = brief.pageFile output tree l := by
  unfold pageFile
  rw [h.plan_eq]

variable (hready : brief.Ready output tree)
include hready

/-- The documents that a run comes to have the same links, in two orders. -/
theorem sameLinks : SameLinks (brief.links tree) (brief.links tree') brief.entries := by
  intro e he d hleads l
  have hd : brief.Reaches tree d := ⟨e, he, hleads⟩
  unfold links
  rw [List.mem_filter, List.mem_filter, h.mem_references hd (hready.renders d hd)]

theorem reaches_iff : brief.Reaches tree' d ↔ brief.Reaches tree d := by
  have hlinks := h.sameLinks hready
  constructor
  · rintro ⟨e, he, hleads⟩
    exact ⟨e, he, (hlinks.leads he .refl).2 hleads⟩
  · rintro ⟨e, he, hleads⟩
    exact ⟨e, he, (hlinks.leads he .refl).1 hleads⟩

theorem mem_links (hd : brief.Reaches tree d) : l ∈ brief.links tree' d ↔ l ∈ brief.links tree d := by
  obtain ⟨e, he, hleads⟩ := hd
  exact (h.sameLinks hready e he d hleads l).symm

theorem named_eq : brief.named output tree' = brief.named output tree := by
  ext p
  have hdocuments : (∃ d, brief.Reaches tree' d ∧ p ∈ brief.references tree' d) ↔
      ∃ d, brief.Reaches tree d ∧ p ∈ brief.references tree d := by
    refine exists_congr fun d => ?_
    rw [h.reaches_iff hready]
    exact and_congr_right fun hd => h.mem_references hd (hready.renders d hd)
  exact or_congr hdocuments (exists_congr fun l => and_congr_left fun _ => h.layout l)

theorem carried_eq : brief.carried output tree' = brief.carried output tree := by
  ext p
  unfold carried
  rw [h.named_eq hready]
  refine and_congr_right fun _ => forall_congr' fun d => ?_
  rw [h.reaches_iff hready]
  exact imp_congr_right fun hd => not_congr (h.mem_links hready hd)

theorem pagePlaces_eq : brief.pagePlaces output tree' = brief.pagePlaces output tree := by
  ext q
  refine exists_congr fun l => ?_
  rw [(h.sameLinks hready).paged, h.pageFile_eq]

theorem outputPlaces_eq : brief.outputPlaces output tree' = brief.outputPlaces output tree := by
  unfold outputPlaces
  rw [h.pagePlaces_eq hready]

theorem text {p : Path} (hp : brief.Text output tree' p) : brief.Text output tree p := by
  cases hp with
  | document hd => exact .document ((h.reaches_iff hready).1 hd)
  | declaration hpath => exact .declaration hpath
  | layout hpath =>
    unfold Layout.placeOf
    rw [h.places.isDirectory_eq]
    exact .layout hpath

theorem orderly (ho : brief.Orderly output tree) : brief.Orderly output tree' where
  plugins := ho.plugins
  root := ho.root
  sound := h.places.sound ho.sound
  tokens := h.named_eq hready ▸ ho.tokens
  mapping d hd l hl := by
    have hd' := (h.reaches_iff hready).1 hd
    exact ho.mapping d hd' l ((h.mem_links hready hd').1 hl)
  texts p hp := by
    rw [h.pagePlaces_eq hready]
    exact ho.texts p (h.text hready hp)
  layout path hpath q hq hprefix := by
    rw [h.pagePlaces_eq hready] at hq
    rw [h.places.directory]
    exact ho.layout path hpath q hq hprefix

theorem ready : brief.Ready output tree' where
  renders d hd := by
    have hd' := (h.reaches_iff hready).1 hd
    exact h.renders hd' (hready.renders d hd')
  layout := by
    obtain ⟨l, hl⟩ := hready.layout
    exact ⟨l, (h.layout l).2 hl⟩
  room := by
    rw [h.outputPlaces_eq hready]
    exact h.places.fits hready.room

end Reordered

/-- The files that a run copies and finds, in the tree of the start or among its pages. -/
def found (brief : Brief) (output : Output) (tree : FileTree) : Set Path :=
  {p | p ∈ brief.carried output tree ∧
    (tree.hasFile (placeOf p) = true ∨ placeOf p ∈ brief.outputPlaces output tree)}

/-- No file is copied to a place above the place of another one. -/
def Uncrossed (brief : Brief) (output : Output) (tree : FileTree) : Prop :=
  ∀ p ∈ brief.found output tree, ∀ q ∈ brief.found output tree,
    ∀ t ∈ (brief.plan output tree).aim p, ∀ u ∈ (brief.plan output tree).aim q,
      ¬ IsAbove (placeOf t) (placeOf u)

end Brief

section Yield

variable {brief : Brief} {output : Output} {tree tree' mid : FileTree} {assets assets' : List Asset}
  {report report' : WriteReport} {s s' : Bench}

theorem Carries.sameAims (h : Carries brief output tree assets)
    (h' : Carries brief output tree assets') : SameAims assets assets' := by
  have hsub : ∀ {as as' : List Asset}, Carries brief output tree as → Carries brief output tree as' →
      ∀ source target, (∃ a ∈ as, a.source = source ∧ a.target = target) →
        ∃ a ∈ as', a.source = source ∧ a.target = target := by
    rintro as as' has has' source target ⟨a, ha, rfl, rfl⟩
    obtain ⟨hcarried, -, htarget⟩ := has.sound a ha
    obtain ⟨a', ha', hsource⟩ := has'.complete a.source hcarried
    obtain ⟨-, -, htarget'⟩ := has'.sound a' ha'
    exact ⟨a', ha', hsource, by rw [htarget', hsource, htarget]⟩
  exact fun source target => ⟨hsub h h' source target, hsub h' h source target⟩

/-- Files that do not cross do not get in each other's way among the pages. -/
theorem Carries.clear (h : Carries brief output tree assets) (hcrossed : brief.Uncrossed output tree)
    (hspread : tree.Spread (brief.outputPlaces output tree) mid) (hsound : mid.Sound) :
    Clear mid assets := by
  have hfound : ∀ a ∈ assets, mid.isFile a.source = true → a.source ∈ brief.found output tree := by
    intro a ha hfile
    obtain ⟨hcarried, hnormal, -⟩ := h.sound a ha
    exact ⟨hcarried, (hspread.file _).1 ((FileTree.isFile_iff hsound hnormal).1 hfile)⟩
  intro a ha hfile b hb hfile' t ht u hu
  obtain ⟨-, -, htarget⟩ := h.sound a ha
  obtain ⟨-, -, htarget'⟩ := h.sound b hb
  exact hcrossed _ (hfound a ha hfile) _ (hfound b hb hfile') t (htarget ▸ ht) u (htarget' ▸ hu)

/-- What two runs have in common that made the same pages and copied the same files to the same
places. The copies fare alike when none is in the way of another one. -/
structure SameYield (brief : Brief) (output : Output) (tree : FileTree)
    (report report' : WriteReport) (s s' : Bench) : Prop where
  pages : ∀ file, s'.HasPage file ↔ s.HasPage file
  aims : ∀ source target, (∃ r ∈ report'.assets, r.source = source ∧ r.target = target) ↔
    ∃ r ∈ report.assets, r.source = source ∧ r.target = target
  copies : brief.Uncrossed output tree →
    (∀ r, r ∈ report'.assets ↔ r ∈ report.assets) ∧ ∀ q, s'.tree.hasFile q = s.tree.hasFile q

theorem Arrives.sameYield (h : Arrives brief output tree report s)
    (h' : Arrives brief output tree' report' s') (ho : brief.Orderly output tree)
    (hr : brief.Reordered output tree tree') : SameYield brief output tree report report' s s' := by
  have hready := h.ready
  have ho' := hr.orderly hready ho
  obtain ⟨mid, assets, hspread, hcarries, htree, hassets⟩ := h.copies
  obtain ⟨mid', assets', hspread', hcarries', htree', hassets'⟩ := h'.copies
  have hsound := hspread.sound ho.sound hready.room
  have hsound' := hspread'.sound ho'.sound h'.ready.room
  rw [hr.outputPlaces_eq hready] at hspread'
  have hcarries₁ : Carries brief output tree assets' := by
    refine ⟨fun a ha => ?_, fun p hp => ?_⟩
    · obtain ⟨hcarried, hnormal, htarget⟩ := hcarries'.sound a ha
      rw [hr.carried_eq hready] at hcarried
      rw [hr.plan_eq] at htarget
      exact ⟨hcarried, hnormal, htarget⟩
    · rw [← hr.carried_eq hready] at hp
      exact hcarries'.complete p hp
  have haims := hcarries.sameAims hcarries₁
  have hfiles : ∀ q, mid'.hasFile q = mid.hasFile q := by
    intro q
    rw [Bool.eq_iff_iff, hspread'.file, hspread.file, hr.places.file]
  have hdirectories : ∀ q, mid'.hasDirectory q = mid.hasDirectory q := by
    intro q
    rw [Bool.eq_iff_iff, hspread'.directory, hspread.directory, hr.places.directory]
  refine ⟨fun file => ?_, fun source target => ?_, fun hcrossed => ?_⟩
  · rw [h'.pages, h.pages]
    simp only [(hr.sameLinks hready).paged, hr.pageFile_eq]
  · rw [hassets, hassets', Bundle.aims_of_reports, Bundle.aims_of_reports]
    exact (haims source target).symm
  · obtain ⟨hreports, hlies⟩ := Bundle.copyAssets_reordered hfiles hdirectories hsound hsound'
      (fun a ha => (hcarries.sound a ha).2.1) (fun a ha => (hcarries'.sound a ha).2.1) haims
      (hcarries.clear hcrossed hspread hsound)
    rw [hassets, hassets', htree, htree']
    exact ⟨hreports, hlies⟩

end Yield

namespace Bundle

variable {brief : Brief} {output : Output} {tree tree' : FileTree}

/-- The depth that a run in a new session is given is never used up. -/
theorem exits_compile (hroot : brief.root.IsNormal) (hfree : tree.hasFile [] = false) :
    (compile brief output).Exits { tree, session := .fresh } (fun _ _ => True)
      fun f _ => f ≠ .tooDeep := by
  have hregular := Bench.Arises.regular_fresh hfree
  unfold compile
  rw [Work.exits_bind]
  refine exits_make hregular Nat.one_pos (fun f _ hf _ => hf) fun b s hbegun => ?_
  have hhoused : b.Housed brief output s := hbegun.housed brief.input output.data hregular hroot
  rw [Making.exits_within]
  refine ((hhoused.atHand hroot).exits_write hbegun.stocks.regular).mono (fun _ _ _ _ => trivial) ?_
  rintro f b' s' ⟨-, hfalls⟩ heq
  exact hfalls.depth heq

/-- When a run over a project succeeds, a run with the destinations in another order succeeds as well
and yields the same, but for faults of the template in the other text, and unless a document of the
input with a link to itself is now found to return to itself before that link. -/
theorem compile_reordered (ho : brief.Orderly output tree) (hr : brief.Reordered output tree tree')
    {file : Path} (hfile : output.fileFor brief.input brief.root = some file) :
    let run (t : FileTree) := (compile brief output).run.run { tree := t, session := .fresh }
    ∀ report s, run tree = (.ok report, s) →
      (∃ report' s', run tree' = (.ok report', s') ∧ SameYield brief output tree report report' s s' ∧
        ∀ e, ¬ StopsAt (brief.links tree') brief.entries e) ∨
      ∃ f s', run tree' = (.error f, s') ∧ ((∃ t, f = .template t) ∨
        ∃ e ∈ brief.entries, f = .cycle e ∧ StopsAt (brief.links tree') brief.entries e ∧
          e ∈ brief.links tree e) := by
  intro run report s hrun
  change (compile brief output).run.run { tree, session := .fresh } = _ at hrun
  have harrives : Arrives brief output tree report s := by
    have hends := arrives_compile ho hfile
    unfold Work.Ends at hends
    rwa [hrun] at hends
  have hready := harrives.ready
  have ho' := hr.orderly hready ho
  have hends := arrives_compile ho' hfile
  have hexits : (compile brief output).Exits { tree := tree', session := .fresh } (fun _ _ => True)
      fun f _ => f ≠ .tooDeep := exits_compile ho'.root ho'.sound.hasFile_nil
  unfold Work.Ends at hends
  unfold Work.Exits at hexits
  rcases hrun' : (compile brief output).run.run { tree := tree', session := .fresh } with
    ⟨result, s'⟩
  rw [hrun'] at hends hexits
  cases result with
  | ok report' => exact .inl ⟨report', s', hrun', harrives.sameYield hends ho hr, hends.free⟩
  | error f =>
    refine .inr ⟨f, s', hrun', ?_⟩
    rcases hends with (hdeep | htemplate | hunready) | ⟨e, he, hcycle, hstops⟩
    · exact absurd hdeep hexits
    · exact .inl htemplate
    · exact absurd (hr.ready hready) hunready
    · exact .inr ⟨e, he, hcycle, hstops, (hr.sameLinks hready).self_mem (harrives.free e) hstops⟩

/-- The documents `a.md`, which holds a text, and `b.md`, which links to `a.md`. -/
def tied (text : String) : FileTree := { files := [
  (["a.md"], .text text), (["b.md"], .text "[](a.md)"), (["page"], .text "")] }

/-- The documents link to each other, and before that `a.md` links to itself. -/
def knot : FileTree := tied "[](a.md)[](b.md)"

/-- The documents link to each other, and after that `a.md` links to itself. -/
def noose : FileTree := tied "[](b.md)[](a.md)"

def knotBrief : Brief := { input := .one "a.md", root := ⟨"/"⟩ }

def knotOutput : Output := { dist := some ⟨"out"⟩, layout := some ⟨"page"⟩ }

def knotDocuments : List Path := [⟨"/a.md"⟩, ⟨"/b.md"⟩]

theorem samePlaces_tied (text text' : String) : (tied text).SamePlaces (tied text') where
  file q := by
    simp only [tied, FileTree.hasFile, FileTree.content?, List.lookup_cons]
    cases q == ["a.md"] <;> rfl
  directory _ := rfl

theorem placeOf_tied (text : String) :
    Layout.placeOf (tied text) (knotBrief.root.resolve ⟨"page"⟩) = (⟨"/"⟩, ⟨"/page"⟩) := by
  have hpath : knotBrief.root.resolve ⟨"page"⟩ = ⟨"/page"⟩ := rfl
  have hdir : (tied text).isDirectory ⟨"/page"⟩ = false := by
    rw [(samePlaces_tied "" text).isDirectory_eq]
    rfl
  have hparent : Path.parent? ⟨"/page"⟩ = some ⟨"/"⟩ := rfl
  unfold Layout.placeOf
  rw [hpath, hdir, hparent]
  rfl

theorem found_tied (text : String) :
    Layout.Found (tied text) knotBrief.root knotOutput.layout ⟨some ⟨"/"⟩, ""⟩ := by
  have hfile : (tied text).isFile ⟨"/page"⟩ = true := rfl
  have hread : (tied text).read ⟨"/page"⟩ = .ok "" := rfl
  unfold Layout.Found knotOutput
  dsimp only
  rw [placeOf_tied, if_pos hfile]
  exact ⟨rfl, hread⟩

theorem entries_knot : knotBrief.entries = [⟨"/a.md"⟩] := rfl

/-- Two links, to `first` and to `second`. -/
def pairOfLinks (first second : String) : List Markdown.Node :=
  [.paragraph [.link first none [], .link second none []]]

/-- What `b.md` holds. -/
def soleLink : List Markdown.Node := [.paragraph [.link "a.md" none []]]

/-- Whether the nodes are links to the destinations, each without title and text. -/
def areLinks : List String → List Markdown.Node → Bool
  | [], [] => true
  | url :: urls, .link url' none [] :: links => url == url' && areLinks urls links
  | _, _ => false

def isLinkParagraph (urls : List String) : List Markdown.Node → Bool
  | [.paragraph links] => areLinks urls links
  | _ => false

theorem eq_of_areLinks {urls : List String} {links : List Markdown.Node}
    (h : areLinks urls links = true) : links = urls.map (.link · none []) := by
  fun_induction areLinks urls links with
  | case1 => rfl
  | case2 url urls url' links ih =>
    obtain ⟨hurl, hlinks⟩ := Bool.and_eq_true_iff.1 h
    rw [List.map_cons, ← ih hlinks, beq_iff_eq.1 hurl]
  | case3 => cases h

theorem eq_of_isLinkParagraph {urls : List String} {nodes : List Markdown.Node}
    (h : isLinkParagraph urls nodes = true) : nodes = [.paragraph (urls.map (.link · none []))] := by
  unfold isLinkParagraph at h
  split at h
  · rw [eq_of_areLinks h]
  · cases h

theorem isLinkParagraph_tokenize : ∀ x ∈ [("[](a.md)[](b.md)", ["a.md", "b.md"]),
      ("[](b.md)[](a.md)", ["b.md", "a.md"]), ("[](a.md)", ["a.md"])],
    isLinkParagraph x.2 (Markdown.tokenize (x.1 ++ "") knotBrief.marked) = true := by
  decide +kernel

theorem nodes_knot : knotBrief.nodes knot ⟨"/a.md"⟩ = .ok (pairOfLinks "a.md" "b.md") :=
  Brief.nodes_eq_ok.2 ⟨"[](a.md)[](b.md)", "", rfl, rfl,
    eq_of_isLinkParagraph (isLinkParagraph_tokenize (_, ["a.md", "b.md"]) (by simp))⟩

theorem nodes_noose : knotBrief.nodes noose ⟨"/a.md"⟩ = .ok (pairOfLinks "b.md" "a.md") :=
  Brief.nodes_eq_ok.2 ⟨"[](b.md)[](a.md)", "", rfl, rfl,
    eq_of_isLinkParagraph (isLinkParagraph_tokenize (_, ["b.md", "a.md"]) (by simp))⟩

theorem nodes_tied (text : String) : knotBrief.nodes (tied text) ⟨"/b.md"⟩ = .ok soleLink :=
  Brief.nodes_eq_ok.2 ⟨"[](a.md)", "", rfl, rfl,
    eq_of_isLinkParagraph (isLinkParagraph_tokenize (_, ["a.md"]) (by simp))⟩

theorem originsAt_pairOfLinks :
    Brief.originsAt ⟨"/a.md"⟩ (pairOfLinks "a.md" "b.md") = ["/a.md", "/b.md"] := rfl

theorem originsAt_soleLink : Brief.originsAt ⟨"/b.md"⟩ soleLink = ["/a.md"] := rfl

theorem mem_originsAt_knot {d : Path} (hd : d ∈ knotDocuments) {nodes : List Markdown.Node}
    (hnodes : knotBrief.nodes knot d = .ok nodes) {o : String} (ho : o ∈ Brief.originsAt d nodes) :
    ⟨o⟩ ∈ knotDocuments := by
  rcases List.mem_pair.1 hd with rfl | rfl
  · obtain rfl := Except.ok.inj (nodes_knot.symm.trans hnodes)
    rw [originsAt_pairOfLinks] at ho
    rcases List.mem_pair.1 ho with rfl | rfl <;> simp [knotDocuments]
  · obtain rfl := Except.ok.inj ((nodes_tied _).symm.trans hnodes)
    rw [originsAt_soleLink] at ho
    obtain rfl := List.mem_singleton.1 ho
    simp [knotDocuments]

theorem references_knot_of_nodes {t : FileTree} {d : Path} (hparent : d.parent? = some ⟨"/"⟩)
    {nodes : List Markdown.Node} (hnodes : knotBrief.nodes t d = .ok nodes)
    (hmem : nodes ∈ [pairOfLinks "a.md" "b.md", pairOfLinks "b.md" "a.md", soleLink]) :
    knotBrief.references t d =
      (Store.firstOrigins [] (Brief.originsAt d nodes)).map Path.mk := by
  have hrender : (linkedDocument knotBrief.marked 0 ⟨"/"⟩ {} nodes).1.isOk = true := by
    simp only [List.mem_cons, List.not_mem_nil, or_false] at hmem
    rcases hmem with rfl | rfl | rfl <;> rfl
  cases hhtml : (linkedDocument knotBrief.marked 0 ⟨"/"⟩ {} nodes).1 with
  | error e =>
    rw [hhtml] at hrender
    cases hrender
  | ok html => exact Brief.references_of_renders hnodes (by rw [hparent]; exact hhtml)

theorem references_knot {d : Path} (hd : d ∈ knotDocuments) {p : Path}
    (hp : p ∈ knotBrief.references knot d) : p ∈ knotDocuments := by
  obtain ⟨nodes, hnodes, hmem, hparent⟩ : ∃ nodes, knotBrief.nodes knot d = .ok nodes ∧
      nodes ∈ [pairOfLinks "a.md" "b.md", pairOfLinks "b.md" "a.md", soleLink] ∧
        d.parent? = some ⟨"/"⟩ := by
    rcases List.mem_pair.1 hd with rfl | rfl
    · exact ⟨_, nodes_knot, by simp, rfl⟩
    · exact ⟨_, nodes_tied _, by simp, rfl⟩
  rw [references_knot_of_nodes hparent hnodes hmem] at hp
  obtain ⟨o, ho, rfl⟩ := List.mem_map.1 hp
  exact mem_originsAt_knot hd hnodes
    ((Store.firstOrigins_subset [] _ o ho).resolve_left List.not_mem_nil)

theorem token_ne_knot : Token.ofOrigin "/b.md" ≠ Token.ofOrigin "/a.md" := by decide +kernel

theorem distinct_knot {p q : Path} (hp : p ∈ knotDocuments) (hq : q ∈ knotDocuments)
    (htoken : Token.ofOrigin p.text = .ofOrigin q.text) : p = q := by
  rcases List.mem_pair.1 hp with rfl | rfl <;> rcases List.mem_pair.1 hq with rfl | rfl
  · rfl
  · exact absurd htoken.symm token_ne_knot
  · exact absurd htoken token_ne_knot
  · rfl

theorem mem_of_reaches_knot {d : Path} (h : knotBrief.Reaches knot d) : d ∈ knotDocuments := by
  obtain ⟨e, he, hleads⟩ := h
  rw [entries_knot] at he
  have hentry : e ∈ knotDocuments := List.mem_singleton.1 he ▸ List.mem_cons_self
  have hlinks : ∀ d ∈ knotDocuments, ∀ l ∈ knotBrief.links knot d, l ∈ knotDocuments :=
    fun d hd l hl => references_knot hd (List.mem_filter.1 hl).1
  exact hleads.closed hlinks hentry

theorem pageFile_knot : knotBrief.pageFile knotOutput knot ⟨"/b.md"⟩ = ⟨"/out/b.html"⟩ := by
  have hplan : knotBrief.plan knotOutput knot = ⟨⟨"/"⟩, ⟨"/out"⟩, some ⟨"/"⟩, none⟩ := rfl
  have hpage : Path.withExtension ⟨"/b.md"⟩ "html" = ⟨"/b.html"⟩ := rfl
  have hgoal : (⟨⟨"/"⟩, ⟨"/out"⟩, some ⟨"/"⟩, none⟩ : Relocation).goal ⟨"/b.html"⟩ =
      ⟨"/out/b.html"⟩ := rfl
  rw [Brief.pageFile, hplan, hpage, hgoal]

theorem eq_of_mem_pagePlaces_knot {q : Place} (hq : q ∈ knotBrief.pagePlaces knotOutput knot) :
    q = ["out", "b.html"] := by
  obtain ⟨l, ⟨before, e, after, hsplit, -, hne, hleads⟩, hplace⟩ := hq
  have hmem : e ∈ knotBrief.entries := by
    rw [hsplit]
    exact List.mem_append_right _ List.mem_cons_self
  have hl := mem_of_reaches_knot ⟨e, hmem, hleads⟩
  rw [entries_knot] at hmem
  rcases List.mem_pair.1 hl with rfl | rfl
  · exact absurd (List.mem_singleton.1 hmem).symm hne
  · rw [hplace, pageFile_knot]
    rfl

theorem orderly_knot : knotBrief.Orderly knotOutput knot where
  plugins := rfl
  root := ⟨rfl, rfl⟩
  sound := FileTree.sound_of_flat rfl (by decide)
  tokens := by
    have hnamed : ∀ p ∈ knotBrief.named knotOutput knot, p ∈ knotDocuments := by
      rintro p (⟨d, hd, hp⟩ | ⟨l, hl, hp⟩)
      · exact references_knot (mem_of_reaches_knot hd) hp
      · have hnone : Layout.origins ⟨some ⟨"/"⟩, ""⟩ knotBrief.root = [] := by
          simp [Layout.origins, Html.Reference.targets, Html.Reference.scan,
            Html.Reference.scanFrom_nil, Html.Reference.Piece.target?]
        rw [hl.unique (found_tied _), hnone] at hp
        cases hp
    exact fun p hp q hq => distinct_knot (hnamed p hp) (hnamed q hq)
  mapping _ _ _ _ := rfl
  texts p hp hmem := by
    have hplace := eq_of_mem_pagePlaces_knot hmem
    cases hp with
    | document hd =>
      have ha : placeOf ⟨"/a.md"⟩ = ["a.md"] := rfl
      have hb : placeOf ⟨"/b.md"⟩ = ["b.md"] := rfl
      rcases List.mem_pair.1 (mem_of_reaches_knot hd) with rfl | rfl
      · rw [ha] at hplace
        exact absurd hplace (by decide)
      · rw [hb] at hplace
        exact absurd hplace (by decide)
    | declaration hpath => cases hpath
    | layout hpath =>
      obtain rfl := Option.some.inj hpath
      have hpage : placeOf ⟨"/page"⟩ = ["page"] := rfl
      rw [knot, placeOf_tied, hpage] at hplace
      exact absurd hplace (by decide)
  layout path hpath q hq hprefix := by
    obtain rfl := Option.some.inj hpath
    have hplace : placeOf (knotBrief.root.resolve ⟨"page"⟩) = ["page"] := rfl
    rw [hplace, eq_of_mem_pagePlaces_knot hq] at hprefix
    exact absurd hprefix (by decide)

theorem shuffled_pairOfLinks :
    Shuffled (pairOfLinks "a.md" "b.md") (pairOfLinks "b.md" "a.md") := by
  let turned (url : String) : String := if url = "a.md" then "b.md" else "a.md"
  refine ⟨pairOfLinks "a.md" "b.md", id, turned, (Markdown.Node.relinkAll_id _).symm, ?_, ?_⟩
  · simp [pairOfLinks, Markdown.Node.relinkAll, Markdown.Node.relink, turned]
  · have hmentions : mentions (pairOfLinks "a.md" "b.md") = ["a.md".toList, "b.md".toList] := rfl
    have hmentions' : mentions (pairOfLinks "b.md" "a.md") = ["b.md".toList, "a.md".toList] := rfl
    rw [hmentions, hmentions']
    exact .swap _ _ _

theorem reordered_knot : knotBrief.Reordered knotOutput knot noose where
  places := samePlaces_tied _ _
  layout l := by
    constructor
    · intro hl
      rw [hl.unique (found_tied _)]
      exact found_tied _
    · intro hl
      rw [hl.unique (found_tied _)]
      exact found_tied _
  documents d hd := by
    rcases List.mem_pair.1 (mem_of_reaches_knot hd) with rfl | rfl
    · rw [nodes_knot, nodes_noose]
      exact shuffled_pairOfLinks
    · rw [knot, noose, nodes_tied, nodes_tied]
      exact Shuffled.refl _
  tokens d hd nodes hnodes o ho o' ho' htoken :=
    have hmem {o : String} (ho : o ∈ Brief.originsAt d nodes) : (⟨o⟩ : Path) ∈ knotDocuments :=
      mem_originsAt_knot (mem_of_reaches_knot hd) hnodes ho
    congrArg Path.text (distinct_knot (hmem ho) (hmem ho') htoken)

theorem stopsAt_noose : StopsAt (knotBrief.links noose) knotBrief.entries ⟨"/a.md"⟩ := by
  have hmarkdown : Path.isMarkdown ⟨"/a.md"⟩ = true ∧ Path.isMarkdown ⟨"/b.md"⟩ = true :=
    ⟨rfl, rfl⟩
  have hlinks : knotBrief.links noose ⟨"/a.md"⟩ = [⟨"/b.md"⟩, ⟨"/a.md"⟩] := by
    have horigins : Brief.originsAt ⟨"/a.md"⟩ (pairOfLinks "b.md" "a.md") = ["/b.md", "/a.md"] :=
      rfl
    have hfirst : Store.firstOrigins [] ["/b.md", "/a.md"] = ["/b.md", "/a.md"] := by
      simp [Store.firstOrigins, Store.keepFirst, token_ne_knot.symm]
    unfold Brief.links
    rw [references_knot_of_nodes rfl nodes_noose (by simp), horigins, hfirst]
    simp [hmarkdown]
  have hback : knotBrief.links noose ⟨"/b.md"⟩ = [⟨"/a.md"⟩] := by
    have hnodes : knotBrief.nodes noose ⟨"/b.md"⟩ = .ok soleLink := nodes_tied _
    have hfirst : Store.firstOrigins [] ["/a.md"] = ["/a.md"] := rfl
    unfold Brief.links
    rw [references_knot_of_nodes rfl hnodes (by simp), originsAt_soleLink, hfirst]
    simp [hmarkdown]
  refine ⟨[], [], entries_knot, fun _ hd => absurd hd List.not_mem_nil, [], ⟨"/b.md"⟩,
    [⟨"/a.md"⟩], hlinks, fun hmem => absurd hmem List.not_mem_nil, by decide, ?_⟩
  exact .single (by rw [hback]; exact List.mem_singleton_self _)

/-- The run succeeds over the knot, and not when the links of `a.md` are exchanged. -/
theorem compile_reordered_knot :
    let run (t : FileTree) := (compile knotBrief knotOutput).run.run { tree := t, session := .fresh }
    (∃ report s, run knot = (.ok report, s)) ∧ ∀ report s, run noose ≠ (.ok report, s) := by
  intro run
  have hok : (run knot).1.isOk = true := by decide +kernel
  rcases hrun : run knot with ⟨result, s⟩
  rw [hrun] at hok
  cases result with
  | error f => cases hok
  | ok report =>
    refine ⟨⟨report, s, rfl⟩, fun report' s' hrun' => ?_⟩
    have hfile : knotOutput.fileFor knotBrief.input knotBrief.root = some ⟨"/out/a.html"⟩ := rfl
    rcases compile_reordered orderly_knot reordered_knot hfile report s hrun with
      ⟨-, -, -, -, hfree⟩ | ⟨f, s'', hfails, -⟩
    · exact hfree ⟨"/a.md"⟩ stopsAt_noose
    · have hfails' : run noose = (.error f, s'') := hfails
      rw [hrun'] at hfails'
      cases hfails'

end Bundle
end Bindery
