import Bindery.Proofs.Project.Pages

/-! Where the paths in the pages of a run lead. When a project comes to an end, each path in a page
leads to a page or a copy of an asset, but for the paths that are named here. -/

namespace Bindery

variable {brief : Brief} {output : Output} {tree : FileTree} {s s' : Bench} {b : Bundle}

namespace Bundle

/-- What becomes of an asset that is copied. -/
structure Copied (before tree : FileTree) (a : Asset) (status : AssetStatus) : Prop where
  ok : status = .ok → ∃ target, a.target = some target ∧ tree.isFile target = true
  notFound : status = .notFound → before.isFile a.source = false
  outside : status = .outside → a.target = none

theorem Copied.of_grows {before t t' : FileTree} {a : Asset} {status : AssetStatus}
    (h : Copied before t a status) (hgrows : t.Grows t') : Copied before t' a status := by
  refine ⟨fun hok => ?_, h.notFound, h.outside⟩
  obtain ⟨target, htarget, hfile⟩ := h.ok hok
  exact ⟨target, htarget, FileTree.isFile_of_grows hgrows hfile⟩

theorem copyAsset_spec {before t : FileTree} {a : Asset} (hbefore : before.Grows t) :
    t.Grows (copyAsset before t a).1 ∧ ((∀ target ∈ a.target, target.IsNormal) →
      Copied before (copyAsset before t a).1 a (copyAsset before t a).2) := by
  unfold copyAsset
  cases htarget : a.target with
  | none => exact ⟨.refl t, fun _ => ⟨nofun, nofun, fun _ => htarget⟩⟩
  | some target =>
    dsimp only
    split
    · next hmissing => exact ⟨.refl t, fun _ => ⟨nofun, fun _ => by simpa using hmissing, nofun⟩⟩
    · next hfile =>
      split
      · next hsame =>
        refine ⟨.refl t, fun _ => ⟨fun _ => ⟨target, htarget, ?_⟩, nofun, nofun⟩⟩
        exact FileTree.isFile_of_grows hbefore (by simpa [hsame] using hfile)
      · split
        · next t' hcopy =>
          obtain ⟨c, hwrite⟩ := FileTree.exists_write_of_copy hcopy
          refine ⟨FileTree.grows_write hwrite, fun hnormal => ⟨fun _ => ?_, nofun, nofun⟩⟩
          exact ⟨target, htarget, FileTree.isFile_of_write (hnormal target rfl) hwrite⟩
        · exact ⟨.refl t, fun _ => ⟨nofun, nofun, nofun⟩⟩

/-- Every asset has a report, which tells what became of it. -/
theorem copyAssets_spec {before t : FileTree} (hbefore : before.Grows t) (assets : List Asset) :
    t.Grows (copyAssets before t assets).1 ∧ ∀ a ∈ assets, (∀ target ∈ a.target, target.IsNormal) →
      ∃ status, ⟨a.source, a.target, status⟩ ∈ (copyAssets before t assets).2 ∧
        Copied before (copyAssets before t assets).1 a status := by
  induction assets generalizing t with
  | nil => exact ⟨.refl t, nofun⟩
  | cons a assets ih =>
    obtain ⟨hgrows, hcopied⟩ := copyAsset_spec (a := a) hbefore
    obtain ⟨hgrows', hall⟩ := ih (hbefore.trans hgrows)
    refine ⟨hgrows.trans hgrows', fun a' ha' hnormal => ?_⟩
    rcases List.mem_cons.1 ha' with rfl | ha'
    · exact ⟨_, List.mem_cons_self, (hcopied hnormal).of_grows hgrows'⟩
    · obtain ⟨status, hreport, hrest⟩ := hall a' ha' hnormal
      exact ⟨status, List.mem_cons_of_mem _ hreport, hrest⟩

end Bundle

/-- Where a path in a page leads to. -/
def WrittenPage.leads (page : WrittenPage) (root : Path) (path : String) : Path :=
  (page.file.parent?.getD root).resolve ⟨path⟩

/-- Why a path in a page need not lead to a file. What it refers to was not there or was not
copied, or is a document that has no page, or has one that was asked for after the path was put. -/
inductive Astray (brief : Brief) (plan : Relocation) (tree : FileTree) (pages : List WrittenPage)
    (reports : List AssetReport) (t : Token) (a : Asset) (target : Path) : Prop
  | missing (hasset : a.isMarked = false) (hfile : tree.isFile a.source = false)
  | uncopied (f : FileFault) (hasset : a.isMarked = false)
      (hreport : ⟨a.source, a.target, .failed f⟩ ∈ reports)
  | gathered (d : Path) (hpage : a.isMarked = true) (htoken : t = .ofOrigin d.text)
      (hgathers : brief.Gathers d) (hnone : ∀ page ∈ pages, page.file ≠ target)
  | late (d : Path) (hpage : a.isMarked = true) (htoken : t = .ofOrigin d.text)
      (htarget : target = plan.goal d)

namespace Standing

variable {plan : Relocation} {s : Bench}

end Standing

theorem Output.isNormal_fileFor {entry : Entry} {root file : Path} (hroot : root.IsNormal)
    (h : output.fileFor entry root = some file) : file.IsNormal := by
  have hdist := output.isNormal_distDir hroot
  unfold fileFor at h
  split at h
  · exact Option.some.inj h ▸ Path.isNormal_resolve_of_absolute hdist.absolute _
  · exact Option.some.inj h ▸ Path.isNormal_resolve_of_absolute hroot.absolute _
  · obtain ⟨path, -, rfl⟩ := Option.map_eq_some_iff.1 h
    exact Path.isNormal_resolve_of_absolute hdist.absolute _
  · cases h

theorem Course.fresh (hfree : tree.hasFile [] = false) :
    Course brief output tree [] { tree, session := .fresh } := by
  have hnone : ∀ slot, slot ∉ Session.fresh.store.snapshot 0 := fun _ => List.not_mem_nil
  refine ⟨Store.descends_newRoot, fun slot hslot => absurd hslot (hnone slot), .refl tree, hfree, ?_⟩
  exact fun _ => ⟨fun slot hslot => absurd hslot (hnone slot), fun d hd => by simp [Bench.Takes, Session.fresh] at hd, nofun, nofun⟩

namespace Bundle

/-- A document with a picture, whose place is taken by a directory. -/
def blocked : FileTree where
  directories := [["out", "p.txt"], ["out"]]
  files := [(["a.md"], .text "![p](p.txt)"), (["p.txt"], .text "p"),
    (["l.html"], .text "\x7b\x7bcontent\x7d\x7d")]

end Bundle
end Bindery
