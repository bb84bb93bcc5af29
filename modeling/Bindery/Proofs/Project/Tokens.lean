import Bindery.Proofs.Asset.Apart
import Bindery.Proofs.Listing
import Bindery.Proofs.Project.Sessions

/-! No token is left in a page. Every token that is asked for while a page is made is in the registry
of its bundle, by which it is replaced before the page is written or printed. -/

namespace Bindery

open Text Token Relocation

theorem Listing.foreign_mark : Foreign mark.toList := by
  refine ⟨by decide, fun c hc => ?_, by decide⟩
  have hall : mark.toList.all fun c => !c.isDigit && !([' ', '.', '\n', '='].contains c) := by decide
  simpa using List.all_eq_true.1 hall c hc

namespace Bundle

/-- The two ways in which the page of a bundle is made: for a program that asks for it, and for a
link, within the depth that is left. -/
inductive Writes : Making Generated → Making WriteReport → Prop
  | program : Writes generate write
  | link (depth : Nat) : Writes (generateWithin depth) (writeWithin depth)

/-- The text of a generated page with paths for its tokens, as it is written or printed in `s`. -/
def settled (g : Generated) (s : Bench) : String :=
  (g.plan.run g.html s.session.store g.registry).html

/-- From `s` to `s'` a page was put out: its text was written to the page's file before assets were
copied, or listed as the last thing that was printed. -/
inductive PutsOut (g : Generated) (s s' : Bench) : String → Prop
  | written {file : Path} (hfile : g.plan.outfile = some file) {tree : FileTree} {assets : List Asset}
    (hwrite : s.tree.write file (.text (settled g s)) = .ok tree)
    (hcopied : s'.tree = (copyAssets tree tree assets).1) : PutsOut g s s' (settled g s)
  | printed (hfile : g.plan.outfile = none) {text : String}
    (htext : text.toList = Listing.render Listing.printWidth (settled g s).toList)
    (hprinted : s'.session.events.getLast? = some (.printed text)) : PutsOut g s s' text

variable {b b' : Bundle} {s s' : Bench} {g : Generated}

theorem Writes.run {gen : Making Generated} {wr : Making WriteReport} (h : Writes gen wr)
    (b : Bundle) (s : Bench) : ∃ depth,
      (gen.run.run b).run s = ((generateWithin depth).run.run b).run s ∧
      (wr.run.run b).run s = ((writeWithin depth).run.run b).run s := by
  cases h with
  | program => exact ⟨_, run_generate b s, run_write b s⟩
  | link depth => exact ⟨depth, rfl, rfl⟩

/-- A generated page that is written or printed is put out. -/
theorem putsOut_of_run {depth : Nat} (hs : s'.Regular)
    (hgenerate : ((generateWithin depth).run.run b).run s = ((.ok g, b'), s'))
    {report : WriteReport} {b'' : Bundle} {s'' : Bench}
    (hwrite : ((writeWithin depth).run.run b).run s = ((.ok report, b''), s'')) :
    ∃ text, PutsOut g s' s'' text := by
  have hends : (writeWithin depth).Exits b s (fun _ _ s'' => ∃ text, PutsOut g s' s'' text)
      fun _ _ _ => True := by
    unfold writeWithin
    rw [Making.exits_bind_of_run hgenerate, Making.exits_bind, Making.exits_bundle, Making.exits_lift]
    refine exits_emit hs (fun _ _ _ _ => trivial) (fun hfile s'' _ hprinted => ?_)
      fun file tree assets report s'' hfile hwrite _ hcopied => ?_
    · exact ⟨_, .printed hfile String.toList_ofList hprinted⟩
    · exact ⟨_, .written hfile hwrite hcopied.tree⟩
  exact hends.ok hwrite

/-- What is put out shows nothing like a token that the page has not. -/
theorem PutsOut.markFree {text : String} (h : PutsOut g s s' text)
    (hfree : ¬ mark.toList <:+: (settled g s).toList) : ¬ mark.toList <:+: text.toList := by
  cases h with
  | written => exact hfree
  | printed _ htext _ => exact fun hin => hfree (Listing.foreign_mark.infix_of_infix_render (htext ▸ hin))

/-- Every token that is asked for while a page is generated is in the page's registry. So when
nothing but such tokens, standing apart, looks like a token in the page, and none of the paths that
take their places does, nothing that is put out for the page holds the mark of a token. -/
theorem write_markFree {bs : List Bundle} (h : s.Arises bs) (hb : b ∈ bs) {gen : Making Generated}
    {wr : Making WriteReport} (hways : Writes gen wr)
    (hgenerate : (gen.run.run b).run s = ((.ok g, b'), s')) :
    (∀ t, b.Emits s t → t ∈ s'.session.store.tokens g.registry) ∧
    (MarksApart (b.Emits s) (·.text) g.html.toList →
      (∀ e ∈ s'.session.store.entries g.registry, e.1.text.toList <:+: g.html.toList →
        ¬ mark.toList <:+: (g.plan.pathOf e).toList) →
      ∀ report b'' s'', (wr.run.run b).run s = ((.ok report, b''), s'') →
        ∃ text, PutsOut g s' s'' text ∧ ¬ mark.toList <:+: text.toList) := by
  obtain ⟨hregular, hall⟩ := h.regular
  obtain ⟨depth, hgen, hwr⟩ := hways.run b s
  rw [hgen] at hgenerate
  rw [hwr]
  obtain ⟨-, hs', -, hregistry, hcovered⟩ := ((hall b hb).exits_generateWithin hregular depth).ok
    hgenerate
  have hheld : ∀ t, b.Emits s t → t ∈ s'.session.store.tokens g.registry :=
    fun t ht => hregistry ▸ hcovered t ht
  refine ⟨hheld, fun hapart hclean report b'' s'' hwrite => ?_⟩
  obtain ⟨text, hout⟩ := putsOut_of_run hs' hgenerate hwrite
  have hwords := hapart.imp fun t ht => ⟨t, hheld t ht, rfl⟩
  exact ⟨text, hout, hout.markFree
    (not_infix_html_run hs'.reachable.sound g.registry g.plan hwords hclean)⟩

/-- A document with a link to another, in a layout that names a file. -/
def framed : FileTree := { files := [
  (["a.md"], .text "[](b.md)"), (["b.md"], .text ""),
  (["page"], .text "<a href=c>\x7b\x7bcontent\x7d\x7d")] }

def framedSettings : Settings :=
  { input := some (.one "a.md"), output := { dist := some ⟨"out"⟩, layout := some ⟨"page"⟩ } }

/-- The tokens of the document and of its layout give way to paths. -/
theorem write_markFree_framed : ∃ s b g b' s' report b'' s'' text, Bench.Arises s [b] ∧
    (generate.run.run b).run s = ((.ok g, b'), s') ∧
    g.html = "<a href=sitcom-asset-11c92819db47c474><p>" ++
      "<a href=\"sitcom-asset-fabfb30575fa19b2\"></a></p>" ∧
    (write.run.run b).run s = ((.ok report, b''), s'') ∧ PutsOut g s' s'' text ∧
    ¬ mark.toList <:+: text.toList := by
  have hasked : let made := (framedSettings.make ⟨"/"⟩).run.run { tree := framed, session := .fresh }
      made.1.toOption.map (fun b =>
        let loaded := (Layout.load b.output.layout b.brief.root).run.run made.2
        (b.documents.map (·.origins), loaded.1.toOption.map (·.origins b.brief.root))) =
      some ([["/b.md"]], some ["/c"]) := by
    decide +kernel
  have hpage : let made := (framedSettings.make ⟨"/"⟩).run.run { tree := framed, session := .fresh }
      made.1.toOption.map (fun b =>
        let out := (generate.run.run b).run made.2
        (out.1.1.toOption.map (fun g =>
          (g.html, (out.2.session.store.entries g.registry).map g.plan.pathOf)),
          ((write.run.run b).run made.2).1.1.toOption.isSome)) =
      some (some ("<a href=sitcom-asset-11c92819db47c474><p>" ++
        "<a href=\"sitcom-asset-fabfb30575fa19b2\"></a></p>", ["b.html", "c"]), true) := by
    decide +kernel
  generalize hmade : (framedSettings.make ⟨"/"⟩).run.run { tree := framed, session := .fresh } =
    made at hasked hpage
  obtain ⟨result, s⟩ := made
  cases result with
  | error f => cases hasked
  | ok b =>
    have hcwd : (⟨"/"⟩ : Path).IsNormal := ⟨rfl, by decide +kernel⟩
    have harises : s.Arises [b] := .make (.fresh framed rfl) hcwd hmade
    obtain ⟨hdocuments, hlayout⟩ := Prod.mk.inj (Option.some.inj hasked)
    obtain ⟨hgenerated, hwritten⟩ := Prod.mk.inj (Option.some.inj hpage)
    rcases hgenerate : (generate.run.run b).run s with ⟨⟨r, b'⟩, s'⟩
    rcases hwrite : (write.run.run b).run s with ⟨⟨r', b''⟩, s''⟩
    dsimp only at hgenerated hwritten
    rw [hgenerate] at hgenerated
    rw [hwrite] at hwritten
    cases r with
    | error f => cases hgenerated
    | ok g =>
      cases r' with
      | error f => cases hwritten
      | ok report =>
        obtain ⟨hhtml, hpaths⟩ := Prod.mk.inj (Option.some.inj hgenerated)
        have hemits : ∀ t ∈ [Token.ofOrigin "/b.md", .ofOrigin "/c"], b.Emits s t := by
          refine List.forall_mem_cons.2 ⟨?_, List.forall_mem_singleton.2 ?_⟩
          · obtain ⟨d, hd, horigins⟩ := List.map_eq_singleton_iff.1 hdocuments
            refine .document (hd ▸ List.mem_cons_self) ?_
            exact horigins.symm ▸ List.mem_cons_self
          · rcases hload : (Layout.load b.output.layout b.brief.root).run.run s with ⟨l, s₁⟩
            dsimp only at hlayout
            rw [hload] at hlayout
            cases l with
            | error f => cases hlayout
            | ok page =>
              have horigins : page.origins b.brief.root = ["/c"] := Option.some.inj hlayout
              exact .layout hload (horigins ▸ List.mem_cons_self)
        have hapart : MarksApart (· ∈ [Token.ofOrigin "/b.md", .ofOrigin "/c"]) (·.text)
            g.html.toList := by
          rw [hhtml]
          decide +kernel
        have hpath : ∀ path ∈ ["b.html", "c"], ¬ mark.toList <:+: path.toList := by decide
        have hclean : ∀ e ∈ s'.session.store.entries g.registry,
            e.1.text.toList <:+: g.html.toList → ¬ mark.toList <:+: (g.plan.pathOf e).toList :=
          fun e he _ => hpath _ (hpaths ▸ List.mem_map_of_mem he)
        obtain ⟨-, hfree⟩ := write_markFree harises List.mem_cons_self .program hgenerate
        obtain ⟨text, hout, htext⟩ := hfree (hapart.imp fun t ht => ⟨t, hemits t ht, rfl⟩) hclean
          report b'' s'' hwrite
        exact ⟨s, b, g, b', s', report, b'', s'', text, harises, hgenerate, hhtml, hwrite, hout, htext⟩

end Bundle
end Bindery
