import Bindery.Proofs.Page.Expressions
import Bindery.Proofs.Template.Plain

/-! The content of a page, which is a template of its own. Without expressions it comes through as it
is, unless it holds one of the marks that are taken for those of blocks and comments. -/

namespace Bindery

namespace Html.Reference

theorem scanFrom_of_not_mem {html : List Char} (h : '<' ∉ html) (kept : List Char) :
    scanFrom kept html = [.text (kept.reverse ++ html)] := by
  induction html generalizing kept with
  | nil => rw [scanFrom_nil, List.append_nil]
  | cons c html ih =>
    rw [List.mem_cons, not_or] at h
    rw [scanFrom_cons (Ne.symm h.1), ih h.2, List.reverse_cons, List.append_assoc,
      List.singleton_append]

end Html.Reference

namespace Layout

open Html.Reference Template

/-- The page that is its content alone. -/
def contentPage : String := "\x7b\x7b content \x7d\x7d"

theorem templateOf_contentPage {l : Layout} (h : l.template = contentPage) (root : Path)
    (found : Piece → Option (List Char)) (htext : ∀ cs, found (.text cs) = none) :
    l.templateOf root found = contentPage.toList := by
  have hscan : scan contentPage.toList = [.text contentPage.toList] :=
    scanFrom_of_not_mem (by decide) []
  rw [templateOf, h, hscan, List.flatMap_singleton, tokened, htext]
  rfl

theorem render_contentPage (page : List Char) (values : List (String × Template.Value)) :
    Template.render .standard contentPage.toList
      (("content", .str (String.ofList page) true) :: values) = .ok page := by
  have hread : Template.Token.read .standard contentPage.toList =
      .ok [.outputOpen, .name "content", .outputClose] := by
    unfold contentPage
    rfl
  have hstatements : Statement.ofTokens [.outputOpen, .name "content", .outputClose] =
      .ok [.output (.var "content")] := rfl
  have hrun (s : Scope) (v : Template.Value) (hv : s.find? "content" = some v) :
      runAll s [.output (.var "content")] = .ok (printed s v ++ [], s) := by
    have heval : eval s (.var "content") = .ok v := by rw [eval, hv]; rfl
    rw [runAll, run, heval]
    rfl
  have hfound : (Scope.mk [("content", .str (String.ofList page) true) :: values] false []).find?
      "content" = some (.str (String.ofList page) true) := rfl
  rw [render_eq _ hread hstatements, hrun _ _ hfound, List.append_nil]
  exact congrArg Except.ok String.toList_ofList

theorem fill_contentPage (content : List Char) (headings : List Heading) (data : Json.Fields) :
    fill contentPage.toList content headings data =
      Template.render .content content (Template.Value.ofFields data) := by
  unfold fill
  dsimp only
  cases Template.render .content content (Template.Value.ofFields data) with
  | error e => rfl
  | ok page =>
    have hvalues : pageValues (String.ofList page) headings ++ Template.Value.ofFields data =
        ("content", .str (String.ofList page) true) ::
          ("headings", .list (headings.map fun h => Template.Value.ofJson h.toJson)) ::
            Template.Value.ofFields data := rfl
    have hbind (f : List Char → Except Fault (List Char)) : (Except.ok page >>= f) = f page := rfl
    rw [hbind, hvalues, render_contentPage]

theorem inline_content : Marks.content.Inline := by
  rintro (_ | _ | _) <;> decide

/-- Content without expressions is the page, less a final line end, exactly when it holds none of the
marks with which a block or a comment opens. Content that holds a block as a whole is not spoken of. -/
theorem render_content_iff {l : Layout} (htemplate : l.template = contentPage) {content : String}
    (hexpression : ¬ Marks.outputOpen <:+: content.toList)
    (hblock : ¬ (Marks.content.blockOpen <:+: content.toList ∧
      Marks.content.blockClose <:+: content.toList))
    (headings : List Heading) (data : Json.Fields) (r : RegistryId) (root : Path) (s : Bench) :
    (∃ page s', (l.render content headings data r root).run.run s = (.ok page, s') ∧
        FinalEol page.toList content.toList) ↔
      ¬ Marks.content.blockOpen <:+: content.toList ∧
        ¬ Marks.content.commentOpen <:+: content.toList := by
  have hfinal := finalEol_dropFinalEol content.toList
  have hsilent : Token.Silent .content content.toList ↔
      ¬ Marks.content.blockOpen <:+: content.toList ∧
        ¬ Marks.content.commentOpen <:+: content.toList := by
    refine ⟨fun h => ⟨h .block, h .comment⟩, fun h tag => ?_⟩
    cases tag with
    | output => exact hexpression
    | block => exact h.1
    | comment => exact h.2
  have hcommented : Token.Commented .content (Token.dropFinalEol content.toList) := by
    refine ⟨(hfinal.infix_iff (by decide) (by decide)).not.2 hexpression, fun hboth => hblock ?_⟩
    exact ⟨(hfinal.infix_iff (by decide) (by decide)).1 hboth.1,
      (hfinal.infix_iff (by decide) (by decide)).1 hboth.2⟩
  -- The page has no reference, so the template is what is filled in and the content is all that is read.
  obtain ⟨events, hrun⟩ := l.renders_target? root content headings data r s
  rw [templateOf_contentPage htemplate root _ fun _ => rfl, fill_contentPage] at hrun
  -- Without tags the template prints itself, and with a comment in it less: the two sides meet in `Silent`.
  rw [← hsilent, ← hfinal.silent_iff inline_content,
    ← render_eq_source_iff (fun tag => (inline_content tag).1) (Template.Value.ofFields data)
      hcommented, hrun]
  cases Template.render .content content.toList (Template.Value.ofFields data) with
  | error e =>
    refine iff_of_false ?_ nofun
    rintro ⟨page, s', hpage, -⟩
    cases hpage
  | ok page =>
    constructor
    · rintro ⟨text, s', hpage, htext⟩
      cases hpage
      rw [String.toList_ofList] at htext
      exact congrArg Except.ok htext.eq
    · intro hpage
      refine ⟨String.ofList page, _, rfl, ?_⟩
      rw [String.toList_ofList, Except.ok.inj hpage]
      exact hfinal

/-- Blocks with the marks of the page itself pass as they are, what begins with a mark of the content's
own does not. -/
theorem render_content_iff_marked :
    let l : Layout := ⟨none, contentPage⟩
    let marked := "\x7b% raw %\x7d\n"
    let commented := "a \x01# b"
    let s : Bench := { tree := {}, session := .fresh }
    (l.template = contentPage ∧ ¬ Marks.outputOpen <:+: marked.toList ∧
      ¬ (Marks.content.blockOpen <:+: marked.toList ∧ Marks.content.blockClose <:+: marked.toList)) ∧
      (∃ page s', (l.render marked [] [] 0 ⟨"/site"⟩).run.run s = (.ok page, s') ∧
        FinalEol page.toList marked.toList) ∧
      ¬ ∃ page s', (l.render commented [] [] 0 ⟨"/site"⟩).run.run s = (.ok page, s') ∧
        FinalEol page.toList commented.toList := by
  intro l marked commented s
  have hmarked : ¬ Marks.outputOpen <:+: marked.toList := by decide
  have hopen : ¬ (Marks.content.blockOpen <:+: marked.toList ∧
    Marks.content.blockClose <:+: marked.toList) := by decide
  have hcommented : ¬ Marks.outputOpen <:+: commented.toList := by decide
  have hunclosed : ¬ (Marks.content.blockOpen <:+: commented.toList ∧
    Marks.content.blockClose <:+: commented.toList) := by decide
  refine ⟨⟨rfl, hmarked, hopen⟩, ?_, ?_⟩
  · exact (render_content_iff (l := l) rfl hmarked hopen [] [] 0 _ s).2 (by decide)
  · rw [render_content_iff (l := l) rfl hcommented hunclosed [] [] 0]
    decide

end Layout
end Bindery
