import Bindery.Proofs.Html.StartTag
import Bindery.Selector

/-! The attributes a selector asks for, as they are read back from the tag. Their values hold no
double quote, so a selector whose attribute names are names reads as the attributes it lists. -/

namespace Bindery.Selector

open Html (readAttributes PlainName)

/-- No value that a selector gives holds a double quote. -/
structure QuoteFree (s : Selector) : Prop where
  id : ∀ name ∈ s.id, '\x22' ∉ name
  classes : ∀ name ∈ s.classes, '\x22' ∉ name
  attrs : ∀ a ∈ s.attrs, ∀ value ∈ a.2, '\x22' ∉ value

def Item.QuoteFree : Item → Prop
  | .id name | .cls name => '\x22' ∉ name
  | .attr _ value => ∀ text ∈ value, '\x22' ∉ text
  | .blank | .other _ => True

theorem quote_not_mem_word {name : List Char} (h : ∀ c ∈ name, Text.isWordChar c = true) :
    '\x22' ∉ name := fun hmem => absurd (h _ hmem) (by decide)

theorem quote_not_mem_unquote (value : List Char) : '\x22' ∉ unquote value := by
  intro hmem
  obtain ⟨c, -, hc⟩ := List.mem_flatMap.1 hmem
  split at hc
  · exact absurd hc (by decide)
  · rename_i hne
    exact hne (List.mem_singleton.1 hc).symm

theorem quoteFree_readAttr {body name : List Char} {value : Option (List Char)}
    (h : readAttr body = some (name, value)) : ∀ text ∈ value, '\x22' ∉ text := by
  unfold readAttr at h
  obtain ⟨-, h⟩ := Option.ite_none_left_eq_some.1 h
  split at h <;> cases h
  · rintro text ⟨⟩
    exact quote_not_mem_unquote _
  · nofun

theorem quoteFree_nextItem (c : Char) (cs : List Char) : (nextItem c cs).1.QuoteFree := by
  have hword : '\x22' ∉ cs.takeWhile Text.isWordChar :=
    quote_not_mem_word fun d hd => List.mem_takeWhile_imp hd
  unfold nextItem
  simp only
  split
  · split
    · trivial
    · split
      · exact hword
      · exact hword
  · split
    · split
      · split
        · rename_i hread
          exact quoteFree_readAttr hread
        · trivial
      · trivial
    · split <;> trivial

theorem quoteFree_items (skip : Nat) (cs : List Char) :
    ∀ item ∈ itemsFrom skip cs, item.QuoteFree := by
  induction cs generalizing skip with
  | nil => simp [itemsFrom]
  | cons c cs ih =>
    cases skip with
    | succ skip => exact ih skip
    | zero =>
      rw [itemsFrom]
      intro item hitem
      rcases List.mem_cons.1 hitem with rfl | hitem
      · exact quoteFree_nextItem c cs
      · exact ih _ item hitem

theorem mem_putAttr {name : List Char} {value : Option (List Char)}
    {attrs : List (List Char × Option (List Char))} {a : List Char × Option (List Char)}
    (h : a ∈ putAttr name value attrs) : a = (name, value) ∨ a ∈ attrs := by
  induction attrs with
  | nil => exact .inl (List.mem_singleton.1 h)
  | cons b attrs ih =>
    unfold putAttr at h
    split at h
    · rename_i hname
      rcases List.mem_cons.1 h with rfl | h
      · exact .inl (by rw [hname])
      · exact .inr (List.mem_cons_of_mem _ h)
    · rcases List.mem_cons.1 h with rfl | h
      · exact .inr List.mem_cons_self
      · exact (ih h).imp_right (List.mem_cons_of_mem _)

theorem quoteFree_collect {selector rest rest' : List Char} {items : List Item} {s s' : Selector}
    (hitems : ∀ item ∈ items, item.QuoteFree) (hs : s.QuoteFree)
    (h : collect selector items s rest = .ok (s', rest')) : s'.QuoteFree := by
  induction items generalizing s rest with
  | nil =>
    cases h
    exact hs
  | cons item items ih =>
    have hitem := hitems item List.mem_cons_self
    have hlater := fun other hother => hitems other (List.mem_cons_of_mem _ hother)
    cases item with
    | id name =>
      rw [collect] at h
      split at h
      · cases h
      · have hs' : QuoteFree { s with id := some name } :=
          ⟨fun other hother => Option.mem_some.1 hother ▸ hitem, hs.classes, hs.attrs⟩
        exact ih hlater hs' h
    | cls name =>
      rw [collect] at h
      refine ih hlater ?_ h
      split
      · exact hs
      · refine ⟨hs.id, fun other hother => ?_, hs.attrs⟩
        rcases List.mem_append.1 hother with hother | hother
        · exact hs.classes other hother
        · exact List.mem_singleton.1 hother ▸ hitem
    | attr name value =>
      rw [collect] at h
      have hs' : QuoteFree { s with attrs := putAttr name value s.attrs } := by
        refine ⟨hs.id, hs.classes, fun a ha => ?_⟩
        rcases mem_putAttr ha with rfl | ha
        · exact hitem
        · exact hs.attrs a ha
      exact ih hlater hs' h
    | blank => exact ih hlater hs h
    | other c => exact ih hlater hs h

theorem quoteFree_of_parse {title : List Char} {s : Selector} (h : parse title = .ok s) :
    s.QuoteFree := by
  unfold parse at h
  split at h
  · cases h
  · rename_i found rest hcollect
    split at h <;> cases h
    exact quoteFree_collect (quoteFree_items 0 title) ⟨by simp, by simp, by simp⟩ hcollect

/-- The attributes of a selector as names and values. -/
def pairs (s : Selector) : List (List Char × List Char) :=
  (s.id.map ("id".toList, ·)).toList ++
    (if s.classes.isEmpty then [] else [("class".toList, Text.join [' '] s.classes)]) ++
    s.attrs.map fun a => (a.1, a.2.getD [])

theorem quote_not_mem_join {names : List (List Char)} (h : ∀ name ∈ names, '\x22' ∉ name) :
    '\x22' ∉ Text.join [' '] names := by
  induction names with
  | nil => exact List.not_mem_nil
  | cons name names ih =>
    have hname := h name List.mem_cons_self
    cases names with
    | nil => exact hname
    | cons other names =>
      have hrest := ih fun n hn => h n (List.mem_cons_of_mem _ hn)
      rw [Text.join]
      · simp [hname, hrest]
      · simp

theorem readAttributes_quoted {name value : List Char} (h : PlainName name)
    (hvalue : '\x22' ∉ value) (rest : List Char) :
    readAttributes (quoted name value ++ rest) =
      (readAttributes rest).map fun found => ((name, value) :: found.1, found.2) := by
  have htext : quoted name value ++ rest =
      ' ' :: (name ++ '=' :: '\x22' :: (value ++ '\x22' :: rest)) := by simp [quoted]
  rw [htext, Html.readAttributes_space, Html.readAttributes_quoted h hvalue]

/-- An attribute as text to stand after a tag's name. -/
def attrPart (a : List Char × Option (List Char)) : List Char :=
  match a.2 with
  | some value => quoted a.1 value
  | none => ' ' :: a.1

/-- Attributes begin with a blank and the first name. -/
theorem exists_head {attrs : List (List Char × Option (List Char))}
    (hnames : ∀ a ∈ attrs, PlainName a.1) {c : Char} (hspace : Html.isTagSpace c = false)
    (hequals : c ≠ '=') (rest : List Char) :
    ∃ d more, attrs.flatMap attrPart ++ ' ' :: c :: rest = ' ' :: d :: more ∧
      Html.isTagSpace d = false ∧ d ≠ '=' := by
  cases attrs with
  | nil => exact ⟨c, rest, rfl, hspace, hequals⟩
  | cons a attrs =>
    have hname := hnames a List.mem_cons_self
    obtain ⟨d, name, hd⟩ := List.exists_cons_of_ne_nil hname.ne_nil
    have hplain := Html.endsName_eq_false.1 (hname.plain d (by rw [hd]; exact List.mem_cons_self))
    rw [List.flatMap_cons]
    unfold attrPart
    cases a.2 with
    | none => exact ⟨d, _, by rw [hd]; rfl, hplain.1, hplain.2.2.2⟩
    | some value => exact ⟨d, _, by rw [hd]; rfl, hplain.1, hplain.2.2.2⟩

theorem readAttributes_attrs {attrs : List (List Char × Option (List Char))}
    (hnames : ∀ a ∈ attrs, PlainName a.1) (hvalues : ∀ a ∈ attrs, ∀ value ∈ a.2, '\x22' ∉ value)
    {c : Char} (hspace : Html.isTagSpace c = false) (hequals : c ≠ '=') (rest : List Char) :
    readAttributes (attrs.flatMap attrPart ++ ' ' :: c :: rest) =
      (readAttributes (c :: rest)).map fun found =>
        (attrs.map (fun a => (a.1, a.2.getD [])) ++ found.1, found.2) := by
  induction attrs with
  | nil => simp [Html.readAttributes_space]
  | cons a attrs ih =>
    have hlater := fun b hb => hnames b (List.mem_cons_of_mem _ hb)
    have ih := ih hlater fun b hb => hvalues b (List.mem_cons_of_mem _ hb)
    have hname := hnames a List.mem_cons_self
    rw [List.flatMap_cons, List.append_assoc]
    cases hvalue : a.2 with
    | some value =>
      have hpart : attrPart a = quoted a.1 value := by rw [attrPart, hvalue]
      rw [hpart, readAttributes_quoted hname (hvalues a List.mem_cons_self value hvalue), ih]
      simp [hvalue, Function.comp_def]
    | none =>
      have hpart : attrPart a = ' ' :: a.1 := by rw [attrPart, hvalue]
      obtain ⟨d, more, hhead, hd, hdequals⟩ := exists_head hlater hspace hequals rest
      rw [hhead, Html.readAttributes_space] at ih
      rw [hpart, hhead, List.cons_append, Html.readAttributes_space,
        Html.readAttributes_bare hname hd hdequals, ih]
      simp [hvalue, Function.comp_def]

/-- A selector whose attribute names are names reads as the attributes it lists. -/
theorem readAttributes_attrText {s : Selector} (h : s.QuoteFree)
    (hnames : ∀ a ∈ s.attrs, PlainName a.1) {c : Char} (hspace : Html.isTagSpace c = false)
    (hequals : c ≠ '=') (rest : List Char) :
    readAttributes (s.attrText ++ ' ' :: c :: rest) =
      (readAttributes (c :: rest)).map fun found => (s.pairs ++ found.1, found.2) := by
  have hattrs := readAttributes_attrs hnames h.attrs hspace hequals rest
  have htext : s.attrText = (match s.id with
      | some id => quoted "id".toList id
      | none => []) ++
      (if s.classes.isEmpty then [] else quoted "class".toList (Text.join [' '] s.classes)) ++
      s.attrs.flatMap attrPart := rfl
  have hid : PlainName "id".toList := ⟨by simp, by simp [Html.endsName, Html.isTagSpace]⟩
  have hclass : PlainName "class".toList := ⟨by simp, by simp [Html.endsName, Html.isTagSpace]⟩
  have hclasses : readAttributes ((if s.classes.isEmpty then []
        else quoted "class".toList (Text.join [' '] s.classes)) ++
        (s.attrs.flatMap attrPart ++ ' ' :: c :: rest)) =
      (readAttributes (c :: rest)).map fun found =>
        ((if s.classes.isEmpty then [] else [("class".toList, Text.join [' '] s.classes)]) ++
          s.attrs.map (fun a => (a.1, a.2.getD [])) ++ found.1, found.2) := by
    split
    · simpa using hattrs
    · rw [readAttributes_quoted hclass (quote_not_mem_join h.classes), hattrs]
      simp [Function.comp_def]
  rw [htext, List.append_assoc, List.append_assoc]
  unfold pairs
  cases hvalue : s.id with
  | none => simpa using hclasses
  | some id =>
    simp only [readAttributes_quoted hid (h.id id hvalue), hclasses]
    simp [Function.comp_def]

end Bindery.Selector
