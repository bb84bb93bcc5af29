import Bindery.Proofs.Asset.RelocatedTag
import Bindery.Proofs.Html.Unescape
import Bindery.Proofs.Selector.Grammar

/-! The attributes of a selector in the tag that they are put into. Their values cannot end the
attribute they stand in, but their names are put there as they are, and a bracket may name what is no
name in a tag, or what the tag names itself. -/

namespace Bindery

namespace Html

/-- No name that is read holds what ends a name, but for an equals sign at its front. -/
theorem readPart_attribute {cs rest name value : List Char}
    (h : readPart cs = some (.attribute name value, rest)) :
    ∀ c ∈ name, endsName c = true → c = '=' := by
  unfold readPart at h
  split at h
  · cases h
  · next d more hdrop =>
    have hstart : isTagSpace d = false ∧ d ≠ '/' := by
      have hstop := List.head?_dropWhile_not (fun c => isTagSpace c || c == '/') cs
      rw [hdrop] at hstop
      simpa using hstop
    split at h
    · cases h
    · next hclose =>
      have hname : name = d :: more.takeWhile (!endsName ·) := by
        dsimp only at h
        split at h
        · obtain ⟨found, -, hfound⟩ := Option.map_eq_some_iff.1 h
          cases hfound
          rfl
        · cases h
          rfl
      intro c hc hends
      rw [hname] at hc
      rcases List.mem_cons.1 hc with rfl | hc
      · by_contra hequals
        rw [endsName_eq_false.2 ⟨hstart.1, hstart.2, hclose, hequals⟩] at hends
        cases hends
      · have hstays := List.mem_takeWhile_imp hc
        rw [hends] at hstays
        cases hstays

theorem readAttributes_names {cs rest : List Char} {attributes : List (List Char × List Char)}
    (h : readAttributes cs = some (attributes, rest)) :
    ∀ a ∈ attributes, ∀ c ∈ a.1, endsName c = true → c = '=' := by
  induction hlength : cs.length using Nat.strong_induction_on generalizing cs rest attributes with
  | _ length ih =>
    rw [readAttributes_eq] at h
    split at h
    · cases h
    · cases h
      simp
    · next name value more hpart =>
      obtain ⟨⟨found, rest'⟩, hfound, heq⟩ := Option.map_eq_some_iff.1 h
      cases heq
      intro a ha
      rcases List.mem_cons.1 ha with rfl | ha
      · exact readPart_attribute hpart
      · exact ih _ (hlength ▸ length_readPart hpart) hfound rfl a ha

theorem readStartTag_names {cs rest : List Char} {tag : StartTag}
    (h : readStartTag cs = some (tag, rest)) :
    ∀ a ∈ tag.attributes, ∀ c ∈ a.1, endsName c = true → c = '=' := by
  unfold readStartTag at h
  split at h
  · obtain ⟨-, h⟩ := Option.ite_none_right_eq_some.1 h
    obtain ⟨found, hfound, heq⟩ := Option.map_eq_some_iff.1 h
    cases heq
    exact readAttributes_names hfound
  · cases h

/-- A name without regard to case. -/
def foldName (name : List Char) : List Char := name.map Char.toLower

/-- Of several values with one key, the first. -/
def firstOfEach {α : Type} : List (List Char × α) → List (List Char × α)
  | [] => []
  | a :: rest => a :: (firstOfEach rest).filter (·.1 ≠ a.1)

/-- The attributes that an element gets from its start tag: names do not differ in case, and of
several with one name the first counts. -/
def StartTag.given (tag : StartTag) : List (List Char × List Char) :=
  firstOfEach (tag.attributes.map fun a => (foldName a.1, a.2))

section Given

variable {α : Type}

theorem firstOfEach_sublist (l : List (List Char × α)) : (firstOfEach l).Sublist l := by
  induction l with
  | nil => exact .slnil
  | cons a l ih => exact (List.filter_sublist.trans ih).cons_cons a

theorem firstOfEach_eq_iff {l : List (List Char × α)} :
    firstOfEach l = l ↔ (l.map Prod.fst).Nodup := by
  induction l with
  | nil => simp [firstOfEach]
  | cons a l ih =>
    rw [firstOfEach, List.cons.injEq, List.map_cons, List.nodup_cons, ← ih]
    constructor
    · rintro ⟨-, h⟩
      have hall : firstOfEach l = l := by
        refine (firstOfEach_sublist l).eq_of_length_le ?_
        conv_lhs => rw [← h]
        exact List.length_filter_le _ _
      refine ⟨fun hmem => ?_, hall⟩
      obtain ⟨b, hb, hkey⟩ := List.mem_map.1 hmem
      rw [← h] at hb
      simpa [hkey] using (List.mem_filter.1 hb).2
    · rintro ⟨hkey, hall⟩
      refine ⟨rfl, ?_⟩
      rw [hall, List.filter_eq_self]
      intro b hb
      have hne : b.1 ≠ a.1 := fun heq => hkey (heq ▸ List.mem_map_of_mem hb)
      simpa using hne

end Given

theorem lt_of_endsName {c : Char} (h : endsName c = true) : c.toNat < 65 := by
  simp only [endsName, isTagSpace, Bool.or_eq_true, List.contains_iff_mem] at h
  rcases h with h | h <;>
  simpa using List.all_eq_true.1 (by decide : List.all _ (fun d : Char => decide (d.toNat < 65)) = true) c h

/-- No letter ends a name, so what does is the same in either case. -/
theorem toLower_of_endsName {c : Char} (h : endsName c = true ∨ endsName c.toLower = true) :
    c.toLower = c := by
  by_contra hne
  have hupper : 65 ≤ c.toNat ∧ c.toNat ≤ 90 := by
    by_contra hn
    exact hne (dif_neg hn)
  have hfold : c.toLower.toNat = c.toNat + 32 := by
    have hval : c.toLower.val = c.val + 32 := congrArg Char.val (dif_pos hupper)
    have hlt : c.val.toNat ≤ 90 := hupper.2
    show c.toLower.val.toNat = c.val.toNat + 32
    rw [hval, UInt32.toNat_add]
    exact Nat.mod_eq_of_lt (Nat.lt_of_le_of_lt (Nat.add_le_add_right hlt 32) (by decide))
  rcases h with h | h
  · exact absurd (lt_of_endsName h) (by omega)
  · exact absurd (lt_of_endsName h) (by omega)

/-- A name that is read in some case is plain when nothing but an equals sign could be wrong with
it. -/
theorem plain_of_foldName {name other : List Char} (h : foldName name = foldName other)
    (hother : ∀ c ∈ other, endsName c = true → c = '=') (hequals : '=' ∉ name) :
    ∀ c ∈ name, endsName c = false := by
  intro c hc
  by_contra hends
  rw [Bool.not_eq_false] at hends
  have hmem : c ∈ foldName other := by
    rw [← h, ← toLower_of_endsName (.inl hends)]
    exact List.mem_map_of_mem hc
  obtain ⟨d, hd, hfold⟩ := List.mem_map.1 hmem
  have hsame : d = c := by
    rw [← hfold] at hends ⊢
    exact (toLower_of_endsName (.inr hends)).symm
  subst hsame
  exact hequals (hother d hd hends ▸ hc)

end Html

namespace Selector

open Html (PlainName)

theorem Reads.names {cs : List Char} {items : List Item} (h : Reads cs items) :
    ∀ a ∈ attrsOf items, ∃ body, Names body a.1 a.2 := by
  induction h with
  | nil => simp [attrsOf]
  | cons h _ ih =>
    cases h with
    | attr _ h => exact List.forall_mem_cons.2 ⟨⟨_, h⟩, ih⟩
    | blank | id | cls => exact ih

theorem Names.ne_nil {body name : List Char} {value : Option (List Char)}
    (h : Names body name value) : name ≠ [] := by
  cases h <;> assumption

theorem mem_of_mem_trim {c : Char} {cs : List Char} (h : c ∈ Text.trim cs) : c ∈ cs := by
  obtain ⟨back, hcs, -⟩ := Text.exists_trim cs
  rw [hcs]
  exact List.mem_append_left _ (List.mem_append_right _ h)

theorem Names.no_equals {body name : List Char} {value : Option (List Char)}
    (h : Names body name value) : '=' ∉ name := by
  cases h with
  | bare hequals _ => exact fun hmem => hequals (mem_of_mem_trim hmem)
  | valued hequals _ _ => exact fun hmem => hequals (mem_of_mem_trim hmem)

/-- A bracket names something, with no equals sign in it. -/
theorem name_of_parse {text : List Char} {s : Selector} (h : parse text = .ok s) :
    ∀ a ∈ s.attrs, a.1 ≠ [] ∧ '=' ∉ a.1 := by
  obtain ⟨-, hnone, rfl⟩ := parse_eq_ok_iff.1 h
  have hreads : Reads text (items text) := reads_iff.2 ⟨scans_iff.2 rfl, hnone⟩
  intro a ha
  obtain ⟨name, hname, rfl⟩ := List.mem_map.1 ha
  obtain ⟨pair, hpair, rfl⟩ := List.mem_map.1 (List.mem_eraseDups.1 hname)
  obtain ⟨body, hbody⟩ := hreads.names pair hpair
  exact ⟨hbody.ne_nil, hbody.no_equals⟩

end Selector

namespace Referrer

open Html (readStartTag PlainName escapeAttr StartTag decode readEscape foldName)

/-- What a tag says with the attributes of a selector: those first, then the reference, and what is
written behind it. -/
def said (s : Selector) (href : List Char) (title : Option (List Char)) (x : Referrer) : StartTag where
  name := x.name
  attributes := s.pairs ++ (x.key, escapeAttr href) :: x.others title

theorem readStartTag_write {s : Selector} (hs : s.QuoteFree) (hnames : ∀ a ∈ s.attrs, PlainName a.1)
    (options : Markdown.Options) (href : List Char) (title : Option (List Char)) (x : Referrer) :
    readStartTag (x.write options s.attrText href title) = some (x.said s href title, x.tail) := by
  rw [write_eq_around, around, readStartTag_front (whole_attrText hs hnames) x
    (Html.quote_not_mem_escapeAttr href), readAttributes_back]
  rfl

/-- The tag of a selector reads as it says exactly when its brackets name what is a name in a tag.
The element is given all that the tag says, the reference among it, exactly when moreover no two of
these names are the same. -/
theorem reads_write_iff {text : List Char} {s : Selector} (h : Selector.parse text = .ok s)
    (options : Markdown.Options) (href : List Char) (title : Option (List Char)) (x : Referrer) :
    let html := x.write options s.attrText href title
    let tag := x.said s href title
    decode readEscape (escapeAttr href) = href ∧
    (readStartTag html = some (tag, x.tail) ↔ ∀ a ∈ s.attrs, PlainName a.1) ∧
    ((∃ read, readStartTag html = some (read, x.tail) ∧ read.name = tag.name ∧
        read.given = tag.attributes.map fun a => (foldName a.1, a.2)) ↔
      (∀ a ∈ s.attrs, PlainName a.1) ∧ (tag.attributes.map fun a => foldName a.1).Nodup) := by
  intro html tag
  have hnamed := Selector.name_of_parse h
  have hplain (hnames : ∀ a ∈ s.attrs, PlainName a.1) : readStartTag html = some (tag, x.tail) :=
    readStartTag_write (Selector.quoteFree_of_parse h) hnames options href title x
  have hsaid : ∀ a ∈ s.attrs, ∃ b ∈ tag.attributes, b.1 = a.1 := by
    intro a ha
    refine ⟨(a.1, a.2.getD []), ?_, rfl⟩
    exact List.mem_append_left _ (List.mem_append_right _ (List.mem_map_of_mem ha))
  have hgiven : tag.given = tag.attributes.map (fun a => (foldName a.1, a.2)) ↔
      (tag.attributes.map fun a => foldName a.1).Nodup := by
    rw [StartTag.given, Html.firstOfEach_eq_iff, List.map_map]
    rfl
  refine ⟨Html.decode_escapeAttr href, ⟨fun hread a ha => ?_, hplain⟩, ?_⟩
  · obtain ⟨b, hb, hname⟩ := hsaid a ha
    have hnames := Html.readStartTag_names hread b hb
    rw [hname] at hnames
    exact ⟨(hnamed a ha).1, Html.plain_of_foldName rfl hnames (hnamed a ha).2⟩
  · constructor
    · rintro ⟨read, hread, -, hall⟩
      have hnames : ∀ a ∈ s.attrs, PlainName a.1 := by
        intro a ha
        obtain ⟨b, hb, hname⟩ := hsaid a ha
        have hmem : (foldName b.1, b.2) ∈ read.given := hall ▸ List.mem_map_of_mem hb
        obtain ⟨c, hc, hfold⟩ := List.mem_map.1 ((Html.firstOfEach_sublist _).subset hmem)
        rw [hname] at hfold
        exact ⟨(hnamed a ha).1, Html.plain_of_foldName (congrArg Prod.fst hfold).symm
          (Html.readStartTag_names hread c hc) (hnamed a ha).2⟩
      have hsame := hread.symm.trans (hplain hnames)
      cases hsame
      exact ⟨hnames, hgiven.1 hall⟩
    · rintro ⟨hnames, hdistinct⟩
      exact ⟨tag, hplain hnames, rfl, hgiven.2 hdistinct⟩

/-- A name that ends the tag, and one that takes the place of the reference. -/
theorem reads_write_iff_brackets :
    let broken : Selector := { attrs := [("a>b".toList, none)] }
    let taken : Selector := { attrs := [("href".toList, some "y".toList)] }
    let x : Referrer := .anchor "x".toList
    Selector.parse "[a>b]".toList = .ok broken ∧ Selector.parse "[href=y]".toList = .ok taken ∧
    readStartTag (x.write {} broken.attrText "z".toList none) ≠
      some (x.said broken "z".toList none, x.tail) ∧
    readStartTag (x.write {} taken.attrText "z".toList none) =
      some (x.said taken "z".toList none, x.tail) ∧
    (x.said taken "z".toList none).given ≠
      (x.said taken "z".toList none).attributes.map fun a => (foldName a.1, a.2) := by
  intro broken taken x
  have hbroken : Selector.parse "[a>b]".toList = .ok broken := rfl
  have htaken : Selector.parse "[href=y]".toList = .ok taken := rfl
  have hbreaks := (reads_write_iff hbroken {} "z".toList none x).2.1
  obtain ⟨-, hreads, hgiven⟩ := reads_write_iff htaken {} "z".toList none x
  have hread := hreads.2 (by
    simp only [taken, List.forall_mem_singleton]
    exact Referrer.plainName_key x)
  refine ⟨hbroken, htaken, fun hread => ?_, hread, fun hall => ?_⟩
  · have hplain := (hbreaks.1 hread ("a>b".toList, none) List.mem_cons_self).plain '>'
    exact absurd (hplain (by decide)) (by decide)
  · have hdistinct := (hgiven.1 ⟨_, hread, rfl, hall⟩).2
    exact absurd hdistinct (by decide)

end Referrer

end Bindery
