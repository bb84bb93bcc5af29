import Bindery.Proofs.Html.Flow
import Bindery.Proofs.Selector.Splicing

/-! The names that a selector writes. Ids, classes and brackets are kept apart, each with its own way to
deal with repetition: a second id is refused, a class is not listed twice, and a bracket takes the value
of the last one with the same name. None of them looks at the others, and names of brackets are the same
only letter by letter, so a bracket may write the id or class once more, or a name in another case. -/

namespace Bindery.Selector

open Html (Attribute PlainName foldName readAttributes)

/-- The attributes as they stand in the text. -/
def forms (s : Selector) : List Attribute :=
  (s.id.map fun id => ⟨"id".toList, some id⟩).toList ++
    (if s.classes.isEmpty then [] else [⟨"class".toList, some (Text.join [' '] s.classes)⟩]) ++
    s.attrs.map fun a => ⟨a.1, a.2⟩

def writtenNames (s : Selector) : List (List Char) := s.forms.map fun a => foldName a.name

/-- No bracket writes the name of an id or class that stands beside it, nor one that another bracket
writes in another case. -/
structure Apart (items : List Item) : Prop where
  id : idsOf items ≠ [] → ∀ a ∈ attrsOf items, foldName a.1 ≠ "id".toList
  cls : classesOf items ≠ [] → ∀ a ∈ attrsOf items, foldName a.1 ≠ "class".toList
  attrs : ∀ a ∈ attrsOf items, ∀ b ∈ attrsOf items, foldName a.1 = foldName b.1 → a.1 = b.1

theorem attrText_eq_writeAll (s : Selector) : s.attrText = Attribute.writeAll s.forms := by
  obtain ⟨id, classes, attrs⟩ := s
  have hquoted : ∀ name value, Attribute.write ⟨name, some value⟩ = quoted name value := by
    intro name value
    simp [Attribute.write, quoted]
  have hattrs : Attribute.writeAll (attrs.map fun a => ⟨a.1, a.2⟩) = attrs.flatMap attrPart := by
    rw [Attribute.writeAll, List.flatMap_map]
    refine List.flatMap_congr fun a _ => ?_
    obtain ⟨name, value⟩ := a
    cases value with
    | none => rfl
    | some value => exact hquoted name value
  have happend : ∀ u v : List Attribute, Attribute.writeAll (u ++ v) =
      Attribute.writeAll u ++ Attribute.writeAll v := fun u v => List.flatMap_append
  rw [forms, happend, happend, hattrs]
  unfold attrText
  congr 2
  · cases id with
    | none => rfl
    | some id => exact (hquoted _ id).symm.trans (List.append_nil _).symm
  · split
    · rfl
    · exact (hquoted _ _).symm.trans (List.append_nil _).symm

theorem pairs_names (s : Selector) : s.pairs.map Prod.fst = s.forms.map Attribute.name := by
  obtain ⟨id, classes, attrs⟩ := s
  unfold pairs forms
  cases id <;> cases classes <;> simp

section Asked

variable {items : List Item}

theorem eraseDups_isEmpty (l : List (List Char)) : l.eraseDups.isEmpty = l.isEmpty := by
  cases l with
  | nil => rfl
  | cons a l => rw [List.eraseDups_cons]; rfl

theorem writtenNames_asked (hone : (idsOf items).length ≤ 1) :
    (asked items).writtenNames = (idsOf items).map (fun _ => "id".toList) ++
      (if (classesOf items).isEmpty then [] else ["class".toList]) ++
      ((attrsOf items).map Prod.fst).eraseDups.map foldName := by
  have hid : foldName "id".toList = "id".toList := by decide
  have hclass : foldName "class".toList = "class".toList := by decide
  unfold writtenNames forms asked
  rw [eraseDups_isEmpty, List.map_append, List.map_append, List.map_map, List.map_map]
  congr 2
  · match hids : idsOf items with
    | [] => rfl
    | [id] => simpa using hid
    | first :: second :: more => simp [hids] at hone
  · split
    · rfl
    · simpa using hclass

/-- An id is written once, a class once for all of them, and a bracket once for each spelling. -/
theorem count_writtenNames (hone : (idsOf items).length ≤ 1) (name : List Char) :
    (asked items).writtenNames.count name =
      (if name = "id".toList then (idsOf items).length else 0) +
      (if name = "class".toList ∧ classesOf items ≠ [] then 1 else 0) +
      ((attrsOf items).map Prod.fst).eraseDups.countP (foldName · == name) := by
  have hids : ((idsOf items).map fun _ => "id".toList).count name =
      if name = "id".toList then (idsOf items).length else 0 := by
    rw [List.map_const', List.count_replicate]
    exact if_congr (by rw [beq_iff_eq, eq_comm]) rfl rfl
  have hclasses : (if (classesOf items).isEmpty then [] else ["class".toList]).count name =
      if name = "class".toList ∧ classesOf items ≠ [] then 1 else 0 := by
    cases classesOf items with
    | nil => simp
    | cons first more =>
      rw [if_neg (by simp), List.count_singleton]
      exact if_congr (by rw [beq_iff_eq, eq_comm, and_iff_left (by simp)]) rfl rfl
  have hattrs : (((attrsOf items).map Prod.fst).eraseDups.map foldName).count name =
      ((attrsOf items).map Prod.fst).eraseDups.countP (foldName · == name) := by
    rw [List.count, List.countP_map]
    rfl
  rw [writtenNames_asked hone, List.count_append, List.count_append, hids, hclasses, hattrs]

theorem nodup_writtenNames_iff (hone : (idsOf items).length ≤ 1) :
    (asked items).writtenNames.Nodup ↔ Apart items := by
  have hkey : ∀ a ∈ attrsOf items, a.1 ∈ ((attrsOf items).map Prod.fst).eraseDups := fun a ha =>
    List.mem_eraseDups.2 (List.mem_map_of_mem ha)
  have hof : ∀ key ∈ ((attrsOf items).map Prod.fst).eraseDups, ∃ a ∈ attrsOf items, a.1 = key :=
    fun key hmem => List.mem_map.1 (List.mem_eraseDups.1 hmem)
  have hdistinct := nodup_eraseDups ((attrsOf items).map Prod.fst)
  rw [writtenNames_asked hone, List.nodup_append, List.nodup_map_iff_inj_on hdistinct]
  generalize ((attrsOf items).map Prod.fst).eraseDups = keys at *
  constructor
  · rintro ⟨-, hattrs, hapart⟩
    refine ⟨fun hids a ha => ?_, fun hclasses a ha => ?_, fun a ha b hb => ?_⟩
    · have hmem : "id".toList ∈ (idsOf items).map fun _ => "id".toList := by
        obtain ⟨id, hid⟩ := List.exists_mem_of_ne_nil _ hids
        exact List.mem_map.2 ⟨id, hid, rfl⟩
      exact (hapart _ (List.mem_append_left _ hmem) _ (List.mem_map_of_mem (hkey a ha))).symm
    · have hmem : "class".toList ∈ if (classesOf items).isEmpty then [] else ["class".toList] := by
        rw [if_neg (by simpa using hclasses)]
        exact List.mem_singleton_self _
      exact (hapart _ (List.mem_append_right _ hmem) _ (List.mem_map_of_mem (hkey a ha))).symm
    · exact hattrs _ (hkey a ha) _ (hkey b hb)
  · intro h
    refine ⟨?_, ?_, ?_⟩
    · -- the two names themselves differ, and there is one id at most
      rw [List.nodup_append]
      refine ⟨?_, ?_, ?_⟩
      · rw [List.map_const', List.nodup_replicate]
        exact hone
      · split <;> simp
      · rintro _ hid _ hclass rfl
        obtain ⟨id, -, rfl⟩ := List.mem_map.1 hid
        split at hclass
        · cases hclass
        · exact absurd (List.mem_singleton.1 hclass) (by decide)
    · intro key hmem other hother
      obtain ⟨a, ha, rfl⟩ := hof key hmem
      obtain ⟨b, hb, rfl⟩ := hof other hother
      exact h.attrs a ha b hb
    · rintro _ hname _ hattr rfl
      obtain ⟨key, hmem, hkey⟩ := List.mem_map.1 hattr
      obtain ⟨a, ha, rfl⟩ := hof key hmem
      rcases List.mem_append.1 hname with hid | hclass
      · obtain ⟨id, hids, rfl⟩ := List.mem_map.1 hid
        exact h.id (List.ne_nil_of_mem hids) a ha hkey
      · split at hclass
        · cases hclass
        · next hsome =>
          exact h.cls (by simpa using hsome) a ha (hkey.trans (List.mem_singleton.1 hclass))

end Asked

/-- A selector is written as its attributes, which are read back with their names when brackets name
what is a name. The names are distinct without regard to case exactly when the brackets keep apart from
ids, classes and each other. -/
theorem nodup_names_iff {text : List Char} {s : Selector} (h : parse text = .ok s) :
    s.attrText = Attribute.writeAll s.forms ∧
    ((∀ a ∈ s.attrs, PlainName a.1) → ∃ read,
      readAttributes (s.attrText ++ " >".toList) = some (read, []) ∧
      read.map Prod.fst = s.forms.map Attribute.name) ∧
    (∀ name, s.writtenNames.count name =
      (if name = "id".toList then (idsOf (items text)).length else 0) +
      (if name = "class".toList ∧ classesOf (items text) ≠ [] then 1 else 0) +
      ((attrsOf (items text)).map Prod.fst).eraseDups.countP (foldName · == name)) ∧
    (s.writtenNames.Nodup ↔ Apart (items text)) := by
  have hquotes := quoteFree_of_parse h
  obtain ⟨hone, -, rfl⟩ := parse_eq_ok_iff.1 h
  refine ⟨attrText_eq_writeAll _, fun hnames => ?_, fun name => count_writtenNames hone name,
    nodup_writtenNames_iff hone⟩
  refine ⟨_, ?_, pairs_names (asked (items text))⟩
  show readAttributes (_ ++ ' ' :: '>' :: []) = _
  rw [readAttributes_attrText hquotes hnames (by decide) (by decide), Html.readAttributes_close]
  simp

/-- A bracket writes a second id, and two brackets write one name in two cases. -/
theorem nodup_names_iff_bracketed :
    let twice : Selector := { id := some "a".toList, attrs := [("id".toList, some "b".toList)] }
    let cased : Selector :=
      { attrs := [("A".toList, some "1".toList), ("a".toList, some "2".toList)] }
    parse "#a[id=b]".toList = .ok twice ∧ ¬twice.writtenNames.Nodup ∧
    parse "[A=1][a=2]".toList = .ok cased ∧ ¬cased.writtenNames.Nodup := by
  intro twice cased
  have htwice : parse "#a[id=b]".toList = .ok twice := rfl
  have hcased : parse "[A=1][a=2]".toList = .ok cased := rfl
  refine ⟨htwice, fun hnodup => ?_, hcased, fun hnodup => ?_⟩
  · have hapart := (nodup_names_iff htwice).2.2.2.1 hnodup
    exact hapart.id (by decide) ("id".toList, some "b".toList) (by decide) rfl
  · have hapart := (nodup_names_iff hcased).2.2.2.1 hnodup
    have hsame := hapart.attrs ("A".toList, some "1".toList) (by decide)
      ("a".toList, some "2".toList) (by decide) (by decide)
    exact absurd hsame (by decide)

end Bindery.Selector
