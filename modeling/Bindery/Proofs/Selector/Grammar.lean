import Bindery.Proofs.Distinct
import Bindery.Proofs.Text.Trim
import Bindery.Selector
import Mathlib.Data.List.TakeWhile

/-! The grammar of selectors. A selector is a row of items. Any text can be gone through from the
left in one way, by taking the item that stands at the front or passing over a character where none
does, and reading gives what the items ask for or tells of the first fault on this way. -/

namespace Bindery.Selector

open Text (isBlank isWordChar)

/-- The content of a value between two equal quotes, and any other value as it is. -/
inductive Unquotes : List Char → List Char → Prop where
  | quoted {q : Char} (hq : q = '\x22' ∨ q = '\x27') (inner : List Char) :
    Unquotes (q :: (inner ++ [q])) inner
  | plain {value : List Char}
    (h : ∀ q inner, (q = '\x22' ∨ q = '\x27') → value ≠ q :: (inner ++ [q])) : Unquotes value value

/-- A text with entities for its double quotes. -/
def escapeQuotes (cs : List Char) : List Char :=
  cs.flatMap fun c => if c = '\x22' then "&quot;".toList else [c]

/-- The text between two brackets names an attribute, and says its value behind the first equals
sign. -/
inductive Names : List Char → List Char → Option (List Char) → Prop where
  | bare {body : List Char} (hequals : '=' ∉ body) (hname : Text.trim body ≠ []) :
    Names body (Text.trim body) none
  | valued {front written inner : List Char} (hequals : '=' ∉ front)
    (hname : Text.trim front ≠ []) (hvalue : Unquotes (Text.trim written) inner) :
    Names (front ++ '=' :: written) (Text.trim front) (some (escapeQuotes inner))

/-- A word, as long as it can be before `rest`. -/
structure Word (name rest : List Char) : Prop where
  ne_nil : name ≠ []
  word : ∀ c ∈ name, isWordChar c = true
  whole : ∀ c ∈ rest.head?, isWordChar c = false

/-- The item stands at the front of a text, and `rest` follows it. -/
inductive Item.Stands : Item → List Char → List Char → Prop where
  | blank {c : Char} {rest : List Char} (h : isBlank c = true) : Stands .blank (c :: rest) rest
  | id {name rest : List Char} (h : Word name rest) : Stands (.id name) ('#' :: (name ++ rest)) rest
  | cls {name rest : List Char} (h : Word name rest) : Stands (.cls name) ('.' :: (name ++ rest)) rest
  | attr {body name rest : List Char} {value : Option (List Char)} (hbody : ']' ∉ body)
    (h : Names body name value) : Stands (.attr name value) ('[' :: (body ++ ']' :: rest)) rest

/-- The text is these items, one after the other. -/
inductive Reads : List Char → List Item → Prop where
  | nil : Reads [] []
  | cons {cs rest : List Char} {item : Item} {items : List Item} (h : item.Stands cs rest)
    (hrest : Reads rest items) : Reads cs (item :: items)

/-- The way through a text from the left. A character is passed over when no item stands there. -/
inductive Scans : List Char → List Item → Prop where
  | nil : Scans [] []
  | take {cs rest : List Char} {item : Item} {items : List Item} (h : item.Stands cs rest)
    (hrest : Scans rest items) : Scans cs (item :: items)
  | pass {c : Char} {rest : List Char} {items : List Item}
    (h : ∀ (item : Item) (rest' : List Char), ¬item.Stands (c :: rest) rest') (hrest : Scans rest items) :
    Scans (c :: rest) (.other c :: items)

section Items

theorem unquote_eq {value inner : List Char} (h : Unquotes value inner) :
    unquote value = escapeQuotes inner := by
  unfold unquote escapeQuotes
  cases h with
  | quoted hq inner =>
    rcases hq with rfl | rfl <;> simp
  | plain h =>
    cases value with
    | nil => rfl
    | cons q rest =>
      dsimp only
      rw [if_neg]
      rw [Bool.and_eq_true, Bool.or_eq_true, beq_iff_eq, beq_iff_eq, decide_eq_true_eq]
      rintro ⟨hq, hlast⟩
      exact h q rest.dropLast hq (by rw [List.dropLast_append_getLast? q hlast])

theorem exists_unquotes (value : List Char) : ∃ inner, Unquotes value inner := by
  by_cases h : ∃ q inner, (q = '\x22' ∨ q = '\x27') ∧ value = q :: (inner ++ [q])
  · obtain ⟨q, inner, hq, rfl⟩ := h
    exact ⟨inner, .quoted hq inner⟩
  · exact ⟨value, .plain fun q inner hq heq => h ⟨q, inner, hq, heq⟩⟩

theorem readAttr_eq_of_bare {body : List Char} (h : '=' ∉ body) :
    readAttr body = if (Text.trim body).isEmpty then none else some (Text.trim body, none) := by
  have hall : ∀ c ∈ body, (c != '=') = true := by
    intro c hc
    rw [bne_iff_ne]
    rintro rfl
    exact h hc
  have htake : body.takeWhile (· != '=') = body := List.takeWhile_eq_self_iff.2 hall
  have hdrop : body.dropWhile (· != '=') = [] := List.dropWhile_eq_nil_iff.2 hall
  unfold readAttr
  rw [htake, hdrop]

theorem readAttr_eq_of_valued {front : List Char} (h : '=' ∉ front) (written : List Char) :
    readAttr (front ++ '=' :: written) = if (Text.trim front).isEmpty then none
      else some (Text.trim front, some (unquote (Text.trim written))) := by
  have hdrop : (front ++ '=' :: written).dropWhile (· != '=') = '=' :: written := by
    refine Text.dropWhile_append_of_stop (fun c hc => ?_) (by simp)
    rw [bne_iff_ne]
    rintro rfl
    exact h hc
  unfold readAttr
  rw [Text.takeWhile_bne h, hdrop]

theorem readAttr_eq_some_iff {body name : List Char} {value : Option (List Char)} :
    readAttr body = some (name, value) ↔ Names body name value := by
  constructor
  · intro h
    by_cases hequals : '=' ∈ body
    · obtain ⟨front, written, rfl, hfront⟩ := List.eq_append_cons_of_mem hequals
      rw [readAttr_eq_of_valued hfront] at h
      obtain ⟨hname, h⟩ := Option.ite_none_left_eq_some.1 h
      obtain ⟨rfl, rfl⟩ := Prod.mk.inj (Option.some.inj h)
      obtain ⟨inner, hinner⟩ := exists_unquotes (Text.trim written)
      rw [unquote_eq hinner]
      exact .valued hfront (by simpa using hname) hinner
    · rw [readAttr_eq_of_bare hequals] at h
      obtain ⟨hname, h⟩ := Option.ite_none_left_eq_some.1 h
      obtain ⟨rfl, rfl⟩ := Prod.mk.inj (Option.some.inj h)
      exact .bare hequals (by simpa using hname)
  · intro h
    cases h with
    | bare hequals hname => rw [readAttr_eq_of_bare hequals, if_neg (by simpa using hname)]
    | valued hequals hname hvalue =>
      rw [readAttr_eq_of_valued hequals, if_neg (by simpa using hname), unquote_eq hvalue]

theorem Item.Stands.ne_nil {item : Item} {cs rest : List Char} (h : item.Stands cs rest) :
    cs ≠ [] := by
  cases h <;> exact List.cons_ne_nil _ _

theorem Item.Stands.length_lt {item : Item} {cs rest : List Char} (h : item.Stands cs rest) :
    rest.length < cs.length := by
  cases h <;> simp <;> omega

theorem takeWhile_word {name rest : List Char} (h : Word name rest) :
    (name ++ rest).takeWhile isWordChar = name := Text.takeWhile_append_of_stop h.word h.whole

theorem mark_of_isBlank {c : Char} (h : isBlank c = true) : c ≠ '#' ∧ c ≠ '.' ∧ c ≠ '[' := by
  refine ⟨?_, ?_, ?_⟩ <;> rintro rfl <;> exact absurd h (by decide)

theorem nextItem_of_stands {item : Item} {c : Char} {cs rest : List Char}
    (h : item.Stands (c :: cs) rest) :
    (nextItem c cs).1 = item ∧ cs.drop (nextItem c cs).2 = rest := by
  cases h with
  | blank h =>
    obtain ⟨hid, hcls, hattr⟩ := mark_of_isBlank h
    simp [nextItem, hid, hcls, hattr, h]
  | id h =>
    simp [nextItem, takeWhile_word h, h.ne_nil]
  | cls h => simp [nextItem, takeWhile_word h, h.ne_nil]
  | attr hbody h => simp [nextItem, Text.takeWhile_bne hbody, readAttr_eq_some_iff.2 h]

theorem exists_word {cs : List Char} (h : (cs.takeWhile isWordChar).isEmpty = false) :
    ∃ name rest, cs = name ++ rest ∧ Word name rest := by
  refine ⟨cs.takeWhile isWordChar, cs.dropWhile isWordChar, List.takeWhile_append_dropWhile.symm,
    List.isEmpty_eq_false_iff.1 h, fun c hc => List.mem_takeWhile_imp hc, fun c hc => ?_⟩
  have hstop := List.head?_dropWhile_not isWordChar cs
  rw [Option.mem_def.1 hc] at hstop
  simpa using hstop

/-- An item stands at the front, or the first character belongs to none. -/
theorem stands_or_other (c : Char) (cs : List Char) :
    (∃ (item : Item) (rest : List Char), item.Stands (c :: cs) rest) ∨ nextItem c cs = (.other c, 0) := by
  by_cases hmark : c = '#' ∨ c = '.'
  · cases hname : (cs.takeWhile isWordChar).isEmpty with
    | true => exact .inr (by simp [nextItem, hmark, hname])
    | false =>
      obtain ⟨name, rest, rfl, hword⟩ := exists_word hname
      rcases hmark with rfl | rfl
      · exact .inl ⟨_, _, .id hword⟩
      · exact .inl ⟨_, _, .cls hword⟩
  · by_cases hopen : c = '['
    · subst hopen
      by_cases hlength : (cs.takeWhile (· != ']')).length < cs.length
      · have hbody : ']' ∉ cs.takeWhile (· != ']') := fun hmem =>
          absurd (List.mem_takeWhile_imp hmem) (by simp)
        cases hread : readAttr (cs.takeWhile (· != ']')) with
        | none => exact .inr (by simp [nextItem, hlength, hread])
        | some found =>
          obtain ⟨rest, hrest⟩ := Text.exists_cut hlength
          rw [hrest]
          exact .inl ⟨_, _, .attr hbody (readAttr_eq_some_iff.1 hread)⟩
      · exact .inr (by simp [nextItem, hlength])
    · by_cases hblank : isBlank c = true
      · exact .inl ⟨_, _, .blank hblank⟩
      · exact .inr (by simp [nextItem, hmark, hopen, hblank])

theorem itemsFrom_eq (skip : Nat) (cs : List Char) : itemsFrom skip cs = items (cs.drop skip) := by
  induction skip generalizing cs with
  | zero => rfl
  | succ skip ih =>
    cases cs with
    | nil => rfl
    | cons c cs => exact ih cs

theorem items_cons (c : Char) (cs : List Char) :
    items (c :: cs) = (nextItem c cs).1 :: items (cs.drop (nextItem c cs).2) :=
  congrArg (_ :: ·) (itemsFrom_eq _ _)

theorem items_of_stands {item : Item} {cs rest : List Char} (h : item.Stands cs rest) :
    items cs = item :: items rest := by
  obtain ⟨c, cs, rfl⟩ := List.exists_cons_of_ne_nil h.ne_nil
  obtain ⟨hitem, hrest⟩ := nextItem_of_stands h
  rw [items_cons, hitem, hrest]

/-- There is one way through a text. -/
theorem scans_iff {cs : List Char} {steps : List Item} : Scans cs steps ↔ steps = items cs := by
  constructor
  · intro h
    induction h with
    | nil => rfl
    | take h _ ih => rw [items_of_stands h, ih]
    | @pass c rest steps h _ ih =>
      obtain ⟨item, rest', hitem⟩ | hother := stands_or_other c rest
      · exact absurd hitem (h item rest')
      · rw [items_cons, hother, ih]
        rfl
  · rintro rfl
    induction hlength : cs.length using Nat.strong_induction_on generalizing cs with
    | _ length ih =>
      cases cs with
      | nil => exact .nil
      | cons c cs =>
        by_cases hitem : ∃ item rest, Item.Stands item (c :: cs) rest
        · obtain ⟨item, rest, hitem⟩ := hitem
          rw [items_of_stands hitem]
          exact .take hitem (ih _ (hlength ▸ hitem.length_lt) rfl)
        · have hother := (stands_or_other c cs).resolve_left hitem
          rw [items_cons, hother]
          refine .pass (fun item rest h => hitem ⟨item, rest, h⟩) (ih _ ?_ rfl)
          rw [← hlength]
          exact Nat.lt_succ_self _

end Items

section Views

/-- The names of the ids, in order. -/
def idsOf (items : List Item) : List (List Char) :=
  items.filterMap fun
    | .id name => some name
    | _ => none

def classesOf (items : List Item) : List (List Char) :=
  items.filterMap fun
    | .cls name => some name
    | _ => none

def attrsOf (items : List Item) : List (List Char × Option (List Char)) :=
  items.filterMap fun
    | .attr name value => some (name, value)
    | _ => none

/-- The characters that belong to no item, in order. -/
def strays (items : List Item) : List Char :=
  items.filterMap fun
    | .other c => some c
    | _ => none

theorem Item.Stands.strays {item : Item} {cs rest : List Char} (h : item.Stands cs rest)
    (items : List Item) : strays (item :: items) = strays items := by
  cases h <;> rfl

/-- A text is a row of items when no character is passed over on the way through it. -/
theorem reads_iff {cs : List Char} {steps : List Item} :
    Reads cs steps ↔ Scans cs steps ∧ strays steps = [] := by
  constructor
  · intro h
    induction h with
    | nil => exact ⟨.nil, rfl⟩
    | cons h _ ih => exact ⟨.take h ih.1, by rw [h.strays, ih.2]⟩
  · rintro ⟨h, hnone⟩
    induction h with
    | nil => exact .nil
    | take h _ ih => exact .cons h (ih (by rwa [h.strays] at hnone))
    | pass _ _ _ => exact absurd hnone (List.cons_ne_nil _ _)

/-- What is passed over is not blank. -/
theorem Scans.not_blank {cs : List Char} {steps : List Item} (h : Scans cs steps) :
    ∀ c ∈ strays steps, isBlank c = false := by
  induction h with
  | nil => simp [strays]
  | take h _ ih => rwa [h.strays]
  | @pass c rest steps h _ ih =>
    intro d hd
    rcases List.mem_cons.1 hd with rfl | hd
    · by_contra hblank
      exact h .blank rest (.blank (by simpa using hblank))
    · exact ih d hd

/-- What items ask for: the id, the classes once each in order of first appearance, and the
attributes, every name once in order of first appearance with the value that is given last. -/
def asked (items : List Item) : Selector where
  id := (idsOf items).head?
  classes := (classesOf items).eraseDups
  attrs := ((attrsOf items).map Prod.fst).eraseDups.map fun name =>
    (name, (lastValue? (attrsOf items) name).join)

end Views

section Collecting

theorem putAttr_of_notMem {name : List Char} {keys : List (List Char)} (h : name ∉ keys)
    (value : Option (List Char)) (f : List Char → Option (List Char)) :
    putAttr name value (keys.map fun key => (key, f key)) =
      keys.map (fun key => (key, f key)) ++ [(name, value)] := by
  induction keys with
  | nil => rfl
  | cons key keys ih =>
    rw [List.mem_cons, not_or] at h
    rw [List.map_cons, putAttr, if_neg (Ne.symm h.1), ih h.2, List.cons_append]

theorem putAttr_of_mem {name : List Char} {keys : List (List Char)} (h : name ∈ keys)
    (hkeys : keys.Nodup) (value : Option (List Char)) (f : List Char → Option (List Char)) :
    putAttr name value (keys.map fun key => (key, f key)) =
      keys.map fun key => (key, if key = name then value else f key) := by
  induction keys with
  | nil => cases h
  | cons key keys ih =>
    obtain ⟨hkey, hkeys⟩ := List.nodup_cons.1 hkeys
    rw [List.map_cons, List.map_cons, putAttr]
    by_cases hsame : key = name
    · have hrest : ∀ other ∈ keys, (other, f other) =
          (other, if other = name then value else f other) := by
        intro other hother
        rw [if_neg]
        rintro rfl
        exact hkey (hsame ▸ hother)
      rw [if_pos hsame, if_pos hsame, List.map_congr_left hrest]
    · rw [if_neg hsame, if_neg hsame, ih ((List.mem_cons.1 h).resolve_left (Ne.symm hsame)) hkeys]

/-- One more attribute is put where its name stands, or at the end. -/
theorem putAttr_attrs (done : List (List Char × Option (List Char))) (name : List Char)
    (value : Option (List Char)) :
    putAttr name value ((done.map Prod.fst).eraseDups.map fun key =>
        (key, (lastValue? done key).join)) =
      ((done ++ [(name, value)]).map Prod.fst).eraseDups.map fun key =>
        (key, (lastValue? (done ++ [(name, value)]) key).join) := by
  have hkeys : ((done ++ [(name, value)]).map Prod.fst).eraseDups =
      if name ∈ (done.map Prod.fst).eraseDups then (done.map Prod.fst).eraseDups
      else (done.map Prod.fst).eraseDups ++ [name] := by
    rw [List.map_append]
    exact eraseDups_concat _ _
  have hlast : ∀ key, (lastValue? (done ++ [(name, value)]) key).join =
      if key = name then value else (lastValue? done key).join := by
    intro key
    rw [lastValue?_concat]
    split <;> rfl
  simp only [hkeys, hlast]
  by_cases hname : name ∈ (done.map Prod.fst).eraseDups
  · rw [if_pos hname, putAttr_of_mem hname (nodup_eraseDups _)]
  · have hold : ∀ key ∈ (done.map Prod.fst).eraseDups, (key, (lastValue? done key).join) =
        (key, if key = name then value else (lastValue? done key).join) := by
      intro key hkey
      rw [if_neg]
      rintro rfl
      exact hname hkey
    rw [if_neg hname, putAttr_of_notMem hname, List.map_append, List.map_congr_left hold]
    simp

theorem asked_concat_id {done : List Item} (h : idsOf done = []) (name : List Char) :
    asked (done ++ [.id name]) = { asked done with id := some name } := by
  unfold asked
  rw [show idsOf (done ++ [.id name]) = idsOf done ++ [name] from List.filterMap_append, h,
    show classesOf (done ++ [.id name]) = classesOf done ++ [] from List.filterMap_append,
    show attrsOf (done ++ [.id name]) = attrsOf done ++ [] from List.filterMap_append]
  simp

theorem asked_concat_cls (done : List Item) (name : List Char) :
    asked (done ++ [.cls name]) = if (asked done).classes.contains name then asked done
      else { asked done with classes := (asked done).classes ++ [name] } := by
  have hclasses : classesOf (done ++ [.cls name]) = classesOf done ++ [name] :=
    List.filterMap_append
  unfold asked
  rw [show idsOf (done ++ [.cls name]) = idsOf done ++ [] from List.filterMap_append, hclasses,
    show attrsOf (done ++ [.cls name]) = attrsOf done ++ [] from List.filterMap_append,
    eraseDups_concat]
  simp only [List.append_nil, List.contains_iff_mem]
  split <;> rfl

theorem asked_concat_attr (done : List Item) (name : List Char) (value : Option (List Char)) :
    asked (done ++ [.attr name value]) =
      { asked done with attrs := putAttr name value (asked done).attrs } := by
  have hattrs : attrsOf (done ++ [.attr name value]) = attrsOf done ++ [(name, value)] :=
    List.filterMap_append
  unfold asked
  rw [show idsOf (done ++ [.attr name value]) = idsOf done ++ [] from List.filterMap_append,
    show classesOf (done ++ [.attr name value]) = classesOf done ++ [] from List.filterMap_append,
    hattrs, putAttr_attrs, List.append_nil, List.append_nil]

theorem asked_concat_of_nil {item : Item} (hids : idsOf [item] = []) (hclasses : classesOf [item] = [])
    (hattrs : attrsOf [item] = []) (done : List Item) : asked (done ++ [item]) = asked done := by
  unfold asked
  rw [show idsOf (done ++ [item]) = idsOf done ++ idsOf [item] from List.filterMap_append,
    show classesOf (done ++ [item]) = classesOf done ++ classesOf [item] from List.filterMap_append,
    show attrsOf (done ++ [item]) = attrsOf done ++ attrsOf [item] from List.filterMap_append,
    hids, hclasses, hattrs]
  simp only [List.append_nil]

/-- What is wrong with a selector, told from the way through it: a second id, or else characters
that belong to no item. -/
inductive Fault (cs : List Char) (steps : List Item) : SelectorError → Prop where
  | twice {first second : List Char} {more : List (List Char)}
    (h : idsOf steps = first :: second :: more) : Fault cs steps (.duplicateId cs first second)
  | strays (hids : (idsOf steps).length ≤ 1) (h : strays steps ≠ [])
    (hblank : ∀ c ∈ strays steps, isBlank c = false) : Fault cs steps (.unparsed cs (strays steps))

/-- What is collected from a row of steps, or the second id that stops it. -/
def gathered (cs : List Char) (steps : List Item) : Except SelectorError (Selector × List Char) :=
  match idsOf steps with
  | first :: second :: _ => .error (.duplicateId cs first second)
  | _ => .ok (asked steps, strays steps)

theorem gathered_of_length_le {steps : List Item} (h : (idsOf steps).length ≤ 1) (cs : List Char) :
    gathered cs steps = .ok (asked steps, strays steps) := by
  unfold gathered
  split
  · next hids => simp [hids] at h
  · rfl

-- The induction is over what is still to come; what is done is known by what it asks for.
theorem collect_eq (cs : List Char) (more done : List Item) (h : (idsOf done).length ≤ 1) :
    collect cs more (asked done) (strays done) = gathered cs (done ++ more) := by
  induction more generalizing done with
  | nil => rw [List.append_nil, gathered_of_length_le h, collect]
  | cons item more ih =>
    have hsame (hids : idsOf (done ++ [item]) = idsOf done) :
        collect cs more (asked (done ++ [item])) (strays (done ++ [item])) =
          gathered cs (done ++ item :: more) := by
      rw [ih _ (hids ▸ h), List.append_assoc, List.singleton_append]
    have hids : idsOf (done ++ [item]) = idsOf done ++ idsOf [item] := List.filterMap_append
    have hstrays : strays (done ++ [item]) = strays done ++ strays [item] := List.filterMap_append
    cases item with
    | id name =>
      cases hfirst : idsOf done with
      | nil =>
        have hone : (idsOf (done ++ [.id name])).length ≤ 1 := by rw [hids, hfirst]; rfl
        have hid : (asked done).id = none := by rw [asked, hfirst]; rfl
        have hnext := ih (done ++ [.id name]) hone
        rw [asked_concat_id hfirst, hstrays, List.append_assoc, List.singleton_append] at hnext
        rw [collect, hid]
        exact (congrArg _ (List.append_nil _).symm).trans hnext
      | cons first others =>
        obtain rfl : others = [] := by
          rw [hfirst, List.length_cons] at h
          exact List.length_eq_zero_iff.1 (by omega)
        have hid : (asked done).id = some first := by rw [asked, hfirst]; rfl
        have htwo : idsOf (done ++ .id name :: more) = first :: name :: idsOf more := by
          rw [idsOf, List.filterMap_append, ← idsOf, hfirst]
          rfl
        rw [collect, hid, gathered, htwo]
    | cls name =>
      rw [← hsame (by rw [hids]; exact List.append_nil _), asked_concat_cls, hstrays, collect]
      exact congrArg _ (List.append_nil _).symm
    | attr name value =>
      rw [← hsame (by rw [hids]; exact List.append_nil _), asked_concat_attr, hstrays, collect]
      exact congrArg _ (List.append_nil _).symm
    | blank =>
      rw [← hsame (by rw [hids]; exact List.append_nil _), asked_concat_of_nil rfl rfl rfl, hstrays,
        collect]
      exact congrArg _ (List.append_nil _).symm
    | other c =>
      rw [← hsame (by rw [hids]; exact List.append_nil _), asked_concat_of_nil rfl rfl rfl, hstrays,
        collect]
      rfl

theorem parse_eq (cs : List Char) :
    parse cs = match gathered cs (items cs) with
      | .error e => .error e
      | .ok (s, rest) => if rest.isEmpty then .ok s else .error (.unparsed cs rest) := by
  rw [← List.nil_append (items cs), ← collect_eq cs _ [] (Nat.zero_le 1)]
  rfl

theorem twice_or_length_le (steps : List Item) :
    (∃ first second more, idsOf steps = first :: second :: more) ∨ (idsOf steps).length ≤ 1 := by
  match idsOf steps with
  | [] | [_] => exact .inr (by simp)
  | first :: second :: more => exact .inl ⟨first, second, more, rfl⟩

theorem parse_eq_ok_iff {cs : List Char} {s : Selector} :
    parse cs = .ok s ↔
      (idsOf (items cs)).length ≤ 1 ∧ strays (items cs) = [] ∧ s = asked (items cs) := by
  rw [parse_eq]
  obtain ⟨first, second, more, htwo⟩ | hone := twice_or_length_le (items cs)
  · simp [gathered, htwo]
  · rw [gathered_of_length_le hone]
    dsimp only
    split
    · next hnone => simp [hone, List.isEmpty_iff.1 hnone, eq_comm]
    · next hsome => simpa using fun _ hnone => absurd (List.isEmpty_iff.2 hnone) hsome

theorem parse_eq_error_iff {cs : List Char} {e : SelectorError} :
    parse cs = .error e ↔ Fault cs (items cs) e := by
  rw [parse_eq]
  obtain ⟨first, second, more, htwo⟩ | hone := twice_or_length_le (items cs)
  · simp only [gathered, htwo, Except.error.injEq]
    constructor
    · rintro rfl
      exact .twice htwo
    · rintro (h | ⟨h, -, -⟩)
      · obtain ⟨rfl, rfl, -⟩ : first = _ ∧ second = _ ∧ more = _ := by simpa [htwo] using h
        rfl
      · simp [htwo] at h
  · rw [gathered_of_length_le hone]
    dsimp only
    constructor
    · intro h
      split at h
      · cases h
      · next hsome =>
        cases h
        exact .strays hone (fun hnone => hsome (List.isEmpty_iff.2 hnone))
          (scans_iff.2 rfl).not_blank
    · rintro (h | ⟨-, hsome, -⟩)
      · simp [h] at hone
      · rw [if_neg (by simpa using hsome)]

end Collecting

/-- A selector is read when it is a row of items with at most one id, as what the items ask for.
Any other text is refused for its fault, which is told from the one way through it. -/
theorem parse_eq_iff (cs : List Char) :
    (∃! steps, Scans cs steps) ∧
    (∀ s, parse cs = .ok s ↔ ∃ items, Reads cs items ∧ (idsOf items).length ≤ 1 ∧ s = asked items) ∧
    ∀ e, parse cs = .error e ↔ ∃ steps, Scans cs steps ∧ Fault cs steps e := by
  refine ⟨⟨items cs, scans_iff.2 rfl, fun steps h => scans_iff.1 h⟩, fun s => ?_, fun e => ?_⟩
  · simp only [parse_eq_ok_iff, reads_iff, scans_iff]
    constructor
    · rintro ⟨hone, hnone, rfl⟩
      exact ⟨items cs, ⟨rfl, hnone⟩, hone, rfl⟩
    · rintro ⟨steps, ⟨rfl, hnone⟩, hone, rfl⟩
      exact ⟨hone, hnone, rfl⟩
  · simp only [parse_eq_error_iff, scans_iff, exists_eq_left]

-- The inside of a bracket that names nothing is read like the text around it.
example : parse "[=.a] [b=1]".toList = .error (.unparsed "[=.a] [b=1]".toList "[=]".toList) := rfl

end Bindery.Selector
