import Bindery.Proofs.Markdown.Readers

/-! Link definitions at the front of a text that goes on in further lines. What is read of a definition is
read again, but for a title that the further lines may bring to its end, and where the text held nothing
but definitions those of the further lines come after its own. -/

namespace Bindery.Markdown

variable {cs rest more : List Char}

/-! A definition in two parts. -/

/-- The label and the destination at the front of a text, and the text behind them. -/
def naming? (cs : List Char) : Option (List Char × List Char × List Char) :=
  match cs.dropWhile isSpaceOrTab with
  | '[' :: rest =>
    match label? rest with
    | some (label, ':' :: rest) =>
      (destination? rest.length (dropGap rest)).map fun found => (label, found)
    | _ => none
  | _ => none

/-- The title behind a destination, if there is one, and the text after the last line of both. -/
def ending? (cs : List Char) : Option (Option (List Char) × List Char) :=
  let bare := (blankLineEnd? cs).map fun rest => (none, rest)
  if startsWithGap cs then
    match title? (dropGap cs) with
    | some (title, after) =>
      match blankLineEnd? after with
      | some after => some (some title, after)
      | none => bare
    | none => bare
  else bare

theorem definition?_eq (cs : List Char) : definition? cs = (naming? cs).bind fun found =>
    (ending? found.2.2).map fun ending => (⟨found.1, found.2.1, ending.1⟩, ending.2) := by
  have hending (label url rest : List Char) :
      (if startsWithGap rest then
        match title? (dropGap rest) with
        | some (t, after) =>
          match blankLineEnd? after with
          | some after => some ((⟨label, url, some t⟩ : Definition), after)
          | none => (blankLineEnd? rest).map fun rest => (⟨label, url, none⟩, rest)
        | none => (blankLineEnd? rest).map fun rest => (⟨label, url, none⟩, rest)
      else (blankLineEnd? rest).map fun rest => (⟨label, url, none⟩, rest)) =
        (ending? rest).map fun ending => (⟨label, url, ending.1⟩, ending.2) := by
    have hbare : (blankLineEnd? rest).map (fun rest => ((⟨label, url, none⟩ : Definition), rest)) =
        ((blankLineEnd? rest).map fun rest => (none, rest)).map fun ending =>
          (⟨label, url, ending.1⟩, ending.2) := by
      cases blankLineEnd? rest <;> rfl
    unfold ending?
    dsimp only
    split
    · split
      · split
        · rfl
        · exact hbare
      · exact hbare
    · exact hbare
  unfold definition?
  split
  · next rest hw =>
    split
    · next label rest' hlabel =>
      have hnaming : naming? cs =
          (destination? rest'.length (dropGap rest')).map fun found => (label, found) := by
        unfold naming?
        rw [hw]
        simp only [hlabel]
      rw [hnaming]
      cases destination? rest'.length (dropGap rest') with
      | none => rfl
      | some found => exact hending label found.1 found.2
    · next hother =>
      have hnaming : naming? cs = none := by
        unfold naming?
        split
        · next rest' hw' =>
          cases hw.symm.trans hw'
          split
          · next label rest' hlabel => exact absurd hlabel (hother label rest')
          · rfl
        · rfl
      rw [hnaming]
      rfl
  · next hother =>
    have hnaming : naming? cs = none := by
      unfold naming?
      split
      · next rest hw => exact absurd hw (hother rest)
      · rfl
    rw [hnaming]
    rfl

theorem definition?_eq_some_iff {d : Definition} : definition? cs = some (d, rest) ↔
    ∃ behind, naming? cs = some (d.label, d.url, behind) ∧ ending? behind = some (d.title, rest) := by
  rw [definition?_eq, Option.bind_eq_some_iff]
  constructor
  · rintro ⟨⟨label, url, behind⟩, hnaming, hmap⟩
    obtain ⟨⟨title, rest'⟩, hending, heq⟩ := Option.map_eq_some_iff.1 hmap
    cases heq
    exact ⟨behind, hnaming, hending⟩
  · rintro ⟨behind, hnaming, hending⟩
    exact ⟨_, hnaming, by rw [hending]; rfl⟩

theorem naming?_append {label url behind eol : List Char} (heol : IsLineEnd eol)
    (h : naming? cs = some (label, url, behind)) (more : List Char) :
    naming? (cs ++ (eol ++ more)) = some (label, url, behind ++ (eol ++ more)) := by
  unfold naming? at h ⊢
  rw [dropWhile_append_lineEnd heol]
  split at h
  · next front hw =>
    rw [hw]
    split at h
    · next label' front' hlabel =>
      obtain ⟨found, hfound, heq⟩ := Option.map_eq_some_iff.1 h
      cases heq
      have hgap : dropGap (front' ++ (eol ++ more)) = dropGap front' ++ (eol ++ more) := by
        refine dropGap_append_of_ne_nil (fun hnil => ?_) _
        rw [hnil] at hfound
        cases hfound
      have hdestination : destination? (front' ++ (eol ++ more)).length
          (dropGap front' ++ (eol ++ more)) = some (url, behind ++ (eol ++ more)) :=
        destination?_append hfound (by simp) (heol.begins more)
      have hlabel' : label? (front ++ (eol ++ more)) = some (label, ':' :: (front' ++ (eol ++ more))) :=
        labelBody_append hlabel (eol ++ more)
      rw [List.cons_append]
      simp only [hlabel', hgap, hdestination, Option.map_some]
    · cases h
  · cases h

/-- The text begins with the bracket of a label. -/
def Bracketed (cs : List Char) : Prop := ∃ rest, cs.dropWhile isSpaceOrTab = '[' :: rest

theorem bracketed_of_definition? {d : Definition} (h : definition? cs = some (d, rest)) :
    Bracketed cs := by
  obtain ⟨behind, hnaming, -⟩ := definition?_eq_some_iff.1 h
  unfold naming? at hnaming
  split at hnaming
  · next front hw => exact ⟨front, hw⟩
  · cases hnaming

theorem Bracketed.head_ne (h : Bracketed cs) : cs.head? ≠ some '\n' := by
  intro hhead
  obtain ⟨rest, hcs⟩ := h
  obtain ⟨more, rfl⟩ := List.head?_eq_some_iff.1 hhead
  rw [List.dropWhile_cons_of_neg (by decide)] at hcs
  cases hcs

theorem Bracketed.dropGap (h : Bracketed cs) : ∃ rest, dropGap cs = '[' :: rest := by
  obtain ⟨rest, hcs⟩ := h
  have hcut := List.takeWhile_append_dropWhile (p := isSpaceOrTab) (l := cs)
  refine ⟨rest, ?_⟩
  rw [← hcut, hcs, Markdown.dropGap, List.dropWhile_append_of_pos, List.dropWhile_cons_of_neg (by decide)]
  intro c hc
  rw [List.mem_takeWhile_imp hc]
  rfl

theorem suffix_naming? {label url behind : List Char} (h : naming? cs = some (label, url, behind)) :
    behind <:+ cs := by
  unfold naming? at h
  split at h
  · next front hw =>
    split at h
    · next label' front' hlabel =>
      obtain ⟨found, hfound, heq⟩ := Option.map_eq_some_iff.1 h
      cases heq
      have hfront : front' <:+ front := (List.suffix_cons _ _).trans (suffix_labelBody hlabel)
      have hcs : front <:+ cs := (List.suffix_cons _ _).trans (hw ▸ List.dropWhile_suffix _)
      exact (suffix_destination? hfound).trans ((List.dropWhile_suffix _).trans (hfront.trans hcs))
    · cases h
  · cases h

/-! How a definition ends. -/

theorem ending?_titled_iff {title : List Char} : ending? cs = some (some title, rest) ↔
    startsWithGap cs = true ∧ ∃ after, title? (dropGap cs) = some (title, after) ∧
      blankLineEnd? after = some rest := by
  have hbare : (blankLineEnd? cs).map (fun rest => ((none : Option (List Char)), rest)) ≠
      some (some title, rest) := by
    cases blankLineEnd? cs <;> nofun
  unfold ending?
  dsimp only
  split
  · next hgap =>
    split
    · next found after htitle =>
      rw [htitle]
      split
      · next ended hended =>
        constructor
        · intro h
          cases h
          exact ⟨hgap, after, rfl, hended⟩
        · rintro ⟨-, after', heq, hrest⟩
          cases heq
          rw [hended] at hrest
          cases hrest
          rfl
      · next hnone =>
        refine iff_of_false hbare ?_
        rintro ⟨-, after', heq, hrest⟩
        cases heq
        rw [hnone] at hrest
        cases hrest
    · next hnone =>
      refine iff_of_false hbare ?_
      rintro ⟨-, after', heq, -⟩
      rw [hnone] at heq
      cases heq
  · next hgap => exact iff_of_false hbare fun h => hgap h.1

theorem blankLineEnd?_of_ending? (h : ending? cs = some (none, rest)) : blankLineEnd? cs = some rest := by
  have hbare (hmap : (blankLineEnd? cs).map (fun rest => ((none : Option (List Char)), rest)) =
      some (none, rest)) : blankLineEnd? cs = some rest := by
    obtain ⟨rest', hrest, heq⟩ := Option.map_eq_some_iff.1 hmap
    cases heq
    exact hrest
  unfold ending? at h
  dsimp only at h
  split at h
  · split at h
    · split at h
      · cases h
      · exact hbare h
    · exact hbare h
  · exact hbare h

theorem ending?_of_untitled (h : title? (dropGap cs) = none) :
    ending? cs = (blankLineEnd? cs).map fun rest => (none, rest) := by
  unfold ending?
  rw [h]
  dsimp only
  split <;> rfl

/-- The lines behind a definition are left behind it, unless they bring it another title. -/
theorem ending?_append {title : Option (List Char)} {eol rest' : List Char} (heol : IsLineEnd eol)
    (hmore : more.head? ≠ some '\n') (h : ending? cs = some (title, rest))
    (h' : ending? (cs ++ (eol ++ more)) = some (title, rest')) : LeftBehind cs rest eol more rest' := by
  cases title with
  | none =>
    obtain ⟨rest'', hrest, hleft⟩ := blankLineEnd?_append heol hmore (blankLineEnd?_of_ending? h)
    cases hrest.symm.trans (blankLineEnd?_of_ending? h')
    exact hleft
  | some title =>
    obtain ⟨hgap, after, htitle, hend⟩ := ending?_titled_iff.1 h
    obtain ⟨-, after', htitle', hend'⟩ := ending?_titled_iff.1 h'
    rw [title?_dropGap_append htitle] at htitle'
    cases htitle'
    obtain ⟨rest'', hrest, hleft⟩ := blankLineEnd?_append heol hmore hend
    cases hrest.symm.trans hend'
    exact hleft.of_suffix ((suffix_title? htitle).trans (List.dropWhile_suffix _))

theorem definition?_append {d : Definition} {eol rest' : List Char} (heol : IsLineEnd eol)
    (hmore : more.head? ≠ some '\n') (h : definition? cs = some (d, rest))
    (h' : definition? (cs ++ (eol ++ more)) = some (d, rest')) : LeftBehind cs rest eol more rest' := by
  obtain ⟨behind, hnaming, hending⟩ := definition?_eq_some_iff.1 h
  obtain ⟨behind', hnaming', hending'⟩ := definition?_eq_some_iff.1 h'
  rw [naming?_append heol hnaming] at hnaming'
  cases hnaming'
  exact (ending?_append heol hmore hending hending').of_suffix (suffix_naming? hnaming)

theorem suffix_definition? {d : Definition} (h : definition? cs = some (d, rest)) : rest <:+ cs := by
  obtain ⟨behind, hnaming, hending⟩ := definition?_eq_some_iff.1 h
  refine List.IsSuffix.trans ?_ (suffix_naming? hnaming)
  cases htitle : d.title with
  | none =>
    rw [htitle] at hending
    exact suffix_blankLineEnd? (blankLineEnd?_of_ending? hending)
  | some title =>
    rw [htitle] at hending
    obtain ⟨-, after, hafter, hend⟩ := ending?_titled_iff.1 hending
    exact (suffix_blankLineEnd? hend).trans ((suffix_title? hafter).trans (List.dropWhile_suffix _))

/-- With a bracket behind it no further line can be its title, so a definition is read again. -/
theorem definition?_append_bracketed {d : Definition} {eol : List Char} (heol : IsLineEnd eol)
    (hmore : Bracketed more) (h : definition? cs = some (d, rest)) (hrest : rest = [] ∨ Bracketed rest) :
    ∃ rest', definition? (cs ++ (eol ++ more)) = some (d, rest') := by
  obtain ⟨behind, hnaming, hending⟩ := definition?_eq_some_iff.1 h
  have hnaming' := naming?_append heol hnaming more
  cases htitle : d.title with
  | some title =>
    rw [htitle] at hending
    obtain ⟨hgap, after, hafter, hend⟩ := ending?_titled_iff.1 hending
    obtain ⟨rest', hend', -⟩ := blankLineEnd?_append heol hmore.head_ne hend
    refine ⟨rest', definition?_eq_some_iff.2 ⟨_, hnaming', ?_⟩⟩
    rw [htitle]
    exact ending?_titled_iff.2 ⟨startsWithGap_append hgap _, _, title?_dropGap_append hafter _, hend'⟩
  | none =>
    rw [htitle] at hending
    have hbare := blankLineEnd?_of_ending? hending
    obtain ⟨rest', hend', -⟩ := blankLineEnd?_append heol hmore.head_ne hbare
    have hbracket : ∃ tail, dropGap (behind ++ (eol ++ more)) = '[' :: tail := by
      obtain ⟨gap, rfl, hgap, -⟩ := exists_gap_of_blankLineEnd? hbare
      rw [List.append_assoc, dropGap_append hgap]
      rcases hrest with rfl | ⟨tail, htail⟩
      · have heol' : ∀ c ∈ eol, isSpaceOrTab c = true ∨ isEol c = true := by
          rcases heol with rfl | rfl | rfl <;> simp [isEol]
        rw [List.nil_append, dropGap_append heol']
        exact hmore.dropGap
      · have hlonger : Bracketed (rest ++ (eol ++ more)) :=
          ⟨tail ++ (eol ++ more), by rw [dropWhile_append_lineEnd heol, htail]; rfl⟩
        exact hlonger.dropGap
    obtain ⟨tail, htail⟩ := hbracket
    refine ⟨rest', definition?_eq_some_iff.2 ⟨_, hnaming', ?_⟩⟩
    rw [htitle, ending?_of_untitled (by rw [htail]; rfl), hend']
    rfl

/-! The definitions at the front of a text. -/

theorem definitions_nil (n : Nat) : definitions n [] = ([], []) := by
  cases n <;> rfl

theorem definitions_succ_of_none (h : definition? cs = none) (n : Nat) :
    definitions (n + 1) cs = ([], cs) := by
  rw [definitions, h]

theorem definitions_succ_of_some {d : Definition} (h : definition? cs = some (d, rest)) (n : Nat) :
    definitions (n + 1) cs = (d :: (definitions n rest).1, (definitions n rest).2) := by
  rw [definitions, h]

theorem definitions_cases (n : Nat) (cs : List Char) :
    definition? cs = none ∧ definitions (n + 1) cs = ([], cs) ∨
      ∃ d rest, definition? cs = some (d, rest) ∧
        definitions (n + 1) cs = (d :: (definitions n rest).1, (definitions n rest).2) := by
  cases h : definition? cs with
  | none => exact .inl ⟨rfl, definitions_succ_of_none h n⟩
  | some found => exact .inr ⟨found.1, found.2, rfl, definitions_succ_of_some h n⟩

theorem length_definitions_le (n : Nat) (cs : List Char) : (definitions n cs).1.length ≤ n := by
  induction n generalizing cs with
  | zero => exact Nat.le_refl 0
  | succ n ih =>
    rcases definitions_cases n cs with ⟨-, heq⟩ | ⟨d, rest, -, heq⟩
    · rw [heq]
      exact Nat.zero_le _
    · rw [heq]
      exact Nat.succ_le_succ (ih rest)

/-- More steps read no more where nothing is left. -/
theorem definitions_of_le {n n' : Nat} {ds : List Definition} (h : definitions n cs = (ds, []))
    (hn : n ≤ n') : definitions n' cs = (ds, []) := by
  induction n generalizing cs ds n' with
  | zero =>
    cases h
    exact definitions_nil n'
  | succ n ih =>
    obtain ⟨n', rfl⟩ := Nat.exists_eq_add_of_lt hn
    rcases definitions_cases n cs with ⟨-, heq⟩ | ⟨d, rest, hd, heq⟩
    · cases heq.symm.trans h
      exact definitions_nil _
    · obtain ⟨rfl, hleft⟩ := Prod.mk.inj (heq.symm.trans h)
      rw [definitions_succ_of_some hd, ih (Prod.ext rfl hleft) (by omega)]

theorem bracketed_of_definitions {n : Nat} {ds : List Definition} (h : definitions n cs = (ds, []))
    (hne : cs ≠ []) : Bracketed cs ∧ ds ≠ [] := by
  cases n with
  | zero =>
    cases h
    exact absurd rfl hne
  | succ n =>
    rcases definitions_cases n cs with ⟨-, heq⟩ | ⟨d, rest, hd, heq⟩
    · cases heq.symm.trans h
      exact absurd rfl hne
    · obtain ⟨rfl, -⟩ := Prod.mk.inj (heq.symm.trans h)
      exact ⟨bracketed_of_definition? hd, List.cons_ne_nil _ _⟩

/-- Definitions alone, and then those of the further lines. -/
theorem definitions_append {n : Nat} {ds : List Definition} {eol : List Char} (heol : IsLineEnd eol)
    (hmore : Bracketed more) (h : definitions n cs = (ds, [])) (hne : cs ≠ []) (hopen : ¬ EndsLine cs)
    (k : Nat) : definitions (ds.length + k) (cs ++ (eol ++ more)) =
      (ds ++ (definitions k more).1, (definitions k more).2) := by
  induction n generalizing cs ds with
  | zero =>
    cases h
    exact absurd rfl hne
  | succ n ih =>
    cases hd : definition? cs with
    | none =>
      rw [definitions_succ_of_none hd] at h
      cases h
      exact absurd rfl hne
    | some found =>
      obtain ⟨d, rest⟩ := found
      rw [definitions_succ_of_some hd] at h
      cases hrest : definitions n rest with
      | mk ds' left =>
        rw [hrest] at h
        cases h
        have hbracket : rest = [] ∨ Bracketed rest :=
          or_iff_not_imp_left.2 fun hnil => (bracketed_of_definitions hrest hnil).1
        obtain ⟨rest', hd'⟩ := definition?_append_bracketed heol hmore hd hbracket
        have hlength : (d :: ds').length + k = (ds'.length + k) + 1 := Nat.succ_add _ _
        rw [hlength, definitions_succ_of_some hd']
        cases definition?_append heol hmore.head_ne hd hd' with
        | rest hleft =>
          have hrestne : rest ≠ [] := fun hnil => hopen (hleft hnil)
          rw [ih hrest hrestne fun hends => hopen (hends.of_suffix (suffix_definition? hd))]
          rfl
        | more hnil =>
          rw [hnil, definitions_nil] at hrest
          cases hrest
          rw [List.length_nil, Nat.zero_add]
          rfl

namespace Block

/-- The blocks of a paragraph's text, what its definitions leave read in some way. -/
def textBlocks (read : List Char → Block) (found : List Definition × List Char) : List Block :=
  found.1.map .definition ++ if found.2.isEmpty then [] else [read found.2]

/-- A way to read a text as another block than a definition, and as no other paragraph than itself. -/
structure Reading (read : List Char → Block) : Prop where
  definition : ∀ cs d, read cs ≠ .definition d
  paragraph : ∀ cs cs', read cs = .paragraph cs' → cs = cs'

theorem reading_paragraph : Reading .paragraph := ⟨nofun, fun _ _ h => Block.paragraph.inj h⟩

theorem reading_heading (depth : Nat) : Reading (.heading depth) := ⟨nofun, nofun⟩

theorem textBlocks_cons (read : List Char → Block) (d : Definition) (found : List Definition × List Char) :
    textBlocks read (d :: found.1, found.2) = .definition d :: textBlocks read found := rfl

theorem textBlocks_nil_left (read : List Char → Block) (hne : cs ≠ []) :
    textBlocks read ([], cs) = [read cs] := by
  unfold textBlocks
  rw [if_neg (by rwa [List.isEmpty_iff])]
  rfl

theorem textBlocks_ne_nil (read : List Char → Block) (hne : cs ≠ []) (n : Nat) :
    textBlocks read (definitions n cs) ≠ [] := by
  have hbare : textBlocks read ([], cs) ≠ [] := by
    rw [textBlocks_nil_left read hne]
    exact List.cons_ne_nil _ _
  cases n with
  | zero => exact hbare
  | succ n =>
    rcases definitions_cases n cs with ⟨-, heq⟩ | ⟨d, rest, -, heq⟩
    · rw [heq]
      exact hbare
    · rw [heq]
      exact List.cons_ne_nil _ _

/-- A text without definitions at its front comes to the blocks of an earlier part of it only if that had
definitions alone. -/
theorem textBlocks_bare {read : List Char → Block} (hread : Reading read) {eol : List Char}
    (heol : IsLineEnd eol) (hne : more ≠ []) {n : Nat} {Z Z' : List Block}
    (h : textBlocks read ([], cs ++ (eol ++ more)) ++ Z = textBlocks .paragraph (definitions n cs) ++ Z') :
    (definitions n cs).2 = [] ∧ Z' ≠ [] := by
  have hlonger : cs ++ (eol ++ more) ≠ [] := fun hnil =>
    hne (List.append_eq_nil_iff.1 (List.append_eq_nil_iff.1 hnil).2).2
  rw [textBlocks_nil_left read hlonger, List.singleton_append] at h
  have hbare (h : read (cs ++ (eol ++ more)) :: Z = textBlocks .paragraph ([], cs) ++ Z') :
      cs = [] ∧ Z' ≠ [] := by
    by_cases hcs : cs = []
    · rw [hcs] at h
      exact ⟨hcs, fun hnil => List.cons_ne_nil _ _ (h.trans hnil)⟩
    · rw [textBlocks_nil_left _ hcs] at h
      have hsame := congrArg List.length (hread.paragraph _ _ (List.cons.inj h).1)
      have hpos : 0 < eol.length := by rcases heol with rfl | rfl | rfl <;> decide
      simp only [List.length_append] at hsame
      omega
  cases n with
  | zero => exact hbare h
  | succ n =>
    rcases definitions_cases n cs with ⟨-, heq⟩ | ⟨d, rest, -, heq⟩
    · rw [heq] at h ⊢
      exact hbare h
    · rw [heq, textBlocks_cons] at h
      exact absurd (List.cons.inj h).1 (hread.definition _ _)

/-- A text that goes on in further lines comes to the blocks it had, and more, only if it had definitions
alone. -/
theorem textBlocks_append {read : List Char → Block} (hread : Reading read) {eol : List Char}
    (heol : IsLineEnd eol) (hne : more ≠ []) (hmore : more.head? ≠ some '\n') {n n' : Nat}
    {Z Z' : List Block} (h : textBlocks read (definitions n' (cs ++ (eol ++ more))) ++ Z =
      textBlocks .paragraph (definitions n cs) ++ Z') :
    (definitions n cs).2 = [] ∧ Z' ≠ [] := by
  induction n' generalizing n cs with
  | zero => exact textBlocks_bare hread heol hne h
  | succ n' ih =>
    rcases definitions_cases n' (cs ++ (eol ++ more)) with ⟨-, heq'⟩ | ⟨d', rest', hd', heq'⟩
    · rw [heq'] at h
      exact textBlocks_bare hread heol hne h
    · rw [heq', textBlocks_cons, List.cons_append] at h
      have hbare (h : Block.definition d' :: (textBlocks read (definitions n' rest') ++ Z) =
          textBlocks .paragraph ([], cs) ++ Z') : cs = [] ∧ Z' ≠ [] := by
        by_cases hcs : cs = []
        · rw [hcs] at h
          exact ⟨hcs, fun hnil => List.cons_ne_nil _ _ (h.trans hnil)⟩
        · rw [textBlocks_nil_left _ hcs] at h
          exact nomatch (List.cons.inj h).1
      cases n with
      | zero => exact hbare h
      | succ n =>
        rcases definitions_cases n cs with ⟨-, heq⟩ | ⟨d, rest, hd, heq⟩
        · rw [heq] at h ⊢
          exact hbare h
        · rw [heq, textBlocks_cons] at h
          rw [heq]
          obtain ⟨hsame, htail⟩ := List.cons.inj h
          cases hsame
          cases definition?_append heol hmore hd hd' with
          | rest => exact ih htail
          | more hnil =>
            rw [hnil, definitions_nil] at htail ⊢
            exact ⟨rfl, fun hZ => textBlocks_ne_nil read hne n'
              (List.append_eq_nil_iff.1 (htail.trans hZ)).1⟩

end Block
end Bindery.Markdown
