import Bindery.Proofs.Markdown.Paragraphs

/-! What a document under construction can still come to, whatever lines follow. A move comes to nothing
that was not to be had before it, so what no outcome has is out of reach of every text. -/

namespace Bindery.Markdown.Block

/-- What a leaf can leave behind: it grows before it is closed, and a paragraph can turn into a heading
or leave its last line to a table. -/
inductive Leaf.Comes (P : Line → Prop) : Leaf → List Entry → Prop
  | close (leaf : Leaf) : Comes P leaf leaf.close
  | grow {leaf leaf' : Leaf} {es : List Entry} (h : Leaf.Grows P leaf leaf') (hes : Comes P leaf' es) :
      Comes P leaf es
  | underline (depth : Nat) (lines : List Line) : Comes P (.paragraph lines)
      ((textBlocks (.heading depth) (ofParagraph lines)).map Entry.block).reverse
  | head (l : Line) (before : List Line) (align : List (Option Align)) (rows : List (List (List Char))) :
      Comes P (.paragraph (l :: before)) (.block (.table align rows) :: (Leaf.paragraph before).close)

/-- What the entries of a document can be at its end when `es` goes into its innermost container: every
container takes up more and is closed. -/
inductive Into : List Entry → List Frame → List Entry → List Entry → Prop
  | top (X es E : List Entry) : Into es [] E (X ++ es ++ E)
  | frame {X es E F : List Entry} {f : Frame} {fs : List Frame}
      (h : Into (f.withEntries (X ++ es ++ f.entries)).close fs E F) : Into es (f :: fs) E F

/-- The document can end with these entries. -/
def Building.Comes (P : Line → Prop) (b : Building) (F : List Entry) : Prop :=
  ∃ es, b.leaf.Comes P es ∧ Into es b.frames b.entries F

variable {P : Line → Prop} {b b' : Building} {es F : List Entry}

theorem Leaf.Comes.none_eq (h : Leaf.none.Comes P es) : es = [] := by
  cases h with
  | close => rfl
  | grow h => cases h

theorem Leaf.Comes.table {align : List (Option Align)} {rows : List (List (List Char))}
    (h : (Leaf.table align rows).Comes P es) :
    ∃ more, es = [.block (.table align (rows.reverse ++ more))] := by
  generalize hleaf : Leaf.table align rows = leaf at h
  induction h generalizing rows with
  | close =>
    subst hleaf
    exact ⟨[], by rw [List.append_nil]; rfl⟩
  | grow hgrow _ ih =>
    subst hleaf
    cases hgrow with
    | table _ row _ =>
      obtain ⟨more, hmore⟩ := ih rfl
      exact ⟨row :: more, by rw [hmore, List.reverse_cons, List.append_assoc]; rfl⟩
  | underline => cases hleaf
  | head => cases hleaf

/-! What goes into the innermost container. -/

theorem Into.absorb {Y E : List Entry} {fs : List Frame} (h : Into (Y ++ es) fs E F) : Into es fs E F := by
  cases h with
  | top X =>
    rw [← List.append_assoc]
    exact .top (X ++ Y) es E
  | @frame X _ _ _ f fs h =>
    rw [← List.append_assoc] at h
    exact .frame h

theorem Into.nil {E : List Entry} {fs : List Frame} (h : Into es fs E F) : Into [] fs E F :=
  Into.absorb (Y := es) (by rwa [List.append_nil])

theorem Into.pushAll {es' : List Entry} (h : Into es (b.pushAll es').frames (b.pushAll es').entries F) :
    Into (es ++ es') b.frames b.entries F := by
  cases hframes : b.frames with
  | nil =>
    rw [Building.pushAll_of_nil hframes, hframes] at h
    cases h with
    | top X =>
      rw [← List.append_assoc, List.append_assoc X]
      exact .top X (es ++ es') b.entries
  | cons f fs =>
    rw [Building.pushAll_of_cons hframes] at h
    cases h with
    | @frame X _ _ _ _ _ h =>
      refine .frame (X := X) ?_
      rwa [Frame.entries_withEntries, Frame.withEntries_withEntries, ← List.append_assoc,
        List.append_assoc X] at h

theorem into_sealed (es : List Entry) (fs : List Frame) (E : List Entry) :
    Into es fs E (sealed es fs.reverse E) := by
  induction fs generalizing es with
  | nil => exact .top [] es E
  | cons f fs ih =>
    rw [List.reverse_cons, sealed_append]
    exact .frame (X := []) (ih _)

theorem Into.same {E : List Entry} {fs fs' : List Frame} (hsame : List.Forall₂ Frame.Same fs fs')
    (h : Into es fs' E F) : Into es fs E F := by
  induction hsame generalizing es with
  | nil => exact h
  | cons hf _ ih =>
    cases h with
    | @frame X _ _ _ _ _ h =>
      rw [hf.entries, hf.close] at h
      exact .frame (ih h)

/-! What a move leaves to come to. -/

theorem Move.comes (h : Move P b b') (hF : b'.Comes P F) : b.Comes P F := by
  obtain ⟨es, hes, hinto⟩ := hF
  cases h with
  -- What is closed, made a heading or left behind by a table goes into the container as one of the leaf's own ends.
  | close =>
    rw [Building.leaf_closeLeaf] at hes
    cases hes.none_eq
    exact ⟨_, .close _, Into.pushAll (b := { b with leaf := .none }) hinto⟩
  | push hnone e =>
    have hleaf : (b.push e).leaf = .none := (Building.leaf_pushAll b [e]).trans hnone
    rw [hleaf] at hes
    cases hes.none_eq
    have hpushed : Into [e] b.frames b.entries F := @Into.pushAll b [] F [e] hinto
    exact ⟨[], hnone ▸ .close _, hpushed.nil⟩
  -- The container that is left counts as closed with nothing more in it.
  | leave hnone =>
    rw [Building.leaf_leave, hnone] at hes
    cases hes.none_eq
    refine ⟨[], hnone ▸ .close _, ?_⟩
    cases hframes : b.frames with
    | nil => rwa [Building.leave, hframes, hframes] at hinto
    | cons f fs =>
      rw [Building.leave, hframes] at hinto
      refine .frame (X := []) ?_
      rw [List.append_nil, List.nil_append, Frame.withEntries_entries]
      exact Into.pushAll (b := { b with frames := fs }) hinto
  | enter hnone hf =>
    dsimp only at hes hinto
    rw [hnone] at hes
    cases hes.none_eq
    refine ⟨[], hnone ▸ .close _, ?_⟩
    cases hinto with
    | frame h => exact h.nil
  | keep hsame => exact ⟨es, hes, hinto.same hsame⟩
  | start hnone hleaf => exact ⟨[], hnone ▸ .close _, hinto.nil⟩
  | grow hgrow => exact ⟨es, .grow hgrow hes, hinto⟩
  | underline hparagraph depth =>
    rw [Building.leaf_pushAll] at hes
    cases hes.none_eq
    exact ⟨_, hparagraph ▸ .underline depth _, Into.pushAll (b := { b with leaf := .none }) hinto⟩
  | @head l before hparagraph align rows =>
    obtain ⟨more, rfl⟩ := hes.table
    exact ⟨_, hparagraph ▸ .head l before align _,
      @Into.pushAll { b with leaf := .none } _ F (Leaf.paragraph before).close hinto⟩

theorem comes_final (P : Line → Prop) (b : Building) : b.Comes P b.final :=
  ⟨_, .close _, into_sealed _ _ _⟩

/-- A document comes to nothing that was not to be had when it was begun. -/
theorem comes_of_moves (h : Moves P b b') (hF : b'.Comes P F) : b.Comes P F := by
  induction h with
  | refl => exact hF
  | tail _ h ih => exact ih (h.comes hF)

/-! Documents that hold more than link definitions. -/

/-- The entry is neither a definition nor a blank line. -/
def Entry.Foreign : Entry → Prop
  | .blank | .block (.definition _) => False
  | _ => True

/-- Every block is a definition. -/
def Defining (bs : List Block) : Prop := ∀ block ∈ bs, ∃ d, block = .definition d

theorem not_defining_of_foreign {e : Entry} (he : e ∈ F) (h : e.Foreign) :
    ¬ Defining (gather F).blocks := by
  intro hdefining
  rcases exists_mem_gather he with rfl | ⟨block, hblock, rfl | hitem⟩
  · exact h
  · obtain ⟨d, rfl⟩ := hdefining block hblock
    exact h
  · obtain ⟨-, -, -, -, -, ordered, start, spread, items, rfl⟩ := hitem
    obtain ⟨d, hd⟩ := hdefining _ hblock
    cases hd

def Leaf.Foreign (leaf : Leaf) : Prop := ∀ es, leaf.Comes (fun _ => True) es → ∃ e ∈ es, e.Foreign

def Building.Foreign (b : Building) : Prop := ∀ F, b.Comes (fun _ => True) F → ∃ e ∈ F, e.Foreign

theorem Building.Foreign.not_defining (h : b.Foreign) : ¬ Defining b.blocks := by
  obtain ⟨e, he, hforeign⟩ := h b.final (comes_final _ b)
  exact not_defining_of_foreign he hforeign

theorem Building.Foreign.of_moves (h : b.Foreign) (hmoves : Moves (fun _ => True) b b') : b'.Foreign :=
  fun F hF => h F (comes_of_moves hmoves hF)

theorem Frame.foreign_close (f : Frame) : ∃ e ∈ f.close, e.Foreign := by
  cases f with
  | quote es => exact ⟨_, List.mem_singleton_self _, trivial⟩
  | item => exact ⟨_, List.mem_append_right _ (List.mem_singleton_self _), trivial⟩

theorem Into.mem_top {E : List Entry} {fs : List Frame} (h : Into es fs E F) {e : Entry} (he : e ∈ E) :
    e ∈ F := by
  induction h with
  | top => exact List.mem_append_right _ he
  | frame _ ih => exact ih he

theorem Into.foreign {E : List Entry} {fs : List Frame} (h : Into es fs E F)
    (hes : ∃ e ∈ es, e.Foreign) : ∃ e ∈ F, e.Foreign := by
  induction h with
  | top =>
    obtain ⟨e, he, hforeign⟩ := hes
    exact ⟨e, List.mem_append_left _ (List.mem_append_right _ he), hforeign⟩
  | frame _ ih => exact ih (Frame.foreign_close _)

theorem foreign_of_frames (h : b.frames ≠ []) : b.Foreign := by
  rintro F ⟨es, -, hinto⟩
  obtain ⟨f, fs, hframes⟩ := List.exists_cons_of_ne_nil h
  rw [hframes] at hinto
  cases hinto with
  | frame hinto => exact hinto.foreign (Frame.foreign_close _)

theorem foreign_of_leaf (h : b.leaf.Foreign) : b.Foreign := by
  rintro F ⟨es, hes, hinto⟩
  exact hinto.foreign (h es hes)

theorem foreign_of_entry {e : Entry} (he : e ∈ b.entries) (h : e.Foreign) : b.Foreign := by
  rintro F ⟨es, -, hinto⟩
  exact ⟨e, hinto.mem_top he, h⟩

theorem foreign_push {e : Entry} (h : e.Foreign) (b : Building) : (b.push e).Foreign := by
  cases hframes : b.frames with
  | nil =>
    refine foreign_of_entry (e := e) ?_ h
    rw [Building.push, hframes]
    exact List.mem_cons_self
  | cons f fs =>
    refine foreign_of_frames ?_
    rw [Building.push, hframes]
    exact List.cons_ne_nil _ _

/-! Leaves that come to no definitions alone. -/

/-- Is the leaf another block than a paragraph? -/
def Leaf.isOther : Leaf → Bool
  | indented _ | fenced .. | html .. | table .. => true
  | none | underlined | paragraph _ => false

theorem Leaf.foreign_of_isOther {leaf : Leaf} (h : leaf.isOther = true) : leaf.Foreign := by
  intro es hes
  induction hes with
  | close leaf =>
    cases leaf with
    | none => cases h
    | underlined => cases h
    | paragraph => cases h
    | indented => exact ⟨_, List.mem_append_right _ (List.mem_singleton_self _), trivial⟩
    | fenced => exact ⟨_, List.mem_singleton_self _, trivial⟩
    | html => exact ⟨_, List.mem_singleton_self _, trivial⟩
    | table => exact ⟨_, List.mem_singleton_self _, trivial⟩
  | grow hgrow _ ih =>
    cases hgrow with
    | paragraph => cases h
    | indented => exact ih rfl
    | fenced => exact ih rfl
    | html => exact ih rfl
    | table => exact ih rfl
  | underline => cases h
  | head => cases h

/-- The text begins with something else than the bracket of a label. -/
def Stray (cs : List Char) : Prop := ∃ c ∈ (cs.dropWhile isSpaceOrTab).head?, c ≠ '['

theorem stray_of_not_bracketed {cs : List Char} (hblank : cs.all isSpaceOrTab = false)
    (h : ¬ Bracketed cs) : Stray cs := by
  cases hw : cs.dropWhile isSpaceOrTab with
  | nil =>
    rw [List.dropWhile_eq_nil_iff, ← List.all_eq_true, hblank] at hw
    cases hw
  | cons c rest =>
    refine ⟨c, by rw [hw]; rfl, ?_⟩
    rintro rfl
    exact h ⟨rest, hw⟩

theorem Stray.append {cs : List Char} (h : Stray cs) (more : List Char) : Stray (cs ++ more) := by
  obtain ⟨c, hc, hne⟩ := h
  refine ⟨c, ?_, hne⟩
  rw [List.dropWhile_append]
  split
  · next hnil =>
    rw [List.isEmpty_iff.1 hnil] at hc
    cases hc
  · rw [List.head?_append, Option.mem_def.1 hc]
    rfl

theorem Stray.definitions_eq {cs : List Char} (h : Stray cs) (n : Nat) : definitions n cs = ([], cs) := by
  cases n with
  | zero => rfl
  | succ n =>
    refine definitions_succ_of_none ?_ n
    by_contra hne
    obtain ⟨⟨d, rest⟩, hd⟩ := Option.ne_none_iff_exists'.1 hne
    obtain ⟨rest', hrest⟩ := bracketed_of_definition? hd
    obtain ⟨c, hc, hne⟩ := h
    rw [hrest] at hc
    cases hc
    exact hne rfl

theorem Stray.ne_nil {cs : List Char} (h : Stray cs) : cs ≠ [] := by
  rintro rfl
  obtain ⟨c, hc, -⟩ := h
  cases hc

theorem close_paragraph (lines : List Line) : (Leaf.paragraph lines).close =
    ((textBlocks .paragraph (ofParagraph lines)).map Entry.block).reverse := by
  rw [textBlocks, List.map_append, List.reverse_append, List.map_map, Leaf.close]
  dsimp only
  split <;> rfl

/-- A paragraph that begins with other text stays one, whatever lines it takes up. -/
theorem Leaf.foreign_of_stray {l : Line} (h : Stray l.text) (lines : List Line) :
    (Leaf.paragraph (lines ++ [l])).Foreign := by
  have hblocks (read : List Char → Block) (hread : ∀ cs, (Entry.block (read cs)).Foreign) (lines : List Line) :
      ∃ e ∈ ((textBlocks read (ofParagraph (lines ++ [l]))).map Entry.block).reverse, e.Foreign := by
    obtain ⟨more, hmore⟩ := exists_joinLines_cons l lines.reverse
    have htext := h.append more
    rw [ofParagraph, List.reverse_append, List.reverse_singleton, List.singleton_append, hmore,
      htext.definitions_eq, textBlocks_nil_left read htext.ne_nil]
    exact ⟨_, List.mem_singleton_self _, hread _⟩
  intro es hes
  generalize hleaf : Leaf.paragraph (lines ++ [l]) = leaf at hes
  induction hes generalizing lines with
  | close =>
    subst hleaf
    rw [close_paragraph]
    exact hblocks .paragraph (fun _ => trivial) lines
  | grow hgrow _ ih =>
    subst hleaf
    -- New lines go on top, so the first one stays where it is.
    cases hgrow with
    | @paragraph l' _ _ => exact ih (l' :: lines) rfl
  | underline depth lines' =>
    cases hleaf
    exact hblocks (.heading depth) (fun _ => trivial) lines
  | head => exact ⟨_, List.mem_cons_self, trivial⟩

end Bindery.Markdown.Block
