import Bindery.Html.Reference
import Bindery.Proofs.Text.Trim
import Mathlib.Data.List.TakeWhile

/-! The start tags that the scan for references takes. A tag is taken when a carrier's name, in any
case, stands between blanks after the `<` and when something but a single blank stands between the
name and the next `>`. Both ways of reading the text agree on the parts. -/

namespace Bindery.Html.Reference

open Text (isBlank)

section Letters

variable {c : Char}

theorem letter_of_foldCase (hlow : 'a' ≤ foldCase c) (hhigh : foldCase c ≤ 'z') :
    c = '\u017F' ∨ c = '\u212A' ∨ ('A' ≤ c ∧ c ≤ 'Z') ∨ ('a' ≤ c ∧ c ≤ 'z') := by
  unfold foldCase at hlow hhigh
  split at hlow
  · exact .inl ‹_›
  · rw [if_neg ‹_›] at hhigh
    split at hlow
    · exact .inr (.inl ‹_›)
    · rw [if_neg ‹_›] at hhigh
      unfold Text.toAsciiLower at hlow hhigh
      split at hlow
      · rename_i hupper
        simp only [Bool.and_eq_true, decide_eq_true_eq] at hupper
        exact .inr (.inr (.inl hupper))
      · rw [if_neg ‹_›] at hhigh
        exact .inr (.inr (.inr ⟨hlow, hhigh⟩))

theorem isBlank_of_letter (hlow : 'a' ≤ foldCase c) (hhigh : foldCase c ≤ 'z') :
    isBlank c = false := by
  have hcode : c.toNat = 0x17F ∨ c.toNat = 0x212A ∨ (65 ≤ c.toNat ∧ c.toNat ≤ 122) := by
    rcases letter_of_foldCase hlow hhigh with rfl | rfl | ⟨hl, hh⟩ | ⟨hl, hh⟩
    · exact .inl rfl
    · exact .inr (.inl rfl)
    · have hl : 65 ≤ c.toNat := hl
      have hh : c.toNat ≤ 90 := hh
      omega
    · have hl : 97 ≤ c.toNat := hl
      have hh : c.toNat ≤ 122 := hh
      omega
  simp only [isBlank, Bool.or_eq_false_iff, Bool.and_eq_false_iff, decide_eq_false_iff_not,
    beq_eq_false_iff_ne]
  omega

end Letters

theorem afterFolded?_eq_some_iff {word cs rest : List Char} :
    afterFolded? word cs = some rest ↔ ∃ name, name.map foldCase = word ∧ cs = name ++ rest := by
  induction word generalizing cs with
  | nil => simp [afterFolded?, eq_comm]
  | cons w word ih =>
    cases cs with
    | nil =>
      refine ⟨nofun, ?_⟩
      rintro ⟨name, hname, hcs⟩
      have hnil : name = [] := (List.append_eq_nil_iff.1 hcs.symm).1
      rw [hnil] at hname
      exact absurd hname (by simp)
    | cons c cs =>
      unfold afterFolded?
      split
      · rename_i hw
        rw [ih]
        constructor
        · rintro ⟨name, hname, rfl⟩
          exact ⟨c :: name, by rw [List.map_cons, hname, hw], rfl⟩
        · rintro ⟨name, hname, hcs⟩
          obtain ⟨d, name, rfl, -, hrest⟩ := List.map_eq_cons_iff.1 hname
          rw [List.cons_append, List.cons.injEq] at hcs
          exact ⟨name, hrest, hcs.2⟩
      · rename_i hw
        refine ⟨nofun, ?_⟩
        rintro ⟨name, hname, hcs⟩
        obtain ⟨d, name, rfl, hd, -⟩ := List.map_eq_cons_iff.1 hname
        rw [List.cons_append, List.cons.injEq] at hcs
        exact absurd (hcs.1 ▸ hd.symm) hw

/-- A carrier's name, in any case. -/
def IsCarrier (name : List Char) : Prop := name.map foldCase ∈ carriers

instance (name : List Char) : Decidable (IsCarrier name) :=
  inferInstanceAs (Decidable (_ ∈ carriers))

section Carriers

variable {name : List Char}

theorem IsCarrier.letter (h : IsCarrier name) {c : Char} (hc : c ∈ name) :
    'a' ≤ foldCase c ∧ foldCase c ≤ 'z' := by
  have hall : ∀ word ∈ carriers, ∀ d ∈ word, 'a' ≤ d ∧ d ≤ 'z' := by simp [carriers]
  exact hall _ h _ (List.mem_map_of_mem hc)

theorem IsCarrier.not_blank (h : IsCarrier name) : ∀ c ∈ name, isBlank c = false := fun _ hc =>
  isBlank_of_letter (h.letter hc).1 (h.letter hc).2

theorem IsCarrier.ne_nil (h : IsCarrier name) : name ≠ [] := by
  rintro rfl
  exact absurd h (by decide)

theorem IsCarrier.not_mem (h : IsCarrier name) {c : Char}
    (hc : ¬('a' ≤ foldCase c ∧ foldCase c ≤ 'z')) : c ∉ name := fun hmem => hc (h.letter hmem)

end Carriers

/-- The text after a `<` opens a carrier's tag: blanks, the name, the body that begins with a blank
and holds more than that, and the text from the first `>` on. -/
structure Opens (cs blanks name body rest : List Char) : Prop where
  parts : cs = blanks ++ (name ++ (body ++ '>' :: rest))
  blank : ∀ c ∈ blanks, isBlank c = true
  carrier : IsCarrier name
  body_blank : ∃ b more, body = b :: more ∧ isBlank b = true ∧ more ≠ []
  body_inner : '>' ∉ body

/-- The carrier found at the front of a text, with what follows it. -/
def carrier? (cs : List Char) : Option (Nat × List Char) :=
  carriers.findSome? fun name =>
    match afterFolded? name cs with
    | some (c :: more) => if isBlank c then some (name.length, c :: more) else none
    | _ => none

theorem carrier?_eq_some_iff {cs after : List Char} {width : Nat} :
    carrier? cs = some (width, after) ↔
      ∃ name, IsCarrier name ∧ name.length = width ∧ cs = name ++ after ∧
        ∃ c ∈ after.head?, isBlank c = true := by
  have hread : ∀ {word : List Char} {found : Nat × List Char}, word ∈ carriers →
      (match afterFolded? word cs with
        | some (c :: more) => if isBlank c then some (word.length, c :: more) else none
        | _ => none) = some found →
      ∃ name, IsCarrier name ∧ name.length = found.1 ∧ cs = name ++ found.2 ∧
        ∃ c ∈ found.2.head?, isBlank c = true := by
    intro word found hword hfound
    split at hfound
    · rename_i c more hafter
      obtain ⟨hblank, hfound⟩ := Option.ite_none_right_eq_some.1 hfound
      obtain ⟨name, rfl, hcs⟩ := afterFolded?_eq_some_iff.1 hafter
      cases hfound
      exact ⟨name, hword, (List.length_map _).symm, hcs, c, rfl, hblank⟩
    · cases hfound
  constructor
  · intro h
    obtain ⟨word, hword, hfound⟩ := List.exists_of_findSome?_eq_some h
    exact hread hword hfound
  · rintro ⟨name, hcarrier, rfl, hcs, c, hc, hblank⟩
    obtain ⟨more, rfl⟩ : ∃ more, after = c :: more := by
      cases after with
      | nil => cases hc
      | cons d more => exact ⟨more, by rw [Option.mem_some.1 hc]⟩
    have hsome : (carrier? cs).isSome := by
      refine List.findSome?_isSome_iff.2 ⟨_, hcarrier, ?_⟩
      rw [afterFolded?_eq_some_iff.2 ⟨name, rfl, hcs⟩]
      simp [hblank]
    obtain ⟨found, hfound⟩ := Option.isSome_iff_exists.1 hsome
    obtain ⟨word, hword, hgot⟩ := List.exists_of_findSome?_eq_some hfound
    obtain ⟨name', hcarrier', hwidth, hcs', c', hc', hblank'⟩ := hread hword hgot
    -- both names end where the first blank stands
    have hstop : ∀ d ∈ found.2.head?, (!isBlank d) = false := by
      intro d hd
      rw [Option.mem_unique hd hc', hblank']
      rfl
    have hname' := Text.takeWhile_append_of_stop (p := fun d => !isBlank d)
      (fun d hd => by rw [hcarrier'.not_blank d hd]; rfl) hstop
    have hname := Text.takeWhile_append_of_stop (p := fun d => !isBlank d) (v := c :: more)
      (fun d hd => by rw [hcarrier.not_blank d hd]; rfl) (by simp [hblank])
    rw [← hcs'] at hname'
    rw [← hcs, hname'] at hname
    rw [hname, hcs] at hcs'
    rw [hfound, ← hname, hwidth, List.append_cancel_left hcs']

theorem tag?_eq (cs : List Char) : tag? cs =
    (carrier? (cs.dropWhile isBlank)).bind fun found =>
      let body := found.2.takeWhile (· != '>')
      if body.length < found.2.length && body.length > 1 then
        some ((cs.takeWhile isBlank).length + found.1, body)
      else none := by
  have hdrop : cs.drop (cs.takeWhile isBlank).length = cs.dropWhile isBlank := calc
    _ = (cs.takeWhile isBlank ++ cs.dropWhile isBlank).drop (cs.takeWhile isBlank).length := by
      rw [List.takeWhile_append_dropWhile]
    _ = _ := List.drop_left
  rw [← hdrop]
  rfl

theorem tag?_eq_some_iff {cs body : List Char} {lead : Nat} :
    tag? cs = some (lead, body) ↔
      ∃ blanks name rest, Opens cs blanks name body rest ∧ lead = blanks.length + name.length := by
  rw [tag?_eq]
  constructor
  · intro h
    obtain ⟨⟨width, after⟩, hcarrier, h⟩ := Option.bind_eq_some_iff.1 h
    obtain ⟨hlength, h⟩ := Option.ite_none_right_eq_some.1 h
    simp only [Bool.and_eq_true, decide_eq_true_eq] at hlength
    obtain ⟨hinner, hlong⟩ := hlength
    obtain ⟨name, hname, rfl, hcs, c, hc, hblank⟩ := carrier?_eq_some_iff.1 hcarrier
    cases h
    obtain ⟨rest, hrest⟩ := Text.exists_cut hinner
    refine ⟨cs.takeWhile isBlank, name, rest, ⟨?_, ?_, hname, ?_, ?_⟩, rfl⟩
    · rw [← hrest, ← hcs, List.takeWhile_append_dropWhile]
    · exact fun d hd => List.mem_takeWhile_imp hd
    · cases hbody : after.takeWhile (· != '>') with
      | nil => rw [hbody] at hlong; exact absurd hlong (by simp)
      | cons b more =>
        refine ⟨b, more, rfl, ?_, ?_⟩
        · rw [hrest, hbody] at hc
          rw [Option.mem_some.1 hc]
          exact hblank
        · rintro rfl
          rw [hbody] at hlong
          exact absurd hlong (by simp)
    · intro hmem
      exact absurd (List.mem_takeWhile_imp hmem) (by simp)
  · rintro ⟨blanks, name, rest, hopens, rfl⟩
    obtain ⟨b, more, hbody, hb, hmore⟩ := hopens.body_blank
    have hhead : ∀ c ∈ (name ++ (body ++ '>' :: rest)).head?, isBlank c = false := by
      intro c hc
      refine hopens.carrier.not_blank c ?_
      cases name with
      | nil => exact absurd rfl hopens.carrier.ne_nil
      | cons d name => rw [Option.mem_some.1 hc]; exact List.mem_cons_self
    have htake : cs.takeWhile isBlank = blanks := by
      rw [hopens.parts]
      exact Text.takeWhile_append_of_stop hopens.blank hhead
    have hdrop : cs.dropWhile isBlank = name ++ (body ++ '>' :: rest) := by
      rw [hopens.parts]
      exact Text.dropWhile_append_of_stop hopens.blank hhead
    have hcarrier : carrier? (cs.dropWhile isBlank) = some (name.length, body ++ '>' :: rest) :=
      carrier?_eq_some_iff.2 ⟨name, hopens.carrier, rfl, hdrop, b, by rw [hbody]; rfl, hb⟩
    have htext := Text.takeWhile_bne hopens.body_inner rest
    have hlong : 1 < body.length := by
      rw [hbody, List.length_cons]
      have := List.length_pos_of_ne_nil hmore
      omega
    rw [hcarrier, htake]
    simp [htext, hlong]

theorem Opens.not_mem_front {cs blanks name more rest : List Char} {b c : Char}
    (h : Opens cs blanks name (b :: more) rest) (hblank : isBlank c = false)
    (hletter : ¬('a' ≤ foldCase c ∧ foldCase c ≤ 'z')) : c ∉ blanks ++ name ++ [b] := by
  obtain ⟨b', more', hbody, hb, -⟩ := h.body_blank
  rw [List.cons.injEq] at hbody
  intro hmem
  rw [List.mem_append, List.mem_append, List.mem_singleton] at hmem
  rcases hmem with (hmem | hmem) | hmem
  · exact absurd (h.blank c hmem) (Bool.eq_false_iff.1 hblank)
  · exact h.carrier.not_mem hletter hmem
  · exact absurd hb (Bool.eq_false_iff.1 (hbody.1 ▸ hmem ▸ hblank))

/-- Whether a tag opens depends on the text up to the next `<` and on there being a `>`. -/
theorem tag?_isSome_congr {cs cs' : List Char}
    (hlead : cs.takeWhile (· != '<') = cs'.takeWhile (· != '<')) (hend : '>' ∈ cs ↔ '>' ∈ cs')
    (h : (tag? cs).isSome) : (tag? cs').isSome := by
  obtain ⟨⟨lead, body⟩, htag⟩ := Option.isSome_iff_exists.1 h
  obtain ⟨blanks, name, rest, hopens, -⟩ := tag?_eq_some_iff.1 htag
  obtain ⟨b, more, rfl, hb, hmore⟩ := hopens.body_blank
  have hlt : '<' ∉ blanks ++ name ++ [b] := hopens.not_mem_front (by decide) (by decide)
  have hgt : '>' ∉ blanks ++ name ++ [b] := hopens.not_mem_front (by decide) (by decide)
  obtain ⟨m, more, rfl⟩ := List.exists_cons_of_ne_nil hmore
  have hm : m ≠ '>' := by
    rintro rfl
    exact hopens.body_inner (by simp)
  have hcs : cs = (blanks ++ name ++ [b]) ++ (m :: more ++ '>' :: rest) := by
    rw [hopens.parts]
    simp
  obtain ⟨after, hafter, hhead⟩ : ∃ after, cs' = (blanks ++ name ++ [b]) ++ after ∧
      after.head? ≠ some '>' := by
    refine ⟨(m :: more ++ '>' :: rest).takeWhile (· != '<') ++ cs'.dropWhile (· != '<'), ?_, ?_⟩
    · have hsplit := List.takeWhile_append_dropWhile (p := (· != '<')) (l := cs')
      have hkept : ∀ c ∈ blanks ++ name ++ [b], (c != '<') = true := fun c hc =>
        bne_iff_ne.2 fun heq => hlt (heq ▸ hc)
      rw [← hlead, hcs, List.takeWhile_append_of_pos hkept, List.append_assoc] at hsplit
      exact hsplit.symm
    · by_cases hm' : m = '<'
      · have hstop := List.head?_dropWhile_not (· != '<') cs'
        intro hend
        rw [List.cons_append, List.takeWhile_cons, if_neg (by simp [hm']), List.nil_append] at hend
        rw [hend] at hstop
        exact absurd hstop (by decide)
      · simp [hm', hm]
  have hmem : '>' ∈ after := by
    have hmem : '>' ∈ cs' := hend.1 (by rw [hcs]; simp)
    rw [hafter, List.mem_append] at hmem
    exact hmem.resolve_left hgt
  obtain ⟨body, rest', rfl, hbody⟩ := List.eq_append_cons_of_mem hmem
  have hopens' : Opens cs' blanks name (b :: body) rest' := by
    refine ⟨by rw [hafter]; simp, hopens.blank, hopens.carrier, ⟨b, body, rfl, hb, ?_⟩, ?_⟩
    · rintro rfl
      exact hhead rfl
    · rw [List.mem_cons, not_or]
      exact ⟨fun heq => hgt (heq ▸ by simp), hbody⟩
  exact Option.isSome_iff_exists.2 ⟨_, tag?_eq_some_iff.2 ⟨_, _, _, hopens', rfl⟩⟩

end Bindery.Html.Reference
