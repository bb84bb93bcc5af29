import Bindery.Html.Tag
import Bindery.Proofs.Text.Trim
import Mathlib.Data.List.TakeWhile

/-! How a start tag of HTML is read: its name, then attribute after attribute with the values as
they are written, up to the `>` that ends it. Character references in a value are decoded by any
reader of such references. -/

namespace Bindery.Html

/-- The blanks between the parts of a tag. -/
def isTagSpace (c : Char) : Bool := " \t\n\r\x0c".toList.contains c

/-- Where the name of an attribute ends. -/
def endsName (c : Char) : Bool := isTagSpace c || "/>=".toList.contains c

/-- The value at the front of a text, as it is written, and what follows it. -/
def readValue : List Char → Option (List Char × List Char)
  | [] => none
  | c :: cs =>
    if c = '\x22' || c = '\x27' then
      match cs.dropWhile (· != c) with
      | _ :: rest => some (cs.takeWhile (· != c), rest)
      | [] => none
    else
      let stays := fun d => !(isTagSpace d || d == '>')
      some ((c :: cs).takeWhile stays, (c :: cs).dropWhile stays)

/-- What comes next in a tag. -/
inductive TagPart where
  | close
  | attribute (name value : List Char)
  deriving Repr, DecidableEq

/-- The next part of a tag and what follows it. -/
def readPart (cs : List Char) : Option (TagPart × List Char) :=
  match cs.dropWhile fun c => isTagSpace c || c == '/' with
  | [] => none
  | c :: more =>
    if c = '>' then some (.close, more)
    else
      let name := c :: more.takeWhile (!endsName ·)
      match (more.dropWhile (!endsName ·)).dropWhile isTagSpace with
      | '=' :: rest => (readValue (rest.dropWhile isTagSpace)).map fun found =>
          (.attribute name found.1, found.2)
      | rest => some (.attribute name [], rest)

theorem length_dropWhile_le (p : Char → Bool) (cs : List Char) :
    (cs.dropWhile p).length ≤ cs.length := (List.dropWhile_sublist p).length_le

theorem length_readValue {cs value rest : List Char} (h : readValue cs = some (value, rest)) :
    rest.length ≤ cs.length := by
  cases cs with
  | nil => cases h
  | cons c cs =>
    unfold readValue at h
    simp only at h
    split at h
    · have hle := length_dropWhile_le (· != c) cs
      split at h
      · rename_i hdrop
        cases h
        rw [hdrop, List.length_cons] at hle
        rw [List.length_cons]
        omega
      · cases h
    · cases h
      exact length_dropWhile_le _ _

theorem length_readPart {cs rest : List Char} {part : TagPart}
    (h : readPart cs = some (part, rest)) : rest.length < cs.length := by
  unfold readPart at h
  have hstart := length_dropWhile_le (fun c => isTagSpace c || c == '/') cs
  split at h
  · cases h
  · rename_i c more hcs
    rw [hcs, List.length_cons] at hstart
    split at h
    · cases h
      omega
    · have hname := (length_dropWhile_le isTagSpace _).trans
        (length_dropWhile_le (!endsName ·) more)
      simp only at h
      split at h
      · rename_i after hafter
        rw [hafter, List.length_cons] at hname
        obtain ⟨⟨value, rest'⟩, hvalue, heq⟩ := Option.map_eq_some_iff.1 h
        cases heq
        have hle := (length_readValue hvalue).trans (length_dropWhile_le isTagSpace after)
        exact Nat.lt_of_le_of_lt hle (by omega)
      · cases h
        omega

/-- The attributes at the front of a text up to the tag's end, and what follows the tag. -/
def readAttributes (cs : List Char) : Option (List (List Char × List Char) × List Char) :=
  match _h : readPart cs with
  | none => none
  | some (.close, rest) => some ([], rest)
  | some (.attribute name value, rest) =>
    (readAttributes rest).map fun found => ((name, value) :: found.1, found.2)
termination_by cs.length
decreasing_by exact length_readPart _h

/-- A start tag: its name, and its attributes with the values as they are written. -/
structure StartTag where
  name : List Char
  attributes : List (List Char × List Char)
  deriving Repr, DecidableEq

/-- The start tag at the front of a text and what follows it. -/
def readStartTag : List Char → Option (StartTag × List Char)
  | '<' :: c :: cs =>
    if c.isAlpha then
      let stays := fun d => !(isTagSpace d || d == '/' || d == '>')
      (readAttributes (cs.dropWhile stays)).map fun found =>
        (⟨c :: cs.takeWhile stays, found.1⟩, found.2)
    else none
  | _ => none

section Reading

variable {rest : List Char}

theorem readAttributes_eq (cs : List Char) : readAttributes cs =
    match readPart cs with
    | none => none
    | some (.close, rest) => some ([], rest)
    | some (.attribute name value, rest) =>
      (readAttributes rest).map fun found => ((name, value) :: found.1, found.2) := by
  rw [readAttributes]
  split <;> rename_i h <;> rw [h]

theorem endsName_eq_false {c : Char} :
    endsName c = false ↔ isTagSpace c = false ∧ c ≠ '/' ∧ c ≠ '>' ∧ c ≠ '=' := by
  simp [endsName]

/-- A name that reads as one: no blank, slash, end of tag or equals sign is in it. -/
structure PlainName (name : List Char) : Prop where
  ne_nil : name ≠ []
  plain : ∀ c ∈ name, endsName c = false

theorem readAttributes_space (cs : List Char) : readAttributes (' ' :: cs) = readAttributes cs := by
  have hpart : readPart (' ' :: cs) = readPart cs := by
    unfold readPart
    rw [List.dropWhile_cons, if_pos (by decide)]
  rw [readAttributes_eq, readAttributes_eq cs, hpart]

theorem readAttributes_close : readAttributes ('>' :: rest) = some ([], rest) := by
  rw [readAttributes_eq]
  rfl

theorem readAttributes_slash (cs : List Char) : readAttributes ('/' :: cs) = readAttributes cs := by
  have hpart : readPart ('/' :: cs) = readPart cs := by
    unfold readPart
    rw [List.dropWhile_cons, if_pos (by decide)]
  rw [readAttributes_eq, readAttributes_eq cs, hpart]

theorem readPart_name {name : List Char} (h : PlainName name)
    (hrest : ∀ c ∈ rest.head?, endsName c = true) :
    readPart (name ++ rest) = match rest.dropWhile isTagSpace with
      | '=' :: rest => (readValue (rest.dropWhile isTagSpace)).map fun found =>
          (.attribute name found.1, found.2)
      | rest => some (.attribute name [], rest) := by
  obtain ⟨c, name, rfl⟩ := List.exists_cons_of_ne_nil h.ne_nil
  obtain ⟨hspace, hslash, hclose, -⟩ := endsName_eq_false.1 (h.plain c List.mem_cons_self)
  have hskip : (isTagSpace c || c == '/') = false := by simp [hspace, hslash]
  have htake : (name ++ rest).takeWhile (!endsName ·) = name :=
    Text.takeWhile_append_of_stop (fun d hd => by rw [h.plain d (List.mem_cons_of_mem _ hd)]; rfl)
      fun d hd => by rw [hrest d hd]; rfl
  have hdrop : (name ++ rest).dropWhile (!endsName ·) = rest :=
    Text.dropWhile_append_of_stop (fun d hd => by rw [h.plain d (List.mem_cons_of_mem _ hd)]; rfl)
      fun d hd => by rw [hrest d hd]; rfl
  unfold readPart
  rw [List.cons_append, List.dropWhile_cons, hskip]
  simp only [Bool.false_eq_true, if_false, hclose, htake, hdrop]

theorem readValue_quoted {value : List Char} (h : '\x22' ∉ value) (rest : List Char) :
    readValue ('\x22' :: (value ++ '\x22' :: rest)) = some (value, rest) := by
  have hdrop : (value ++ '\x22' :: rest).dropWhile (· != '\x22') = '\x22' :: rest := by
    refine Text.dropWhile_append_of_stop (fun c hc => ?_) (by simp)
    rw [bne_iff_ne]
    rintro rfl
    exact h hc
  simp [readValue, hdrop, Text.takeWhile_bne h]

/-- An attribute with a value in double quotes is read as it is written. -/
theorem readAttributes_quoted {name value : List Char} (h : PlainName name)
    (hvalue : '\x22' ∉ value) (rest : List Char) :
    readAttributes (name ++ '=' :: '\x22' :: (value ++ '\x22' :: rest)) =
      (readAttributes rest).map fun found => ((name, value) :: found.1, found.2) := by
  have hpart : readPart (name ++ '=' :: '\x22' :: (value ++ '\x22' :: rest)) =
      some (.attribute name value, rest) := by
    rw [readPart_name h (by rintro c ⟨⟩; decide)]
    show (readValue ('\x22' :: (value ++ '\x22' :: rest))).map _ = _
    rw [readValue_quoted hvalue]
    rfl
  rw [readAttributes_eq, hpart]

/-- An attribute without a value is read as an empty one, when something but an equals sign follows. -/
theorem readAttributes_bare {name : List Char} {c : Char} (h : PlainName name)
    (hspace : isTagSpace c = false) (hequals : c ≠ '=') (rest : List Char) :
    readAttributes (name ++ ' ' :: c :: rest) =
      (readAttributes (c :: rest)).map fun found => ((name, []) :: found.1, found.2) := by
  have hpart : readPart (name ++ ' ' :: c :: rest) = some (.attribute name [], c :: rest) := by
    have hdrop : (' ' :: c :: rest).dropWhile isTagSpace = c :: rest := by
      rw [List.dropWhile_cons, if_pos (by decide), List.dropWhile_cons, if_neg (by simp [hspace])]
    rw [readPart_name h (by rintro c ⟨⟩; decide), hdrop]
    split
    · rename_i heq
      exact absurd (List.cons.inj heq).1 hequals
    · rfl
  rw [readAttributes_eq, hpart]

end Reading

section Decoding

/-- A reader of character references: what the reference behind a `&` stands for, and how many
characters it takes there. -/
abbrev ReferenceReader := List Char → Option (List Char × Nat)

/-- No reference is shorter than what it stands for. -/
def ReferenceReader.Short (reader : ReferenceReader) : Prop :=
  ∀ cs new width, reader cs = some (new, width) → new.length ≤ width + 1 ∧ width ≤ cs.length

/-- The text a value stands for; its first characters belong to a reference before it. -/
def decodeFrom (reader : ReferenceReader) : Nat → List Char → List Char
  | _, [] => []
  | skip + 1, _ :: cs => decodeFrom reader skip cs
  | 0, c :: cs =>
    if c = '&' then
      match reader cs with
      | some (new, width) => new ++ decodeFrom reader width cs
      | none => c :: decodeFrom reader 0 cs
    else c :: decodeFrom reader 0 cs

/-- The text a value stands for. -/
def decode (reader : ReferenceReader) (value : List Char) : List Char := decodeFrom reader 0 value

theorem decode_of_not_mem (reader : ReferenceReader) {value : List Char} (h : '&' ∉ value) :
    decode reader value = value := by
  unfold decode
  induction value with
  | nil => rfl
  | cons c cs ih =>
    rw [List.mem_cons, not_or] at h
    rw [decodeFrom, if_neg (Ne.symm h.1), ih h.2]

theorem ReferenceReader.Short.length_decodeFrom {reader : ReferenceReader} (h : reader.Short)
    (skip : Nat) (cs : List Char) : (decodeFrom reader skip cs).length ≤ cs.length - skip := by
  induction cs generalizing skip with
  | nil => simp [decodeFrom]
  | cons c cs ih =>
    cases skip with
    | succ skip =>
      rw [decodeFrom, List.length_cons]
      exact (ih skip).trans (by omega)
    | zero =>
      have hplain := ih 0
      rw [decodeFrom]
      split
      · split
        · rename_i new width hread
          obtain ⟨hnew, hwidth⟩ := h cs new width hread
          have hrest := ih width
          rw [List.length_append, List.length_cons]
          omega
        · simp only [List.length_cons]
          omega
      · simp only [List.length_cons]
        omega

theorem ReferenceReader.Short.length_decode {reader : ReferenceReader} (h : reader.Short)
    (value : List Char) : (decode reader value).length ≤ value.length :=
  h.length_decodeFrom 0 value

/-- Reads the references that an escaped text holds. -/
def readEscape : ReferenceReader := fun cs =>
  [("amp;".toList, '&'), ("lt;".toList, '<'), ("gt;".toList, '>'), ("quot;".toList, '\x22')].findSome?
    fun e => if e.1.isPrefixOf cs then some ([e.2], e.1.length) else none

theorem short_readEscape : readEscape.Short := by
  intro cs new width h
  obtain ⟨e, -, he⟩ := List.exists_of_findSome?_eq_some h
  obtain ⟨hname, heq⟩ := Option.ite_none_right_eq_some.1 he
  cases heq
  have hlength := (List.isPrefixOf_iff_prefix.1 hname).length_le
  exact ⟨by simp, hlength⟩

end Decoding

end Bindery.Html
