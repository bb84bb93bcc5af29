import Bindery.Proofs.Html.StartTag

/-! What escaped text stands for. An escape is read back as the character it was written for, so
text and attribute values come out of their markup as they went in. -/

namespace Bindery.Html

theorem decode_nil (reader : ReferenceReader) : decode reader [] = [] := rfl

theorem decode_cons (reader : ReferenceReader) {c : Char} (h : c ≠ '&') (cs : List Char) :
    decode reader (c :: cs) = c :: decode reader cs := by
  rw [decode, decodeFrom, if_neg h]
  rfl

theorem decode_escapeTextChar (c : Char) (cs : List Char) :
    decode readEscape (escapeTextChar c ++ cs) = c :: decode readEscape cs := by
  unfold escapeTextChar
  split
  · rfl
  · rfl
  · rfl
  · next h _ _ => exact decode_cons readEscape h cs

theorem decode_escapeAttrChar (c : Char) (cs : List Char) :
    decode readEscape (escapeAttrChar c ++ cs) = c :: decode readEscape cs := by
  unfold escapeAttrChar
  split
  · rfl
  · exact decode_escapeTextChar c cs

theorem decode_escapeText_append (text cs : List Char) :
    decode readEscape (escapeText text ++ cs) = text ++ decode readEscape cs := by
  induction text with
  | nil => rfl
  | cons c text ih =>
    have htext : escapeText (c :: text) = escapeTextChar c ++ escapeText text := List.flatMap_cons
    rw [htext, List.append_assoc, decode_escapeTextChar, ih, List.cons_append]

theorem decode_escapeAttr_append (value cs : List Char) :
    decode readEscape (escapeAttr value ++ cs) = value ++ decode readEscape cs := by
  induction value with
  | nil => rfl
  | cons c value ih =>
    have hvalue : escapeAttr (c :: value) = escapeAttrChar c ++ escapeAttr value := List.flatMap_cons
    rw [hvalue, List.append_assoc, decode_escapeAttrChar, ih, List.cons_append]

theorem decode_escapeAttr (value : List Char) : decode readEscape (escapeAttr value) = value := by
  have h := decode_escapeAttr_append value []
  rwa [List.append_nil, decode_nil, List.append_nil] at h

end Bindery.Html
