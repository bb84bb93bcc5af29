import Bindery.Asset.Token
import Mathlib.Data.List.Infix

/-! The text of a token: the mark and sixteen hexadecimal digits, none of which is a quote, a slash or
a blank. -/

namespace Bindery

namespace Sha1

theorem hexDigit_cases {n : Nat} (h : n < 16) :
    ('0' ≤ hexDigit n ∧ hexDigit n ≤ '9') ∨ ('a' ≤ hexDigit n ∧ hexDigit n ≤ 'f') := by
  revert h n
  decide

theorem length_hex (bytes : List UInt8) : (hex bytes).length = 40 := by
  simp [hex, hexWord]

theorem mem_hex {bytes : List UInt8} {c : Char} (h : c ∈ hex bytes) :
    ('0' ≤ c ∧ c ≤ '9') ∨ ('a' ≤ c ∧ c ≤ 'f') := by
  simp only [hex, hexWord, List.mem_flatMap, List.mem_map] at h
  obtain ⟨x, -, i, -, rfl⟩ := h
  exact hexDigit_cases (Nat.mod_lt _ (by decide))

end Sha1

namespace Token

/-- The characters tokens are written in. -/
def isTokenChar (c : Char) : Bool := ('a' ≤ c && c ≤ 'z') || ('0' ≤ c && c ≤ '9') || c == '-'

theorem toList_ofOrigin (origin : String) : (ofOrigin origin).text.toList =
    mark.toList ++ (Sha1.hex origin.toUTF8.toList).take digits := by
  simp [ofOrigin]

theorem length_ofOrigin (origin : String) : (ofOrigin origin).text.toList.length = 29 := by
  rw [toList_ofOrigin, List.length_append, List.length_take, Sha1.length_hex]
  decide

theorem mark_prefix_ofOrigin (origin : String) :
    mark.toList <+: (ofOrigin origin).text.toList := by
  rw [toList_ofOrigin]
  exact List.prefix_append _ _

theorem isTokenChar_ofOrigin (origin : String) :
    ∀ c ∈ (ofOrigin origin).text.toList, isTokenChar c = true := by
  intro c hc
  rw [toList_ofOrigin, List.mem_append] at hc
  rcases hc with hmark | hdigit
  · have hall : mark.toList.all isTokenChar = true := by decide
    exact List.all_eq_true.1 hall c hmark
  · rcases Sha1.mem_hex (List.mem_of_mem_take hdigit) with ⟨hlow, hhigh⟩ | ⟨hlow, hhigh⟩
    · simp [isTokenChar, hlow, hhigh]
    · have hfz : 'f' ≤ 'z' := by decide
      have hz : c ≤ 'z' := Char.le_trans hhigh hfz
      simp [isTokenChar, hlow, hz]

/-- One token's text is never a part of another's. -/
theorem ofOrigin_eq_of_part {o o' : String}
    (h : (ofOrigin o).text.toList <:+: (ofOrigin o').text.toList) : ofOrigin o = ofOrigin o' := by
  have hlength : (ofOrigin o).text.toList.length = (ofOrigin o').text.toList.length := by
    rw [length_ofOrigin, length_ofOrigin]
  have htext := String.toList_inj.1 (h.eq_of_length hlength)
  cases ho : ofOrigin o
  cases ho' : ofOrigin o'
  rw [ho, ho'] at htext
  rw [Token.mk.injEq]
  exact htext

end Token
end Bindery
