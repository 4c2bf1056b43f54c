import Fram.Utf8

/-!
# Texts of JavaScript

A `TextDecoder` drops one byte order mark, U+FEFF, at the front of what it decodes, unless it is told to ignore it. The clients make
theirs with `{ fatal: true }` alone.
-/

namespace Fram

/-- The text begins with a byte order mark. -/
def marked (text : String) : Bool := text.toList.head? == some '\uFEFF'

/-- The text without the byte order mark that it begins with. -/
def withoutMark (text : String) : String := if marked text then String.ofList text.toList.tail else text

/-- (`new TextDecoder("utf-8", { fatal: true }).decode`) `none` where it throws. -/
def textDecode (bytes : Bytes) : Option String := (utf8Decode bytes).map withoutMark

theorem withoutMark_eq_iff {text : String} : withoutMark text = text ↔ marked text = false := by
  constructor
  · intro h
    by_contra hm
    rw [Bool.not_eq_false] at hm
    rw [withoutMark, if_pos hm] at h
    have hl := congrArg String.toList h
    rw [String.toList_ofList] at hl
    simp only [marked] at hm
    cases ht : text.toList with
    | nil => simp [ht] at hm
    | cons c cs =>
      rw [ht, List.tail_cons] at hl
      exact absurd (congrArg List.length hl) (by simp)
  · intro h
    rw [withoutMark, if_neg (by simp [h])]

theorem length_withoutMark_le (text : String) : (utf8Encode (withoutMark text)).length ≤ (utf8Encode text).length := by
  rw [withoutMark]
  split
  · simp only [utf8Encode, String.toList_ofList]
    cases text.toList with
    | nil => exact Nat.le_refl _
    | cons c cs =>
      rw [List.tail_cons, List.flatMap_cons, List.length_append]
      exact Nat.le_add_left _ _
  · exact Nat.le_refl _

/-- What is decoded of the bytes of a text. -/
theorem textDecode_utf8Encode (text : String) : textDecode (utf8Encode text) = some (withoutMark text) := by
  rw [textDecode, utf8Decode_eq_some_iff.2 rfl]
  rfl

end Fram
