import Mathlib.Data.String.Basic

/-!
Texts in the order of their bytes. UTF-8 keeps the order of code points, so comparing texts byte by
byte is the same as comparing them character by character.
-/

namespace TreeTiling.Text

/-- The bytes of a text in UTF-8. -/
def bytes (text : String) : List UInt8 :=
  text.toUTF8.data.toList

theorem bytes_eq (text : String) : bytes text = text.toList.flatMap String.utf8EncodeChar := by
  have encoded : text.toUTF8 = text.toList.utf8Encode := by
    rw [← String.toByteArray_ofList, String.ofList_toList, String.toUTF8]
  rw [bytes, encoded, List.utf8Encode, List.toList_data_toByteArray]

/-- Bytes are compared from the front, and later ones only where those in front agree. -/
theorem cons_lt_cons {left right : Nat} {rest others : List UInt8} (le : left ≤ right)
    (small : right < 256) (later : left = right → rest < others)
    : UInt8.ofNat left :: rest < UInt8.ofNat right :: others := by
  rw [List.cons_lt_cons_iff]
  rcases Nat.lt_or_eq_of_le le with less | same
  · left
    rw [UInt8.lt_iff_toNat_lt, UInt8.toNat_ofNat_of_lt' (Nat.lt_trans less small),
      UInt8.toNat_ofNat_of_lt' small]
    exact less
  · exact .inr ⟨congrArg _ same, later same⟩

/-- The bytes of a lesser character are less, whatever follows them. A character with more bytes has
a greater first byte.
-/
theorem encode_lt {left right : Char} (less : left < right) (front back : List UInt8)
    : String.utf8EncodeChar left ++ front < String.utf8EncodeChar right ++ back := by
  have lessCode : left.val.toNat < right.val.toNat := less
  have bound : right.val.toNat < 0x110000 := by
    rcases right.valid with low | high
    · exact Nat.lt_trans low (by decide)
    · exact high.2
  simp only [String.utf8EncodeChar]
  split_ifs <;> try omega
  all_goals
    simp only [List.cons_append, List.nil_append]
    refine cons_lt_cons (by omega) (by omega) fun first => ?_
  all_goals try omega
  · exact cons_lt_cons (by omega) (by omega) fun second => by omega
  · refine cons_lt_cons (by omega) (by omega) fun second => ?_
    exact cons_lt_cons (by omega) (by omega) fun third => by omega
  · refine cons_lt_cons (by omega) (by omega) fun second => ?_
    refine cons_lt_cons (by omega) (by omega) fun third => ?_
    exact cons_lt_cons (by omega) (by omega) fun fourth => by omega

/-- A lesser text has lesser bytes; by induction on the two texts. -/
theorem flatMap_encode_lt {left right : List Char} (less : left < right)
    : left.flatMap String.utf8EncodeChar < right.flatMap String.utf8EncodeChar := by
  induction left generalizing right with
  | nil =>
      cases right with
      | nil => cases less
      | cons c rest =>
          obtain ⟨byte, others, encoded⟩ :=
            List.exists_cons_of_ne_nil (String.utf8EncodeChar_ne_nil (c := c))
          rw [List.flatMap_nil, List.flatMap_cons, encoded]
          exact List.nil_lt_cons _ _
  | cons c rest ih =>
      cases right with
      | nil => cases less
      | cons d others =>
          rw [List.flatMap_cons, List.flatMap_cons]
          rcases List.cons_lt_cons_iff.mp less with lessHere | ⟨rfl, lessLater⟩
          · exact encode_lt lessHere _ _
          · exact List.append_left_lt (ih lessLater)

theorem bytes_lt_iff {left right : String} : bytes left < bytes right ↔ left < right := by
  rw [String.lt_iff_toList_lt, bytes_eq, bytes_eq]
  constructor
  · intro less
    rcases lt_trichotomy left.toList right.toList with before | same | after
    · exact before
    · rw [same] at less
      exact absurd less (List.lt_irrefl _)
    · exact absurd (flatMap_encode_lt after) (List.lt_asymm less)
  · exact flatMap_encode_lt

end TreeTiling.Text
