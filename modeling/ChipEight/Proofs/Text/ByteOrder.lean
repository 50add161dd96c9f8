import Mathlib.Data.List.Lex
import Mathlib.Tactic.SplitIfs

/-!
# The order of text and of its bytes

Texts are ordered by their characters. This is also the order of their bytes: of two characters,
the smaller has the smaller encoding, and the first byte in which the encodings differ decides.
-/

namespace ChipEight

/-- The smaller of two characters has the smaller encoding, whatever follows the two. -/
theorem utf8EncodeChar_append_lt {first second : Char} (hlt : first < second)
    (rest rest' : List UInt8) :
    String.utf8EncodeChar first ++ rest < String.utf8EncodeChar second ++ rest' := by
  have hlt : first.val.toNat < second.val.toNat := hlt
  have hbound : second.val.toNat < 0x110000 := by
    rcases second.valid with hlow | hhigh
    · change second.val.toNat < 0xd800 at hlow
      omega
    · exact hhigh.2
  unfold String.utf8EncodeChar
  generalize first.val.toNat = number at *
  generalize second.val.toNat = other at *
  dsimp only
  -- one case for each pair of lengths; the shorter encoding never belongs to the larger character
  split_ifs
  all_goals try omega
  all_goals
    simp (disch := omega) only [List.cons_append, List.nil_append, List.cons_lt_cons_iff,
      UInt8.lt_iff_toNat_lt, ← UInt8.toNat_inj, UInt8.toNat_ofNat', Nat.mod_eq_of_lt,
      Nat.add_lt_add_iff_right, Nat.add_right_cancel_iff]
    omega

/-- The smaller of two sequences of characters has the smaller encoding. -/
theorem flatMap_utf8EncodeChar_lt {first second : List Char} (hlt : first < second) :
    first.flatMap String.utf8EncodeChar < second.flatMap String.utf8EncodeChar := by
  induction hlt with
  | @nil character rest =>
    rw [List.flatMap_nil, List.flatMap_cons]
    obtain ⟨byte, bytes, hbytes⟩ := List.exists_cons_of_ne_nil
      (@String.utf8EncodeChar_ne_nil character)
    rw [hbytes]
    exact List.nil_lt_cons _ _
  | @cons character _ _ _ ih =>
    rw [List.flatMap_cons, List.flatMap_cons]
    exact List.Lex.append_left _ ih _
  | rel hlt =>
    rw [List.flatMap_cons, List.flatMap_cons]
    exact utf8EncodeChar_append_lt hlt _ _

/-- The smaller of two texts has the smaller bytes. -/
theorem bytes_lt_of_lt {first second : String} (hlt : first < second) :
    first.toUTF8.data.toList < second.toUTF8.data.toList := by
  have hbytes : ∀ text : String,
      text.toUTF8.data.toList = text.toList.flatMap String.utf8EncodeChar := by
    intro text
    rw [String.toUTF8_eq_toByteArray, ← String.utf8Encode_toList]
    exact List.toList_data_toByteArray
  rw [hbytes, hbytes]
  exact flatMap_utf8EncodeChar_lt hlt

end ChipEight
