import ChipEight.Image

/-!
# The addresses of an image

Addresses have 32 bits. An image at the load address holds a word wherever two of its bytes lie
before its end. That end is the sum of the load address and the number of bytes, unless the sum
has more than 32 bits: then it wraps around, and only the bytes before it count.
-/

namespace ChipEight.Image

/-- The addresses of an image have 32 bits, and so do the places where its instructions continue,
which may lie one instruction behind its end. -/
def Fits (bytes : Array UInt8) : Prop :=
  Machine.loadAddress + bytes.size + Machine.instructionWidth < Machine.numberBound

/-- Whether an image fits can be decided. -/
instance (bytes : Array UInt8) : Decidable (Fits bytes) :=
  inferInstanceAs (Decidable (_ < _))

/-- Two bytes of an image make the word at an address, the first one its high byte, if both lie
before the end of the image. -/
structure HasWord (bytes : Array UInt8) (address : Nat) (word : Word) : Prop where
  le_address : Machine.loadAddress ≤ address
  lt_stop : address + 1 < Machine.wrap (Machine.loadAddress + bytes.size)
  bytes_eq : ∃ high low, bytes[address - Machine.loadAddress]? = some high ∧
    bytes[address + 1 - Machine.loadAddress]? = some low ∧ word = .ofBytes high low

variable {bytes : Array UInt8} {address : Nat} {word : Word}

/-- The end of an image depends on its size alone. -/
theorem stop_load_congr {others : Array UInt8} (hsize : others.size = bytes.size) :
    (load others).stop = (load bytes).stop := by
  rw [stop, stop, load, load, hsize]

/-- The end of an image lies behind its last byte or, if it wraps, before that. -/
theorem stop_load_le (bytes : Array UInt8) :
    (load bytes).stop ≤ Machine.loadAddress + bytes.size :=
  Machine.wrap_le _

/-- The end of an image lies behind its last byte, if that place has 32 bits. -/
theorem stop_load_eq (hbound : Machine.loadAddress + bytes.size < Machine.numberBound) :
    (load bytes).stop = Machine.loadAddress + bytes.size :=
  Machine.wrap_of_lt hbound

/-- The place behind the last byte of an image that fits has 32 bits. -/
theorem Fits.stop_lt (hfits : Fits bytes) :
    Machine.loadAddress + bytes.size < Machine.numberBound :=
  Nat.lt_of_le_of_lt (Nat.le_add_right _ _) hfits

/-- An image that fits into memory fits. -/
theorem fits_of_le (hsize : bytes.size ≤ Machine.programLimit) : Fits bytes := by
  have hlimit : Machine.loadAddress + Machine.programLimit + Machine.instructionWidth <
      Machine.numberBound := by decide
  unfold Fits
  omega

/-- The byte at an address is counted from the load address. -/
theorem byte?_load (bytes : Array UInt8) (offset : Nat) :
    (load bytes).byte? (Machine.loadAddress + offset) = bytes[offset]? := by
  rw [byte?, load, if_pos (Nat.le_add_right _ _), Nat.add_sub_cancel_left]

/-- An image at the load address holds no byte before that address or after its last byte. -/
theorem byte?_load_eq_none_iff (bytes : Array UInt8) (address : Nat) :
    (load bytes).byte? address = none ↔
      address < Machine.loadAddress ∨ Machine.loadAddress + bytes.size ≤ address := by
  rcases Nat.lt_or_ge address Machine.loadAddress with hlt | hle
  · rw [byte?, load, if_neg (Nat.not_le_of_lt hlt)]
    exact iff_of_true rfl (Or.inl hlt)
  · obtain ⟨offset, rfl⟩ := Nat.exists_eq_add_of_le hle
    rw [byte?_load, Array.getElem?_eq_none_iff]
    omega

/-- The words of an image at the load address are those that two of its bytes make. -/
theorem fetch?_load_eq_some_iff :
    (load bytes).fetch? address = some word ↔ HasWord bytes address word := by
  rw [fetch?_eq_some_iff]
  rcases Nat.lt_or_ge address Machine.loadAddress with hlt | hle
  · have hnone := (byte?_load_eq_none_iff bytes address).mpr (Or.inl hlt)
    refine iff_of_false ?_ fun hword => Nat.not_le_of_lt hlt hword.le_address
    rintro ⟨_, _, _, hhigh, _⟩
    rw [hnone] at hhigh
    cases hhigh
  · obtain ⟨offset, rfl⟩ := Nat.exists_eq_add_of_le hle
    simp only [Nat.add_assoc, byte?_load]
    constructor
    · rintro ⟨hlt, high, low, hhigh, hlow, heq⟩
      exact ⟨hle, hlt, high, low, by rwa [Nat.add_sub_cancel_left],
        by rwa [Nat.add_assoc, Nat.add_sub_cancel_left], heq⟩
    · rintro ⟨_, hlt, high, low, hhigh, hlow, heq⟩
      rw [Nat.add_sub_cancel_left] at hhigh
      rw [Nat.add_assoc, Nat.add_sub_cancel_left] at hlow
      exact ⟨hlt, high, low, hhigh, hlow, heq⟩

/-- An image at the load address holds no word where one of its bytes is missing, or lies behind
its end. -/
theorem fetch?_load_eq_none_iff (bytes : Array UInt8) (address : Nat) :
    (load bytes).fetch? address = none ↔
      address < Machine.loadAddress ∨ (load bytes).stop ≤ address + 1 := by
  have hstop := stop_load_le bytes
  cases hword : (load bytes).fetch? address with
  | some word =>
    obtain ⟨hle, hlt, _⟩ := fetch?_load_eq_some_iff.mp hword
    refine iff_of_false (Option.some_ne_none _) ?_
    exact not_or.mpr ⟨Nat.not_lt_of_le hle, Nat.not_le_of_lt hlt⟩
  | none =>
    refine iff_of_true rfl (Decidable.byContradiction fun hinside => ?_)
    obtain ⟨hle, hlt⟩ := not_or.mp hinside
    have hfirst : address - Machine.loadAddress < bytes.size := by omega
    have hsecond : address + 1 - Machine.loadAddress < bytes.size := by omega
    obtain ⟨word, hfound⟩ : ∃ word, HasWord bytes address word :=
      ⟨_, Nat.le_of_not_lt hle, Nat.lt_of_not_le hlt, _, _, Array.getElem?_eq_getElem hfirst,
        Array.getElem?_eq_getElem hsecond, rfl⟩
    rw [fetch?_load_eq_some_iff.mpr hfound] at hword
    cases hword

/-- The address of the next instruction has 32 bits. -/
theorem add_two_lt_of_fetch? (hword : (load bytes).fetch? address = some word) :
    address + 2 < Machine.numberBound :=
  Nat.lt_of_le_of_lt (lt_stop_of_fetch? hword) (Machine.wrap_lt _)

/-- If an image fits, then the address behind the next instruction has 32 bits, too. -/
theorem Fits.add_four_lt (hfits : Fits bytes) (hword : (load bytes).fetch? address = some word) :
    address + 4 < Machine.numberBound := by
  have hlt := lt_stop_of_fetch? hword
  have hwidth : Machine.instructionWidth = 2 := rfl
  rw [stop_load_eq hfits.stop_lt] at hlt
  unfold Fits at hfits
  omega

/-- There are as many bytes before the end as there are addresses. -/
theorem length_inside (bytes : Array UInt8) :
    (load bytes).inside.length = (load bytes).stop - Machine.loadAddress := by
  have hstop := stop_load_le bytes
  rw [inside, List.length_take, Array.length_toList]
  exact Nat.min_eq_left (Nat.sub_le_iff_le_add'.mpr hstop)

/-- The bytes before the end are the first ones of the image. -/
theorem getElem?_inside (bytes : Array UInt8) {offset : Nat}
    (hlt : Machine.loadAddress + offset < (load bytes).stop) :
    (load bytes).inside[offset]? = bytes[offset]? := by
  have hbase : (load bytes).base = Machine.loadAddress := rfl
  rw [inside, List.getElem?_take_of_lt (by omega), Array.getElem?_toList]
  rfl

/-- All bytes of an image lie before its end, if the place behind them has 32 bits. -/
theorem inside_load_eq (hbound : Machine.loadAddress + bytes.size < Machine.numberBound) :
    (load bytes).inside = bytes.toList := by
  have hlength : bytes.toList.length ≤ (load bytes).stop - (load bytes).base := by
    rw [stop_load_eq hbound, Array.length_toList]
    exact Nat.le_of_eq (Nat.add_sub_cancel_left ..).symm
  exact List.take_of_length_le hlength

end ChipEight.Image
