import Mathlib.Algebra.Ring.Nat
import Mathlib.Data.List.Basic
import ChipEight.Opcode

/-!
# Words as numbers

The number of a word is the sum of its parts, each times the weight of its place. This
file reads the bit operations of the codec as such arithmetic: taking a word apart is
division with remainder, packing fields is a sum, and writing operand values into a form
adds each value, times the weight of its slot, to the template.
-/

namespace ChipEight

/-- A number below a power of two fills the free low bits of a multiple of that power. -/
theorem or_eq_add_of_lt (bits : Nat) {high low : Nat} (hhigh : 2 ^ bits ∣ high)
    (hlow : low < 2 ^ bits) : high ||| low = high + low := by
  obtain ⟨multiple, rfl⟩ := hhigh
  exact (Nat.two_pow_add_eq_or_of_lt hlow multiple).symm

/-- Keeping the low four bits is a remainder. -/
theorem and_nibble (value : Nat) : value &&& 15 = value % 16 :=
  Nat.and_two_pow_sub_one_eq_mod value 4

/-- Keeping the low eight bits is a remainder. -/
theorem and_byte (value : Nat) : value &&& 255 = value % 256 :=
  Nat.and_two_pow_sub_one_eq_mod value 8

/-- Keeping the low twelve bits is a remainder. -/
theorem and_address (value : Nat) : value &&& 4095 = value % 4096 :=
  Nat.and_two_pow_sub_one_eq_mod value 12

/-- Keeping the low sixteen bits is a remainder. -/
theorem and_word (value : Nat) : value &&& 65535 = value % 65536 :=
  Nat.and_two_pow_sub_one_eq_mod value 16

/-- The number of a stored word counts its first byte 256 times. -/
theorem Word.toNat_ofBytes (high low : UInt8) :
    (Word.ofBytes high low).toNat = high.toNat * 256 + low.toNat := by
  have hhigh := high.toNat_lt
  have hlow := low.toNat_lt
  have hshift : (high.toUInt16 <<< 8).toNat = high.toNat * 256 := by
    rw [UInt16.toNat_shiftLeft, UInt8.toNat_toUInt16, Nat.shiftLeft_eq]
    simp only [UInt16.reduceToNat, Nat.reduceMod, Nat.reducePow]
    omega
  rw [ofBytes, UInt16.toNat_or, hshift, UInt8.toNat_toUInt16]
  exact or_eq_add_of_lt 8 (Nat.dvd_mul_left _ _) hlow

/-- The first byte of a stored word is read back. -/
theorem Word.high_ofBytes (high low : UInt8) : (Word.ofBytes high low).high = high := by
  have hhigh := high.toNat_lt
  have hlow := low.toNat_lt
  rw [← UInt8.toNat_inj, Word.high, UInt16.toNat_toUInt8, UInt16.toNat_shiftRight,
    toNat_ofBytes, Nat.shiftRight_eq_div_pow]
  simp only [UInt16.reduceToNat, Nat.reduceMod, Nat.reducePow]
  omega

/-- The second byte of a stored word is read back. -/
theorem Word.low_ofBytes (high low : UInt8) : (Word.ofBytes high low).low = low := by
  have hlow := low.toNat_lt
  rw [← UInt8.toNat_inj, Word.low, UInt16.toNat_toUInt8, toNat_ofBytes]
  omega

/-- The number that a field puts into a word: what fits its place, times the weight of
the place. -/
theorem Field.toNat_bits (fields : Fields) (field : Field) :
    (field.bits fields).toNat =
      match field with
      | .group => fields.group.toNat % 16 * 4096
      | .x => fields.x.toNat % 16 * 256
      | .y => fields.y.toNat % 16 * 16
      | .n => fields.n.toNat % 16
      | .kk => fields.kk.toNat
      | .nnn => fields.nnn.toNat % 4096 := by
  cases field <;>
    simp only [bits, UInt16.toNat_shiftLeft, UInt16.toNat_and, UInt8.toNat_toUInt16,
      UInt16.reduceToNat, Nat.shiftLeft_eq, and_nibble, and_address, Nat.reduceMod, Nat.reducePow]
  all_goals omega

namespace Fields

/-- A group, a register and a byte add up to a word. -/
theorem toNat_pack_byte (fields : Fields) :
    (fields.pack [.group, .x, .kk]).toNat =
      fields.group.toNat % 16 * 4096 + fields.x.toNat % 16 * 256 + fields.kk.toNat := by
  have hkk := fields.kk.toNat_lt
  have hhigh : fields.group.toNat % 16 * 4096 ||| fields.x.toNat % 16 * 256 =
      fields.group.toNat % 16 * 4096 + fields.x.toNat % 16 * 256 :=
    or_eq_add_of_lt 12 (by omega) (by omega)
  simp only [pack, List.foldl_cons, List.foldl_nil, UInt16.toNat_or, Field.toNat_bits,
    UInt16.reduceToNat, Nat.zero_or]
  rw [hhigh, or_eq_add_of_lt 8 (by omega) (by omega)]

/-- A group and an address add up to a word. -/
theorem toNat_pack_address (fields : Fields) :
    (fields.pack [.group, .nnn]).toNat =
      fields.group.toNat % 16 * 4096 + fields.nnn.toNat % 4096 := by
  simp only [pack, List.foldl_cons, List.foldl_nil, UInt16.toNat_or, Field.toNat_bits,
    UInt16.reduceToNat, Nat.zero_or]
  rw [or_eq_add_of_lt 12 (by omega) (by omega)]

/-- Four nibbles add up to a word. -/
theorem toNat_pack_nibbles (fields : Fields) :
    (fields.pack [.group, .x, .y, .n]).toNat =
      fields.group.toNat % 16 * 4096 + fields.x.toNat % 16 * 256 +
        fields.y.toNat % 16 * 16 + fields.n.toNat % 16 := by
  have hhigh : fields.group.toNat % 16 * 4096 ||| fields.x.toNat % 16 * 256 =
      fields.group.toNat % 16 * 4096 + fields.x.toNat % 16 * 256 :=
    or_eq_add_of_lt 12 (by omega) (by omega)
  have hmiddle : (fields.group.toNat % 16 * 4096 + fields.x.toNat % 16 * 256) |||
      fields.y.toNat % 16 * 16 =
        fields.group.toNat % 16 * 4096 + fields.x.toNat % 16 * 256 + fields.y.toNat % 16 * 16 :=
    or_eq_add_of_lt 8 (by omega) (by omega)
  simp only [pack, List.foldl_cons, List.foldl_nil, UInt16.toNat_or, Field.toNat_bits,
    UInt16.reduceToNat, Nat.zero_or]
  rw [hhigh, hmiddle, or_eq_add_of_lt 4 (by omega) (by omega)]

/-- The parts of a word are its number divided by their weights. -/
theorem toNat_ofWord (word : Word) :
    (ofWord word).group.toNat = word.toNat / 4096 ∧
      (ofWord word).x.toNat = word.toNat / 256 % 16 ∧
      (ofWord word).y.toNat = word.toNat / 16 % 16 ∧
      (ofWord word).n.toNat = word.toNat % 16 ∧
      (ofWord word).kk.toNat = word.toNat % 256 ∧
      (ofWord word).nnn.toNat = word.toNat % 4096 := by
  have hword := word.toNat_lt
  simp only [ofWord, UInt16.toNat_toUInt8, UInt16.toNat_shiftRight, UInt16.toNat_and,
    UInt16.reduceToNat, Nat.shiftRight_eq_div_pow, and_nibble, and_byte, and_address,
    Nat.reduceMod, Nat.reducePow]
  refine ⟨?_, ?_, ?_, ?_, ?_, trivial⟩ <;> omega

end Fields

namespace Slot

/-- The value of the lowest bit of a slot in a word. -/
def weight : Slot → Nat
  | registerX => 256
  | registerY => 16
  | byte | address | nibble | word => 1

/-- The largest operand of a slot fills its digits. -/
theorem max_eq (slot : Slot) :
    slot.max =
      match slot with
      | registerX | registerY | nibble => 15
      | byte => 255
      | address => 4095
      | word => 65535 := by
  cases slot <;> rfl

/-- The number that a slot of a word holds is the digit at the weight of the slot. -/
theorem toNat_read (slot : Slot) (whole : Word) :
    (slot.read whole (.ofWord whole)).toNat = whole.toNat / slot.weight % (slot.max + 1) := by
  have hwhole := whole.toNat_lt
  obtain ⟨_, hx, hy, hn, hkk, hnnn⟩ := Fields.toNat_ofWord whole
  cases slot <;>
    simp only [read, weight, max, mask, UInt8.toNat_toUInt16, hx, hy, hn, hkk, hnnn,
      UInt16.reduceToNat] <;> omega

/-- A slot keeps the remainder of a value. -/
theorem toNat_and_mask (slot : Slot) (value : Word) :
    (value &&& slot.mask).toNat = value.toNat % (slot.max + 1) := by
  cases slot <;>
    simp only [mask, max, UInt16.toNat_and, UInt16.reduceToNat, and_nibble, and_byte,
      and_address, and_word]

/-- The bits above the low twelve make up the group. -/
theorem toNat_shiftRight_and_group (value : Word) :
    (((value &&& 0xF000) >>> 12).toUInt8).toNat = value.toNat / 4096 := by
  have hvalue := value.toNat_lt
  have hgroup : (value.toNat &&& 61440) / 4096 = value.toNat / 4096 % 16 :=
    (Nat.and_div_two_pow (n := 12)).trans (and_nibble _)
  simp only [UInt16.toNat_toUInt8, UInt16.toNat_shiftRight, UInt16.toNat_and, UInt16.reduceToNat,
    Nat.shiftRight_eq_div_pow, Nat.reduceMod, Nat.reducePow, hgroup]
  omega

end Slot

namespace Shape

/-- The numbers that a shape keeps of some values, each cut to its slot. -/
def cut (shape : Shape) (values : List Word) : List Nat :=
  List.zipWith (fun slot value => value.toNat % (slot.max + 1)) shape.slots values

/-- The number that operands add to the template of their form: each times the weight of
its slot. -/
def contribution (shape : Shape) (numbers : List Nat) : Nat :=
  (List.zipWith (fun slot number => number * slot.weight) shape.slots numbers).sum

end Shape

namespace Opcode

/-- Every operand slot of the template is clear. -/
def IsClear (opcode : Opcode) : Prop :=
  ∀ slot ∈ opcode.shape.slots, opcode.template.toNat / slot.weight % (slot.max + 1) = 0

/-- Every form of the table has a template with clear slots. -/
theorem isClear_of_mem_table {opcode : Opcode} (hmem : opcode ∈ table) : opcode.IsClear := by
  have hall : ∀ opcode ∈ table, ∀ slot ∈ opcode.shape.slots,
      opcode.template.toNat / slot.weight % (slot.max + 1) = 0 := by decide
  exact hall opcode hmem

/-- The fields of a form after the values have been written into its slots. -/
def written (opcode : Opcode) (values : List Word) : Fields :=
  (opcode.shape.slots.zip values).foldl
    (fun fields (slot, value) => slot.write (value &&& slot.mask) fields) opcode.fixed

/-- The word of a form packs the written fields. -/
theorem word?_eq_some {opcode : Opcode} {values : List Word}
    (hlength : values.length = opcode.shape.arity) :
    opcode.word? values = some ((opcode.written values).pack opcode.shape.fields) :=
  if_pos hlength

/-- Written values add up with the template: each value, cut to its slot, counts with the
weight of the slot. -/
theorem toNat_pack_written {opcode : Opcode} (hclear : opcode.IsClear) {values : List Word}
    (hlength : values.length = opcode.shape.arity) :
    ((opcode.written values).pack opcode.shape.fields).toNat =
      opcode.template.toNat + opcode.shape.contribution (opcode.shape.cut values) := by
  obtain ⟨mnemonic, shape, template⟩ := opcode
  have htemplate := template.toNat_lt
  obtain ⟨hgroup, hx, hy, hn, hkk, hnnn⟩ := Fields.toNat_ofWord template
  simp only [IsClear] at hclear
  cases shape with
  | noOperand =>
    obtain rfl := List.length_eq_zero_iff.mp hlength
    refine (Fields.toNat_pack_byte _).trans ?_
    simp [written, fixed, Shape.slots, Shape.contribution, Shape.cut, hgroup, hx, hkk]
    omega
  | address =>
    obtain ⟨target, rfl⟩ := List.length_eq_one_iff.mp hlength
    refine (Fields.toNat_pack_address _).trans ?_
    simp [Shape.slots, Slot.max_eq, Slot.weight] at hclear
    simp [written, fixed, Shape.slots, Shape.contribution, Shape.cut, Slot.write,
      Slot.toNat_and_mask, Slot.max_eq, Slot.weight, hgroup, -UInt16.toNat_and, -UInt16.toUInt8_and]
    omega
  | registerByte =>
    obtain ⟨register, byte, rfl⟩ := List.length_eq_two.mp hlength
    refine (Fields.toNat_pack_byte _).trans ?_
    simp [Shape.slots, Slot.max_eq, Slot.weight] at hclear
    simp [written, fixed, Shape.slots, Shape.contribution, Shape.cut, Slot.write,
      Slot.toNat_and_mask, Slot.max_eq, Slot.weight, hgroup, -UInt16.toNat_and, -UInt16.toUInt8_and]
    omega
  | registerRegister =>
    obtain ⟨first, second, rfl⟩ := List.length_eq_two.mp hlength
    refine (Fields.toNat_pack_nibbles _).trans ?_
    simp [Shape.slots, Slot.max_eq, Slot.weight] at hclear
    simp [written, fixed, Shape.slots, Shape.contribution, Shape.cut, Slot.write,
      Slot.toNat_and_mask, Slot.max_eq, Slot.weight, hgroup, hn,
      -UInt16.toNat_and, -UInt16.toUInt8_and]
    omega
  | registerRegisterNibble =>
    obtain ⟨first, second, nibble, rfl⟩ := List.length_eq_three.mp hlength
    refine (Fields.toNat_pack_nibbles _).trans ?_
    simp [Shape.slots, Slot.max_eq, Slot.weight] at hclear
    simp [written, fixed, Shape.slots, Shape.contribution, Shape.cut, Slot.write,
      Slot.toNat_and_mask, Slot.max_eq, Slot.weight, hgroup, -UInt16.toNat_and, -UInt16.toUInt8_and]
    omega
  | register =>
    obtain ⟨register, rfl⟩ := List.length_eq_one_iff.mp hlength
    refine (Fields.toNat_pack_nibbles _).trans ?_
    simp [Shape.slots, Slot.max_eq, Slot.weight] at hclear
    simp [written, fixed, Shape.slots, Shape.contribution, Shape.cut, Slot.write,
      Slot.toNat_and_mask, Slot.max_eq, Slot.weight, hgroup, hy, hn,
      -UInt16.toNat_and, -UInt16.toUInt8_and]
    omega
  | wholeWord =>
    obtain ⟨whole, rfl⟩ := List.length_eq_one_iff.mp hlength
    refine (Fields.toNat_pack_address _).trans ?_
    have hwhole := whole.toNat_lt
    have hkept : whole &&& Slot.word.mask = whole := by
      apply UInt16.toNat.inj
      simp only [Slot.toNat_and_mask, Slot.max_eq]
      omega
    simp [Shape.slots, Slot.max_eq, Slot.weight] at hclear
    simp only [written, fixed, Shape.slots, List.zip_cons_cons, List.zip_nil_left,
      List.foldl_cons, List.foldl_nil, Slot.write, hkept, Slot.toNat_shiftRight_and_group,
      UInt16.toNat_and, UInt16.reduceToNat, and_address]
    simp [Shape.contribution, Shape.cut, Shape.slots, Slot.max_eq, Slot.weight]
    omega

end Opcode

end ChipEight
