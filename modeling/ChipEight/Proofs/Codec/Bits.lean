import Mathlib.Data.Nat.Bitwise
import ChipEight.Instruction
import ChipEight.Proofs.Codec.Operands

/-!
# Where the bits of a word come from

The slots of a form lie apart in a word. A word that adds numbers, each with the weight of its
slot, to the template of the form holds each number in its slot, and every bit outside the slots
is one of the template.
-/

namespace ChipEight

/-- A digit that is added in a place where there is none sets the bits of this place. -/
theorem testBit_add_mul_two_pow {base number low width : Nat}
    (hclear : base / 2 ^ low % 2 ^ width = 0) (hfits : number < 2 ^ width) (bit : Nat) :
    (base + number * 2 ^ low).testBit bit =
      if low ≤ bit ∧ bit < low + width then number.testBit (bit - low) else base.testBit bit := by
  have hrest : base % 2 ^ low < 2 ^ low := Nat.mod_lt _ (Nat.two_pow_pos low)
  have hbase : base = 2 ^ (low + width) * (base / 2 ^ low / 2 ^ width) + base % 2 ^ low := by
    have hquotient := Nat.div_add_mod (base / 2 ^ low) (2 ^ width)
    rw [hclear, Nat.add_zero] at hquotient
    rw [Nat.pow_add, Nat.mul_assoc, hquotient, Nat.div_add_mod]
  have hplace : 2 ^ low * number + base % 2 ^ low < 2 ^ (low + width) := by
    have hle := Nat.mul_le_mul_left (2 ^ low) (Nat.succ_le_of_lt hfits)
    rw [Nat.mul_succ, ← Nat.pow_add] at hle
    omega
  have hsum : base + number * 2 ^ low = 2 ^ (low + width) * (base / 2 ^ low / 2 ^ width) +
      (2 ^ low * number + base % 2 ^ low) := by
    rw [Nat.mul_comm number]
    omega
  have hlow : base % 2 ^ low < 2 ^ (low + width) := by omega
  rw [hsum, Nat.testBit_two_pow_mul_add _ hplace, Nat.testBit_two_pow_mul_add _ hrest]
  conv_rhs => rw [hbase, Nat.testBit_two_pow_mul_add _ hlow]
  split_ifs <;> first | rfl | omega

/-- Numbers that agree in their high bits have the same quotient. -/
theorem div_eq_of_testBit_eq {first second high : Nat}
    (hbits : ∀ bit, high ≤ bit → first.testBit bit = second.testBit bit) :
    first / 2 ^ high = second / 2 ^ high := by
  refine Nat.eq_of_testBit_eq fun place => ?_
  rw [Nat.testBit_div_two_pow, Nat.testBit_div_two_pow]
  exact hbits _ (Nat.le_add_left _ _)

/-- Numbers that agree in their low bits leave the same remainder. -/
theorem mod_eq_of_testBit_eq {first second low : Nat}
    (hbits : ∀ bit < low, first.testBit bit = second.testBit bit) :
    first % 2 ^ low = second % 2 ^ low := by
  refine Nat.eq_of_testBit_eq fun bit => ?_
  rw [Nat.testBit_mod_two_pow, Nat.testBit_mod_two_pow]
  by_cases hlt : bit < low
  · rw [hbits bit hlt]
  · simp [hlt]

namespace Slot

/-- The place of the lowest bit of a slot. -/
def low : Slot → Nat
  | registerX => 8
  | registerY => 4
  | byte | address | nibble | word => 0

/-- The number of bits of a slot. -/
def width : Slot → Nat
  | registerX | registerY | nibble => 4
  | byte => 8
  | address => 12
  | word => 16

/-- A bit of a word, counted from the lowest, lies in a slot. -/
def Occupies (slot : Slot) (bit : Nat) : Prop :=
  slot.low ≤ bit ∧ bit < slot.low + slot.width

/-- One slot ends where the other starts, or below. -/
def Apart (slot other : Slot) : Prop :=
  slot.low + slot.width ≤ other.low ∨ other.low + other.width ≤ slot.low

/-- No bit lies in two slots that lie apart. -/
theorem Apart.not_occupies {slot other : Slot} (hapart : slot.Apart other) {bit : Nat}
    (hbit : slot.Occupies bit) : ¬other.Occupies bit := by
  simp only [Apart, Occupies] at hapart hbit ⊢
  omega

/-- The weight of a slot is that of its lowest bit. -/
theorem weight_eq (slot : Slot) : slot.weight = 2 ^ slot.low := by
  cases slot <;> rfl

/-- The largest operand of a slot sets all its bits. -/
theorem max_succ_eq (slot : Slot) : slot.max + 1 = 2 ^ slot.width := by
  cases slot <;> rfl

/-- Words that agree in the bits of a slot hold the same number there. -/
theorem digit_eq_of_testBit_eq {slot : Slot} {first second : Nat}
    (hbits : ∀ bit, slot.Occupies bit → first.testBit bit = second.testBit bit) :
    first / slot.weight % (slot.max + 1) = second / slot.weight % (slot.max + 1) := by
  rw [weight_eq, max_succ_eq]
  refine mod_eq_of_testBit_eq fun place hplace => ?_
  rw [Nat.testBit_div_two_pow, Nat.testBit_div_two_pow]
  exact hbits _ ⟨Nat.le_add_left _ _, by omega⟩

/-- A number that is added in a slot where there is none is the one that is held there. -/
theorem digit_add {slot : Slot} {base number : Nat}
    (hclear : base / slot.weight % (slot.max + 1) = 0) (hfits : number ≤ slot.max) :
    (base + number * slot.weight) / slot.weight % (slot.max + 1) = number := by
  have hweight : 0 < slot.weight := by cases slot <;> decide
  rw [Nat.add_mul_div_right _ _ hweight, Nat.add_mod, hclear, Nat.zero_add, Nat.mod_mod,
    Nat.mod_eq_of_lt (Nat.lt_succ_of_le hfits)]

/-- A number that is added in a slot where there is none leaves the other bits as they are. -/
theorem testBit_add {slot : Slot} {base number : Nat}
    (hclear : base / slot.weight % (slot.max + 1) = 0) (hfits : number ≤ slot.max) {bit : Nat}
    (hfree : ¬slot.Occupies bit) :
    (base + number * slot.weight).testBit bit = base.testBit bit := by
  rw [weight_eq, max_succ_eq] at hclear
  rw [← Nat.lt_succ_iff, Nat.succ_eq_add_one, max_succ_eq] at hfits
  rw [weight_eq, testBit_add_mul_two_pow hclear hfits]
  exact if_neg hfree

/-- Numbers that are added in slots that lie apart, and where there are none, are those that are
held there, and the other bits stay as they are. -/
theorem digits_add {slots : List Slot} {numbers : List Nat} {base : Nat}
    (hfits : List.Forall₂ (fun slot number => number ≤ slot.max) slots numbers)
    (hapart : slots.Pairwise Apart)
    (hclear : ∀ slot ∈ slots, base / slot.weight % (slot.max + 1) = 0) :
    let sum := base + (List.zipWith (fun slot number => number * slot.weight) slots numbers).sum
    (slots.map fun slot => sum / slot.weight % (slot.max + 1)) = numbers ∧
      ∀ bit, (∀ slot ∈ slots, ¬slot.Occupies bit) → sum.testBit bit = base.testBit bit := by
  induction hfits generalizing base with
  | nil => exact ⟨rfl, fun _ _ => rfl⟩
  | @cons slot number slots numbers hfits _ ih =>
    obtain ⟨hhead, htail⟩ := List.pairwise_cons.mp hapart
    obtain ⟨hclear, hclears⟩ := List.forall_mem_cons.mp hclear
    -- the other slots are still clear once the first number has been added
    have hclears' : ∀ other ∈ slots,
        (base + number * slot.weight) / other.weight % (other.max + 1) = 0 := by
      intro other hmem
      rw [← hclears other hmem]
      exact digit_eq_of_testBit_eq fun bit hbit =>
        testBit_add hclear hfits fun hbit' => (hhead other hmem).not_occupies hbit' hbit
    obtain ⟨hheld, hkept⟩ := ih htail hclears'
    rw [List.zipWith_cons_cons, List.sum_cons, ← Nat.add_assoc]
    constructor
    · have hown : ∀ bit, slot.Occupies bit → ∀ other ∈ slots, ¬other.Occupies bit :=
        fun bit hbit other hmem => (hhead other hmem).not_occupies hbit
      rw [List.map_cons, hheld, digit_eq_of_testBit_eq fun bit hbit => hkept bit (hown bit hbit),
        digit_add hclear hfits]
    · intro bit hfree
      obtain ⟨hfree, hfrees⟩ := List.forall_mem_cons.mp hfree
      exact (hkept bit hfrees).trans (testBit_add hclear hfits hfree)

/-- The operand by which a slot holds a number. -/
def holding (slot : Slot) (number : Nat) : Operand :=
  if slot.isRegister then .register number else .integer number

/-- A slot takes the operands by which it holds the numbers that fit. -/
theorem takes_iff {slot : Slot} {operand : Operand} {number : Nat} :
    slot.Takes operand number ↔ operand = slot.holding number ∧ number ≤ slot.max := by
  unfold holding
  constructor
  · intro htakes
    cases htakes with
    | register hkind hfits | integer hkind hfits => simpa [hkind] using hfits
  · rintro ⟨rfl, hfits⟩
    split
    · next hkind => exact .register hkind hfits
    · next hkind => exact .integer (Bool.eq_false_iff.mpr hkind) hfits

/-- The numbers of operands that slots take fit the slots. -/
theorem Fill.le_max {slots : List Slot} {operands : List Operand} {numbers : List Nat}
    (hfill : Fill slots operands numbers) :
    List.Forall₂ (fun slot number => number ≤ slot.max) slots numbers := by
  induction hfill with
  | nil => exact .nil
  | cons htakes _ ih => exact .cons htakes.le_max ih

/-- Operands that slots take are those by which the slots hold their numbers. -/
theorem Fill.operands_eq {slots : List Slot} {operands : List Operand} {numbers : List Nat}
    (hfill : Fill slots operands numbers) : operands = List.zipWith holding slots numbers := by
  induction hfill with
  | nil => rfl
  | cons htakes _ ih => rw [List.zipWith_cons_cons, ← ih, (takes_iff.mp htakes).1]

/-- Keeping the bits of the largest operand is a remainder. -/
theorem and_max (slot : Slot) (number : Nat) : number &&& slot.max = number % (slot.max + 1) := by
  cases slot <;>
    simp only [max_eq, and_nibble, and_byte, and_address, and_word]

end Slot

namespace Shape

/-- No operand of a shape takes a bit of the word. -/
def IsFree (shape : Shape) (bit : Nat) : Prop :=
  ∀ slot ∈ shape.slots, ¬slot.Occupies bit

/-- The slots of a shape lie apart. -/
theorem slots_apart (shape : Shape) : shape.slots.Pairwise Slot.Apart := by
  cases shape <;> simp [slots, Slot.Apart, Slot.low, Slot.width]

/-- The low bits of some numbers, as many of each as its slot has. -/
def lowBits (shape : Shape) (numbers : List Nat) : List Nat :=
  List.zipWith (fun slot number => number &&& slot.max) shape.slots numbers

/-- Values are cut to their low bits. -/
theorem cut_eq_lowBits (shape : Shape) (values : List Word) :
    shape.cut values = shape.lowBits (values.map (·.toNat)) := by
  rw [lowBits, List.zipWith_map_right]
  simp only [Slot.and_max, cut]

/-- The low bits of as many numbers as a shape has slots fit the slots. -/
theorem lowBits_fit {shape : Shape} {numbers : List Nat} (hcount : numbers.length = shape.arity) :
    List.Forall₂ (fun slot number => number ≤ slot.max) shape.slots (shape.lowBits numbers) := by
  unfold lowBits
  unfold arity at hcount
  generalize shape.slots = slots at hcount ⊢
  induction slots generalizing numbers with
  | nil => exact .nil
  | cons slot slots ih =>
    obtain _ | ⟨number, numbers⟩ := numbers
    · cases hcount
    · exact .cons Nat.and_le_right (ih (Nat.succ.inj hcount))

end Shape

namespace Opcode

/-- A word carries some numbers in the slots of a form, and it has the bits of the template
everywhere else. -/
structure Carries (opcode : Opcode) (word : Word) (numbers : List Nat) : Prop where
  slots_eq : (opcode.shape.slots.map fun slot => (slot.read word (.ofWord word)).toNat) = numbers
  fixed_eq : ∀ bit, opcode.shape.IsFree bit →
    word.toNat.testBit bit = opcode.template.toNat.testBit bit

/-- The operands that a word holds in the slots of a form are those for the numbers it carries. -/
theorem Carries.operands_eq {opcode : Opcode} {word : Word} {numbers : List Nat}
    (hcarries : opcode.Carries word numbers) :
    opcode.shape.operands word = List.zipWith Slot.holding opcode.shape.slots numbers := by
  rw [← hcarries.slots_eq, List.zipWith_map_right, List.zipWith_self]
  rfl

/-- A word carries the numbers that it adds to the template, each with the weight of its slot, if
they fit and the slots of the template are clear. -/
theorem carries_of_toNat_eq {opcode : Opcode} (hclear : opcode.IsClear) {word : Word}
    {numbers : List Nat}
    (hfits : List.Forall₂ (fun slot number => number ≤ slot.max) opcode.shape.slots numbers)
    (hword : word.toNat = opcode.template.toNat + opcode.shape.contribution numbers) :
    opcode.Carries word numbers := by
  obtain ⟨hheld, hkept⟩ := Slot.digits_add hfits opcode.shape.slots_apart hclear
  constructor
  · simp only [Slot.toNat_read, hword]
    exact hheld
  · intro bit hfree
    rw [hword]
    exact hkept bit hfree

/-- The table has a form with a mnemonic and a shape. -/
def InTable (mnemonic : Mnemonic) (shape : Shape) : Prop :=
  ∃ opcode ∈ table, opcode.mnemonic = mnemonic ∧ opcode.shape = shape

/-- A mnemonic with a shape makes a word of values exactly if the table has the form and the shape
takes as many operands. -/
theorem exists_compose?_iff {mnemonic : Mnemonic} {shape : Shape} {values : List Word} :
    (∃ word, compose? mnemonic shape values = some word) ↔
      InTable mnemonic shape ∧ values.length = shape.arity := by
  unfold compose?
  constructor
  · rintro ⟨word, hword⟩
    obtain ⟨opcode, hlookup, hmade⟩ := Option.bind_eq_some_iff.mp hword
    obtain ⟨hmem, rfl, rfl⟩ := lookup?_eq_some_iff.mp hlookup
    refine ⟨⟨opcode, hmem, rfl, rfl⟩, ?_⟩
    by_contra hcount
    have hnone : opcode.word? values = none := if_neg hcount
    cases hnone.symm.trans hmade
  · rintro ⟨⟨opcode, hmem, rfl, rfl⟩, hcount⟩
    rw [lookup?_eq_some_iff.mpr ⟨hmem, rfl, rfl⟩, Option.bind_some]
    exact ⟨_, word?_eq_some hcount⟩

/-- The word that a form makes of values adds their low bits to the template. -/
theorem toNat_of_compose? {opcode : Opcode} (hmem : opcode ∈ table) {values : List Word}
    {word : Word} (hword : compose? opcode.mnemonic opcode.shape values = some word) :
    word.toNat = opcode.template.toNat +
      opcode.shape.contribution (opcode.shape.lowBits (values.map (·.toNat))) := by
  have hcount := (exists_compose?_iff.mp ⟨word, hword⟩).2
  rw [compose?, lookup?_eq_some_iff.mpr ⟨hmem, rfl, rfl⟩, Option.bind_some,
    word?_eq_some hcount, Option.some.injEq] at hword
  rw [← hword, toNat_pack_written (isClear_of_mem_table hmem) hcount, Shape.cut_eq_lowBits]

/-- The word that a form makes of values carries their low bits. -/
theorem carries_of_compose? {opcode : Opcode} (hmem : opcode ∈ table) {values : List Word}
    {word : Word} (hword : compose? opcode.mnemonic opcode.shape values = some word) :
    opcode.Carries word (opcode.shape.lowBits (values.map (·.toNat))) := by
  have hcount := (exists_compose?_iff.mp ⟨word, hword⟩).2
  refine carries_of_toNat_eq (isClear_of_mem_table hmem) ?_ (toNat_of_compose? hmem hword)
  rw [← List.length_map (·.toNat)] at hcount
  exact Shape.lowBits_fit hcount

/-- The word that a form makes of operands carries their numbers. -/
theorem Encodes.exists_carries {opcode : Opcode} (hmem : opcode ∈ table)
    {operands : List Operand} {word : Word} (hencodes : opcode.Encodes operands word) :
    ∃ numbers, Slot.Fill opcode.shape.slots operands numbers ∧ opcode.Carries word numbers := by
  obtain ⟨numbers, hfill, hword⟩ := hencodes
  exact ⟨numbers, hfill, carries_of_toNat_eq (isClear_of_mem_table hmem) hfill.le_max hword⟩

end Opcode

end ChipEight
