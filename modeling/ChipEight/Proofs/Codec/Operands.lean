import ChipEight.Assembly.SourceInstruction
import ChipEight.Proofs.Basics
import ChipEight.Proofs.Codec.Packing

/-!
# Operands and the words they make

A slot takes a register number or another number, according to its kind, if the number
fits. An instruction has a word exactly if its slots take its operands one by one, and
that word is the template of its form with the numbers in their slots.
-/

namespace ChipEight

namespace Slot

/-- A slot takes an operand, which stands for a number that fits. A label stands for no
number. -/
inductive Takes (slot : Slot) : Operand → Nat → Prop
  | register {number : Nat} (hkind : slot.isRegister = true) (hfits : number ≤ slot.max) :
      Takes slot (.register number) number
  | integer {value : Nat} (hkind : slot.isRegister = false) (hfits : value ≤ slot.max) :
      Takes slot (.integer value) value

/-- Slots take as many operands, one by one. -/
inductive Fill : List Slot → List Operand → List Nat → Prop
  | nil : Fill [] [] []
  | cons {slot : Slot} {operand : Operand} {number : Nat} {slots : List Slot}
      {operands : List Operand} {numbers : List Nat} (htakes : slot.Takes operand number)
      (hfill : Fill slots operands numbers) :
      Fill (slot :: slots) (operand :: operands) (number :: numbers)

/-- The number of an operand that a slot takes fits the slot. -/
theorem Takes.le_max {slot : Slot} {operand : Operand} {number : Nat}
    (htakes : slot.Takes operand number) : number ≤ slot.max := by
  cases htakes <;> assumption

/-- A slot takes an operand as at most one number. -/
theorem Takes.unique {slot : Slot} {operand : Operand} {number other : Nat}
    (htakes : slot.Takes operand number) (hother : slot.Takes operand other) :
    number = other := by
  cases htakes <;> cases hother <;> rfl

/-- Slots take as many operands as there are slots. -/
theorem Fill.length_eq {slots : List Slot} {operands : List Operand} {numbers : List Nat}
    (hfill : Fill slots operands numbers) :
    operands.length = slots.length ∧ numbers.length = slots.length := by
  induction hfill with
  | nil => exact ⟨rfl, rfl⟩
  | cons _ _ ih => exact ⟨congrArg (· + 1) ih.1, congrArg (· + 1) ih.2⟩

/-- Slots take operands as at most one list of numbers. -/
theorem Fill.unique {slots : List Slot} {operands : List Operand} {numbers others : List Nat}
    (hfill : Fill slots operands numbers) (hother : Fill slots operands others) :
    numbers = others := by
  induction hfill generalizing others with
  | nil =>
    cases hother
    rfl
  | cons htakes _ ih =>
    cases hother with
    | cons htakes' hfill' => rw [htakes.unique htakes', ih hfill']

/-- The largest operand of a slot has sixteen bits. -/
theorem max_lt (slot : Slot) : slot.max < 65536 := by
  cases slot <;> decide

end Slot

/-- Numbers that fit their slots are kept whole. -/
theorem Shape.cut_of_fill {slots : List Slot} {operands : List Operand} {numbers : List Nat}
    (hfill : Slot.Fill slots operands numbers) :
    List.zipWith (fun slot value => value.toNat % (slot.max + 1)) slots
      (numbers.map (·.toUInt16)) = numbers := by
  induction hfill with
  | nil => rfl
  | @cons slot _ number _ _ _ htakes _ ih =>
    have hfits := htakes.le_max
    have hmax := slot.max_lt
    have hkept : number.toUInt16.toNat % (slot.max + 1) = number := by
      rw [Nat.toUInt16_eq, UInt16.toNat_ofNat', Nat.mod_eq_of_lt (by omega),
        Nat.mod_eq_of_lt (by omega)]
    simp only [List.map_cons, List.zipWith_cons_cons, hkept, ih]

namespace Opcode

/-- A form makes a word of operands: its slots take them, and their numbers add up with
the template. -/
def Encodes (opcode : Opcode) (operands : List Operand) (word : Word) : Prop :=
  ∃ numbers, Slot.Fill opcode.shape.slots operands numbers ∧
    word.toNat = opcode.template.toNat + opcode.shape.contribution numbers

/-- A form makes at most one word of operands. -/
theorem Encodes.unique {opcode : Opcode} {operands : List Operand} {word other : Word}
    (hword : opcode.Encodes operands word) (hother : opcode.Encodes operands other) :
    word = other := by
  obtain ⟨numbers, hfill, hnumber⟩ := hword
  obtain ⟨others, hfill', hnumber'⟩ := hother
  rw [hfill.unique hfill', ← hnumber'] at hnumber
  exact UInt16.toNat_inj.mp hnumber

/-- A form builds the word that it makes of operands from their numbers. -/
theorem word?_of_fill {opcode : Opcode} (hclear : opcode.IsClear) {operands : List Operand}
    {numbers : List Nat} (hfill : Slot.Fill opcode.shape.slots operands numbers) :
    ∃ word, opcode.word? (numbers.map (·.toUInt16)) = some word ∧
      opcode.Encodes operands word := by
  have hlength : (numbers.map (·.toUInt16)).length = opcode.shape.arity := by
    rw [List.length_map, hfill.length_eq.2, Shape.arity]
  refine ⟨_, word?_eq_some hlength, numbers, hfill, ?_⟩
  rw [toNat_pack_written hclear hlength, Shape.cut, Shape.cut_of_fill hfill]

/-- A form of the table makes a word of operands exactly if its slots take them. -/
theorem exists_encodes_iff {opcode : Opcode} (hmem : opcode ∈ table) {operands : List Operand} :
    (∃ word, opcode.Encodes operands word) ↔
      ∃ numbers, Slot.Fill opcode.shape.slots operands numbers := by
  constructor
  · rintro ⟨_, numbers, hfill, _⟩
    exact ⟨numbers, hfill⟩
  · rintro ⟨numbers, hfill⟩
    obtain ⟨word, _, hencodes⟩ := word?_of_fill (isClear_of_mem_table hmem) hfill
    exact ⟨word, hencodes⟩

/-- The form that is looked up is the row of the table with its mnemonic and shape. -/
theorem lookup?_eq_some_iff {mnemonic : Mnemonic} {shape : Shape} {opcode : Opcode} :
    lookup? mnemonic shape = some opcode ↔
      opcode ∈ table ∧ opcode.mnemonic = mnemonic ∧ opcode.shape = shape := by
  constructor
  · intro hlookup
    have hmatch := List.find?_some hlookup
    simp only [Bool.and_eq_true, beq_iff_eq] at hmatch
    exact ⟨List.mem_of_find?_eq_some hlookup, hmatch⟩
  · rintro ⟨hmem, rfl, rfl⟩
    have hall : ∀ opcode ∈ table, lookup? opcode.mnemonic opcode.shape = some opcode := by decide
    exact hall opcode hmem

end Opcode

namespace SourceInstruction

/-- A slot has the number of an operand of its kind, whether or not it fits. -/
theorem slotNumber_eq_ok_iff {slot : Slot} {operand : Located Operand} {number : Nat} :
    slotNumber slot operand = .ok number ↔
      operand.value = .register number ∧ slot.isRegister = true ∨
        operand.value = .integer number ∧ slot.isRegister = false := by
  obtain ⟨operand, position⟩ := operand
  cases operand <;> cases hkind : slot.isRegister <;> simp [slotNumber, hkind]

/-- A slot has the value of an operand exactly if it takes the operand. -/
theorem slotValue_eq_ok_iff {mnemonic : Mnemonic} {slot : Slot} {operand : Located Operand}
    {value : Word} :
    slotValue mnemonic slot operand = .ok value ↔
      ∃ number, slot.Takes operand.value number ∧ value = number.toUInt16 := by
  constructor
  · intro hvalue
    unfold slotValue at hvalue
    cases hnumber : slotNumber slot operand with
    | error error => simp [hnumber, bind, Except.bind] at hvalue
    | ok number =>
      by_cases hfits : number ≤ slot.max
      · simp only [hnumber, bind, Except.bind, hfits, if_true, pure, Except.pure,
          Except.ok.injEq] at hvalue
        refine ⟨number, ?_, hvalue.symm⟩
        rcases slotNumber_eq_ok_iff.mp hnumber with ⟨hregister, hkind⟩ | ⟨hinteger, hkind⟩
        · exact hregister ▸ .register hkind hfits
        · exact hinteger ▸ .integer hkind hfits
      · simp [hnumber, bind, Except.bind, hfits, throw, throwThe, MonadExceptOf.throw] at hvalue
  · rintro ⟨number, htakes, rfl⟩
    have hnumber : slotNumber slot operand = .ok number := by
      rw [slotNumber_eq_ok_iff]
      generalize operand.value = value at htakes
      cases htakes with
      | register hkind => exact Or.inl ⟨rfl, hkind⟩
      | integer hkind => exact Or.inr ⟨rfl, hkind⟩
    simp [slotValue, hnumber, htakes.le_max, bind, Except.bind, pure, Except.pure]

/-- The values of operands are the numbers as which the slots take them. -/
theorem forall₂_slotValue_iff (mnemonic : Mnemonic) {slots : List Slot}
    {operands : List (Located Operand)} {values : List Word}
    (hlength : operands.length = slots.length) :
    List.Forall₂ (fun pair value => slotValue mnemonic pair.1 pair.2 = .ok value)
        (slots.zip operands) values ↔
      ∃ numbers, Slot.Fill slots (operands.map (·.value)) numbers ∧
        values = numbers.map (·.toUInt16) := by
  induction slots generalizing operands values with
  | nil =>
    obtain rfl := List.length_eq_zero_iff.mp hlength
    constructor
    · intro hvalues
      cases hvalues
      exact ⟨[], .nil, rfl⟩
    · rintro ⟨numbers, hfill, rfl⟩
      cases hfill
      exact .nil
  | cons slot slots ih =>
    obtain _ | ⟨operand, operands⟩ := operands
    · simp at hlength
    have hlength' : operands.length = slots.length := by simpa using hlength
    constructor
    · intro hvalues
      cases hvalues with
      | cons hhead htail =>
        obtain ⟨number, htakes, rfl⟩ := slotValue_eq_ok_iff.mp hhead
        obtain ⟨numbers, hfill, rfl⟩ := (ih hlength').mp htail
        exact ⟨number :: numbers, .cons htakes hfill, rfl⟩
    · rintro ⟨numbers, hfill, rfl⟩
      cases hfill with
      | cons htakes hfill =>
        exact .cons (slotValue_eq_ok_iff.mpr ⟨_, htakes, rfl⟩)
          ((ih hlength').mpr ⟨_, hfill, rfl⟩)

/-- An instruction has exactly the word that its form makes of its operands. -/
theorem encode_eq_ok_iff {instruction : SourceInstruction} {word : Word} :
    instruction.encode = .ok word ↔
      ∃ opcode, Opcode.lookup? instruction.mnemonic instruction.shape = some opcode ∧
        opcode.Encodes (instruction.operands.map (·.value)) word := by
  constructor
  · intro hencode
    unfold encode at hencode
    split at hencode
    · cases hencode
    · next hcount =>
      have hlength : instruction.operands.length = instruction.shape.slots.length :=
        not_not.mp hcount
      cases hvalues : (instruction.shape.slots.zip instruction.operands).mapM
          fun pair => slotValue instruction.mnemonic pair.1 pair.2 with
      | error error => simp [hvalues, bind, Except.bind] at hencode
      | ok values =>
        obtain ⟨numbers, hfill, rfl⟩ :=
          (forall₂_slotValue_iff _ hlength).mp (mapM_eq_ok_iff.mp hvalues)
        rw [hvalues] at hencode
        cases hlookup : Opcode.lookup? instruction.mnemonic instruction.shape with
        | none => simp [Opcode.compose?, hlookup, bind, Except.bind, throw, throwThe,
            MonadExceptOf.throw] at hencode
        | some opcode =>
          obtain ⟨hmem, _, hshape⟩ := Opcode.lookup?_eq_some_iff.mp hlookup
          rw [← hshape] at hfill
          obtain ⟨other, hother, hencodes⟩ :=
            Opcode.word?_of_fill (Opcode.isClear_of_mem_table hmem) hfill
          refine ⟨opcode, rfl, ?_⟩
          simp [Opcode.compose?, hlookup, hother, bind, Except.bind, pure, Except.pure] at hencode
          exact hencode ▸ hencodes
  · rintro ⟨opcode, hlookup, hencodes⟩
    obtain ⟨hmem, _, hshape⟩ := Opcode.lookup?_eq_some_iff.mp hlookup
    obtain ⟨numbers, hfill, hnumber⟩ := hencodes
    obtain ⟨other, hother, hencodes'⟩ :=
      Opcode.word?_of_fill (Opcode.isClear_of_mem_table hmem) hfill
    obtain rfl := hencodes'.unique ⟨numbers, hfill, hnumber⟩
    rw [hshape] at hfill
    have hlength : instruction.operands.length = instruction.shape.slots.length := by
      simpa using hfill.length_eq.1
    have hvalues := mapM_eq_ok_iff.mpr
      ((forall₂_slotValue_iff instruction.mnemonic hlength).mpr ⟨numbers, hfill, rfl⟩)
    have hcount : ¬instruction.operands.length ≠ instruction.shape.arity := not_not.mpr hlength
    unfold encode
    rw [if_neg hcount]
    simp [hvalues, Opcode.compose?, hlookup, hother, bind, Except.bind, pure, Except.pure]

end SourceInstruction

end ChipEight
