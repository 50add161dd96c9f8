import ChipEight.Proofs.Codec.Bits

/-!
# Why an instruction has no word

An instruction has a word exactly if it has as many operands as its shape takes, every slot takes
its operand, and the table has the form. Otherwise it is refused for the first of these that
fails, the operands being looked at in the order of their slots.
-/

namespace ChipEight

/-- A slot refuses an operand: a label where a number is due, an operand of the wrong kind, or a
number of the right kind that is too large. -/
inductive Slot.Refuses (slot : Slot) (mnemonic : Mnemonic) : Located Operand → AssemblyError → Prop
  | unresolved {name : String} {position : Position} (hkind : slot.isRegister = false) :
      Refuses slot mnemonic ⟨.label name, position⟩ (.unresolvedLabels [name])
  | noRegister {operand : Operand} {position : Position} (hkind : slot.isRegister = true)
      (hother : ∀ number, operand ≠ .register number) :
      Refuses slot mnemonic ⟨operand, position⟩
        (.invalidOperand .register (.operand operand) position)
  | noNumber {number : Nat} {position : Position} (hkind : slot.isRegister = false) :
      Refuses slot mnemonic ⟨.register number, position⟩
        (.invalidOperand .integerOrLabel (.operand (.register number)) position)
  | tooLarge {number : Nat} {position : Position} (hlarge : slot.max < number) :
      Refuses slot mnemonic ⟨slot.holding number, position⟩
        (.operandOutOfRange mnemonic number slot.max position)

namespace SourceInstruction

/-- The slots of an instruction with the operands that stand for them. -/
def slotOperands (instruction : SourceInstruction) : List (Slot × Located Operand) :=
  instruction.shape.slots.zip instruction.operands

/-- Every slot takes its operand. -/
def Takes (pairs : List (Slot × Located Operand)) : Prop :=
  ∀ pair ∈ pairs, ∃ number, pair.1.Takes pair.2.value number

/-- The errors with which an instruction is refused: its number of operands is wrong; or it is
right, and a slot refuses its operand after all slots before it have taken theirs; or all slots
have, and the table has no such form. -/
inductive Refused (instruction : SourceInstruction) : AssemblyError → Prop
  | count (hcount : instruction.operands.length ≠ instruction.shape.arity) :
      Refused instruction (.operandCount instruction.mnemonic instruction.shape.arity
        instruction.operands.length instruction.position)
  | operand {before after : List (Slot × Located Operand)} {slot : Slot}
      {operand : Located Operand} {error : AssemblyError}
      (hcount : instruction.operands.length = instruction.shape.arity)
      (hpairs : instruction.slotOperands = before ++ (slot, operand) :: after)
      (hbefore : Takes before) (hrefuses : slot.Refuses instruction.mnemonic operand error) :
      Refused instruction error
  | form (hcount : instruction.operands.length = instruction.shape.arity)
      (htakes : Takes instruction.slotOperands)
      (hform : ¬Opcode.InTable instruction.mnemonic instruction.shape) :
      Refused instruction (.unsupportedShape instruction.mnemonic instruction.shape
        instruction.position)

/-- An operand of the right kind has a value if its number fits. -/
theorem slotValue_holding (mnemonic : Mnemonic) (slot : Slot) (number : Nat)
    (position : Position) :
    slotValue mnemonic slot ⟨slot.holding number, position⟩ =
      if number ≤ slot.max then .ok number.toUInt16
      else .error (.operandOutOfRange mnemonic number slot.max position) := by
  have hnumber : slotNumber slot ⟨slot.holding number, position⟩ = .ok number := by
    cases hkind : slot.isRegister <;> simp [slotNumber, Slot.holding, hkind]
  rw [slotValue, hnumber]
  rfl

/-- The value of an operand fails exactly as its slot refuses it. -/
theorem slotValue_eq_error_iff {mnemonic : Mnemonic} {slot : Slot} {operand : Located Operand}
    {error : AssemblyError} :
    slotValue mnemonic slot operand = .error error ↔ slot.Refuses mnemonic operand error := by
  constructor
  · intro hvalue
    obtain ⟨operand, position⟩ := operand
    by_cases hheld : ∃ number, operand = slot.holding number
    · obtain ⟨number, rfl⟩ := hheld
      rw [slotValue_holding] at hvalue
      split at hvalue
      · cases hvalue
      · next hlarge =>
        cases hvalue
        exact .tooLarge (Nat.lt_of_not_le hlarge)
    · cases hkind : slot.isRegister with
      | true =>
        have hother : ∀ number, operand ≠ .register number := by
          rintro number rfl
          exact hheld ⟨number, by simp [Slot.holding, hkind]⟩
        have hnumber : slotNumber slot ⟨operand, position⟩ =
            .error (.invalidOperand .register (.operand operand) position) := by
          cases operand with
          | register number => exact absurd rfl (hother number)
          | integer | label => simp [slotNumber, hkind]
        rw [slotValue, hnumber] at hvalue
        cases hvalue
        exact .noRegister hkind hother
      | false =>
        cases operand with
        | integer value => exact absurd ⟨value, by simp [Slot.holding, hkind]⟩ hheld
        | label name =>
          simp only [slotValue, slotNumber, hkind] at hvalue
          cases hvalue
          exact .unresolved hkind
        | register number =>
          simp only [slotValue, slotNumber, hkind] at hvalue
          cases hvalue
          exact .noNumber hkind
  · intro hrefuses
    cases hrefuses with
    | unresolved hkind | noNumber hkind => simp [slotValue, slotNumber, hkind, bind, Except.bind]
    | @noRegister operand position hkind hother =>
      cases operand with
      | register number => exact absurd rfl (hother number)
      | integer | label => simp [slotValue, slotNumber, hkind, bind, Except.bind]
    | tooLarge hlarge => rw [slotValue_holding, if_neg (Nat.not_le_of_lt hlarge)]

/-- Slots take operands if they have values. -/
theorem takes_iff_forall_slotValue {mnemonic : Mnemonic} {pairs : List (Slot × Located Operand)} :
    Takes pairs ↔ ∀ pair ∈ pairs, ∃ value, slotValue mnemonic pair.1 pair.2 = .ok value := by
  refine forall₂_congr fun pair _ => ⟨?_, ?_⟩
  · rintro ⟨number, htakes⟩
    exact ⟨_, slotValue_eq_ok_iff.mpr ⟨number, htakes, rfl⟩⟩
  · rintro ⟨value, hvalue⟩
    obtain ⟨number, htakes, _⟩ := slotValue_eq_ok_iff.mp hvalue
    exact ⟨number, htakes⟩

/-- An instruction with as many operands as its shape takes has the word that its form makes of
their values. -/
theorem encode_of_length_eq {instruction : SourceInstruction}
    (hcount : instruction.operands.length = instruction.shape.arity) :
    instruction.encode =
      instruction.slotOperands.mapM (fun pair => slotValue instruction.mnemonic pair.1 pair.2) >>=
        fun values =>
          match Opcode.compose? instruction.mnemonic instruction.shape values with
          | some word => pure word
          | none => throw (.unsupportedShape instruction.mnemonic instruction.shape
              instruction.position) := by
  rw [encode, if_neg (not_not.mpr hcount)]
  rfl

/-- The values of all operands are as many as the shape takes. -/
theorem length_of_mapM_slotOperands {instruction : SourceInstruction} {values : List Word}
    (hcount : instruction.operands.length = instruction.shape.arity)
    (hvalues : instruction.slotOperands.mapM
      (fun pair => slotValue instruction.mnemonic pair.1 pair.2) = .ok values) :
    values.length = instruction.shape.arity := by
  rw [← (mapM_eq_ok_iff.mp hvalues).length_eq, slotOperands, List.length_zip, hcount,
    Shape.arity, Nat.min_self]

variable {instruction : SourceInstruction} {error : AssemblyError}

/-- If all slots take their operands, only a missing form is left to refuse an instruction. -/
theorem refused_iff_of_takes (hcount : instruction.operands.length = instruction.shape.arity)
    (htakes : Takes instruction.slotOperands) :
    instruction.Refused error ↔ ¬Opcode.InTable instruction.mnemonic instruction.shape ∧
      error = .unsupportedShape instruction.mnemonic instruction.shape instruction.position := by
  constructor
  · intro hrefused
    cases hrefused with
    | count hwrong => exact absurd hcount hwrong
    | @operand before after slot operand _ _ hpairs _ hrefuses =>
      have hmem : (slot, operand) ∈ instruction.slotOperands := by simp [hpairs]
      obtain ⟨value, hvalue⟩ := takes_iff_forall_slotValue.mp htakes _ hmem
      cases (slotValue_eq_error_iff.mpr hrefuses).symm.trans hvalue
    | form _ _ hmissing => exact ⟨hmissing, rfl⟩
  · rintro ⟨hmissing, rfl⟩
    exact .form hcount htakes hmissing

/-- If the values of the operands fail, an instruction is refused as they do. -/
theorem refused_iff_of_mapM_eq_error {other : AssemblyError}
    (hcount : instruction.operands.length = instruction.shape.arity)
    (hvalues : instruction.slotOperands.mapM
      (fun pair => slotValue instruction.mnemonic pair.1 pair.2) = .error other) :
    instruction.Refused error ↔ error = other := by
  obtain ⟨before, ⟨slot, operand⟩, after, hpairs, hbefore, hfails⟩ := mapM_eq_error_iff.mp hvalues
  constructor
  · intro hrefused
    cases hrefused with
    | count hwrong => exact absurd hcount hwrong
    | operand _ hpairs' hbefore' hrefuses =>
      have herror := mapM_eq_error_iff.mpr ⟨_, _, _, hpairs',
        takes_iff_forall_slotValue.mp hbefore', slotValue_eq_error_iff.mpr hrefuses⟩
      exact Except.error.inj (herror.symm.trans hvalues)
    | form _ htakes =>
      have hmem : (slot, operand) ∈ instruction.slotOperands := by simp [hpairs]
      obtain ⟨value, hvalue⟩ := takes_iff_forall_slotValue.mp htakes _ hmem
      cases hfails.symm.trans hvalue
  · rintro rfl
    exact .operand hcount hpairs (takes_iff_forall_slotValue.mpr hbefore)
      (slotValue_eq_error_iff.mp hfails)

/-- An instruction is refused with exactly the first of its errors. -/
theorem encode_eq_error_iff : instruction.encode = .error error ↔ instruction.Refused error := by
  -- the order of the checks: the count, the operands one by one, the form
  by_cases hcount : instruction.operands.length = instruction.shape.arity
  · rw [encode_of_length_eq hcount]
    cases hvalues : instruction.slotOperands.mapM
        fun pair => slotValue instruction.mnemonic pair.1 pair.2 with
    | error other =>
      rw [refused_iff_of_mapM_eq_error hcount hvalues]
      change Except.error other = Except.error error ↔ error = other
      rw [Except.error.injEq]
      exact eq_comm
    | ok values =>
      have htakes : Takes instruction.slotOperands :=
        takes_iff_forall_slotValue.mpr (exists_mapM_eq_ok_iff.mp ⟨values, hvalues⟩)
      have hform := @Opcode.exists_compose?_iff instruction.mnemonic instruction.shape values
      rw [and_iff_left (length_of_mapM_slotOperands hcount hvalues)] at hform
      rw [refused_iff_of_takes hcount htakes, ← hform]
      simp only [bind, Except.bind]
      cases Opcode.compose? instruction.mnemonic instruction.shape values <;>
        simp [pure, Except.pure, throw, throwThe, MonadExceptOf.throw, eq_comm]
  · have hencode : instruction.encode = .error (.operandCount instruction.mnemonic
        instruction.shape.arity instruction.operands.length instruction.position) := by
      rw [encode, if_pos hcount]
    rw [hencode]
    constructor
    · rintro ⟨⟩
      exact .count hcount
    · intro hrefused
      cases hrefused with
      | count => rfl
      | operand hsame | form hsame => exact absurd hsame hcount

/-- Slots take the operands that fill them. -/
theorem takes_of_fill {slots : List Slot} {operands : List (Located Operand)} {numbers : List Nat}
    (hfill : Slot.Fill slots (operands.map (·.value)) numbers) : Takes (slots.zip operands) := by
  induction slots generalizing operands numbers with
  | nil => exact nofun
  | cons slot slots ih =>
    obtain _ | ⟨operand, operands⟩ := operands
    · exact nofun
    · obtain _ | ⟨htakes, hfill⟩ := hfill
      exact List.forall_mem_cons.mpr ⟨⟨_, htakes⟩, ih hfill⟩

/-- An instruction has a word exactly if it has as many operands as its shape takes, every slot
takes its operand, and the table has the form. -/
theorem exists_encode_iff :
    (∃ word, instruction.encode = .ok word) ↔
      instruction.operands.length = instruction.shape.arity ∧ Takes instruction.slotOperands ∧
        Opcode.InTable instruction.mnemonic instruction.shape := by
  constructor
  · rintro ⟨word, hencode⟩
    obtain ⟨opcode, hlookup, numbers, hfill, _⟩ := encode_eq_ok_iff.mp hencode
    obtain ⟨hmem, hmnemonic, hshape⟩ := Opcode.lookup?_eq_some_iff.mp hlookup
    rw [hshape] at hfill
    refine ⟨?_, takes_of_fill hfill, opcode, hmem, hmnemonic, hshape⟩
    rw [Shape.arity, ← hfill.length_eq.1, List.length_map]
  · rintro ⟨hcount, htakes, hform⟩
    cases hencode : instruction.encode with
    | ok word => exact ⟨word, rfl⟩
    | error error =>
      have hrefused := encode_eq_error_iff.mp hencode
      exact absurd hform ((refused_iff_of_takes hcount htakes).mp hrefused).1

/-- An instruction has a word exactly if everything fits. The word then holds the operands in its
slots and has the bits of the template everywhere else, so that nothing has been cut off. Any
other instruction is refused with exactly the first of its errors. -/
theorem encode_accepts_what_fits (instruction : SourceInstruction) :
    ((∃ word, instruction.encode = .ok word) ↔
      instruction.operands.length = instruction.shape.arity ∧ Takes instruction.slotOperands ∧
        Opcode.InTable instruction.mnemonic instruction.shape) ∧
    (∀ word, instruction.encode = .ok word →
      instruction.shape.operands word = instruction.operands.map (·.value) ∧
      ∀ opcode ∈ Opcode.table, opcode.mnemonic = instruction.mnemonic →
        opcode.shape = instruction.shape →
        ∀ bit, instruction.shape.IsFree bit →
          word.toNat.testBit bit = opcode.template.toNat.testBit bit) ∧
    ∀ error, instruction.encode = .error error ↔ instruction.Refused error := by
  refine ⟨exists_encode_iff, fun word hencode => ?_, fun error => encode_eq_error_iff⟩
  obtain ⟨opcode, hlookup, hencodes⟩ := encode_eq_ok_iff.mp hencode
  obtain ⟨hmem, hmnemonic, hshape⟩ := Opcode.lookup?_eq_some_iff.mp hlookup
  obtain ⟨numbers, hfill, hcarries⟩ := hencodes.exists_carries hmem
  constructor
  · rw [hfill.operands_eq, ← hshape, hcarries.operands_eq]
  · intro other hother hmnemonic' hshape' bit hfree
    have hsame := Opcode.lookup?_eq_some_iff.mpr ⟨hother, hmnemonic', hshape'⟩
    obtain rfl : opcode = other := Option.some.inj (hlookup.symm.trans hsame)
    rw [← hshape] at hfree
    exact hcarries.fixed_eq bit hfree

/-- A move of a byte to a register has a word that holds both. A byte that is too large is refused
even where the table has no such form, because the operands are looked at first. -/
theorem encode_accepts_move :
    (∃ word, encode ⟨.mov, .registerByte, [⟨.register 2, ⟨1, 5⟩⟩, ⟨.integer 8, ⟨1, 9⟩⟩],
        .first⟩ = .ok word ∧ word = 0x6208 ∧
        Shape.registerByte.operands word = [.register 2, .integer 8]) ∧
      encode ⟨.or, .registerByte, [⟨.register 2, ⟨1, 4⟩⟩, ⟨.integer 0x100, ⟨1, 8⟩⟩], .first⟩ =
        .error (.operandOutOfRange .or 0x100 0xFF ⟨1, 8⟩) := by
  constructor
  · have hencode : encode ⟨.mov, .registerByte,
        [⟨.register 2, ⟨1, 5⟩⟩, ⟨.integer 8, ⟨1, 9⟩⟩], .first⟩ = .ok 0x6208 := by
      rfl
    exact ⟨0x6208, hencode, rfl, ((encode_accepts_what_fits _).2.1 _ hencode).1⟩
  · have htakes : Takes [(.registerX, ⟨.register 2, ⟨1, 4⟩⟩)] :=
      List.forall_mem_singleton.mpr ⟨2, .register rfl (by decide)⟩
    have hrefuses : Slot.byte.Refuses .or ⟨.integer 0x100, ⟨1, 8⟩⟩
        (.operandOutOfRange .or 0x100 0xFF ⟨1, 8⟩) :=
      @Slot.Refuses.tooLarge .byte .or 0x100 ⟨1, 8⟩ (by decide)
    exact ((encode_accepts_what_fits _).2.2 _).mpr (.operand rfl rfl htakes hrefuses)

end SourceInstruction

end ChipEight
