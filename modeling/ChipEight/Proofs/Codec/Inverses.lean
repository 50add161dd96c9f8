import ChipEight.Proofs.Codec.Bits

/-!
# Words and operands stand for each other

Three descriptions of the instructions meet here: the choice of an operation by group and low
bits, the table of forms, and the slots of the shapes. The word that a form makes of any values
is read as that form with the low bits of the values, and goes back to itself.
-/

namespace ChipEight

/-- The operation that some fields name: the group names it, except in groups 0, 8, E and F,
where the low byte or the low nibble tells the operations of the group apart. -/
def Mnemonic.ofFields? (fields : Fields) : Option Mnemonic :=
  match fields.group with
  | 0x0 =>
    match fields.kk with
    | 0xE0 => some .cls
    | 0xEE => some .ret
    | _ => none
  | 0x1 => some .jmp
  | 0x2 => some .jsr
  | 0x3 | 0x5 => some .skeq
  | 0x4 | 0x9 => some .skne
  | 0x6 => some .mov
  | 0x7 => some .add
  | 0x8 =>
    match fields.n with
    | 0x0 => some .mov
    | 0x1 => some .or
    | 0x2 => some .and
    | 0x3 => some .xor
    | 0x4 => some .add
    | 0x5 => some .sub
    | 0x6 => some .shr
    | 0x7 => some .rsb
    | 0xE => some .shl
    | _ => none
  | 0xA => some .mvi
  | 0xB => some .jmi
  | 0xC => some .rand
  | 0xD => some .draw
  | 0xE =>
    match fields.kk with
    | 0x9E => some .skpr
    | 0xA1 => some .skup
    | _ => none
  | 0xF =>
    match fields.kk with
    | 0x07 => some .gdel
    | 0x0A => some .key
    | 0x15 => some .sdel
    | 0x18 => some .ssnd
    | 0x1E => some .adi
    | 0x29 => some .font
    | 0x33 => some .bcd
    | 0x55 => some .str
    | 0x65 => some .ldr
    | _ => none
  | _ => none

namespace Opcode

/-- Fields of one group with the same selector name the same operation. -/
theorem named_congr {fields others : Fields} (hgroup : fields.group = others.group)
    (hselector : selector fields = selector others) :
    Mnemonic.ofFields? fields = Mnemonic.ofFields? others := by
  unfold selector at hselector
  rw [← hgroup] at hselector
  unfold Mnemonic.ofFields?
  rw [← hgroup]
  split
  any_goals rfl
  -- left are the groups with several operations, where the selector is what the match looks at
  all_goals
    rename_i hlisted
    simp [hlisted] at hselector
    rw [hselector]

/-- Fields that belong to a form name its operation, and the form is the one of that operation in
their group. -/
theorem named_of_ofFields? {fields : Fields} {opcode : Opcode}
    (hfound : ofFields? fields = some opcode) :
    Mnemonic.ofFields? fields = some opcode.mnemonic ∧
      inGroup? opcode.mnemonic fields = some opcode := by
  have hmem := List.mem_of_find?_eq_some hfound
  have hmatch := List.find?_some hfound
  simp only [Bool.and_eq_true, bne_iff_ne, beq_iff_eq] at hmatch
  obtain ⟨⟨hne, hgroup⟩, hselector⟩ := hmatch
  have hall : ∀ opcode ∈ table, opcode.mnemonic ≠ .noop →
      Mnemonic.ofFields? opcode.fixed = some opcode.mnemonic ∧
        inGroup? opcode.mnemonic opcode.fixed = some opcode := by decide
  obtain ⟨hnamed, hform⟩ := hall opcode hmem hne
  constructor
  · rw [← named_congr hgroup hselector, hnamed]
  · rw [← hform]
    simp only [inGroup?, hgroup]

/-- Fields that name an operation belong to a form. -/
theorem exists_ofFields?_of_named {fields : Fields} {mnemonic : Mnemonic}
    (hnamed : Mnemonic.ofFields? fields = some mnemonic) :
    ∃ opcode, ofFields? fields = some opcode := by
  obtain ⟨group, n, x, y, kk, nnn⟩ := fields
  rw [← Option.isSome_iff_exists]
  unfold Mnemonic.ofFields? at hnamed
  dsimp only at hnamed
  split at hnamed
  any_goals rfl
  any_goals
    split at hnamed
    any_goals rfl
  all_goals cases hnamed

/-- The form that some fields belong to is the one that their operation has in their group. -/
theorem ofFields?_eq (fields : Fields) :
    ofFields? fields = (Mnemonic.ofFields? fields).bind (inGroup? · fields) := by
  cases hfound : ofFields? fields with
  | some opcode =>
    obtain ⟨hnamed, hform⟩ := named_of_ofFields? hfound
    rw [hnamed, Option.bind_some, hform]
  | none =>
    cases hnamed : Mnemonic.ofFields? fields with
    | none => rfl
    | some mnemonic =>
      obtain ⟨opcode, hsome⟩ := exists_ofFields?_of_named hnamed
      cases hfound.symm.trans hsome

variable {opcode : Opcode}

/-- No operand of an operation takes a bit of its group. -/
theorem isFree_of_group (hmem : opcode ∈ table) (hne : opcode.mnemonic ≠ .noop) {bit : Nat}
    (hbit : 12 ≤ bit) : opcode.shape.IsFree bit := by
  have hall : ∀ opcode ∈ table, opcode.mnemonic ≠ .noop → opcode.shape ≠ .wholeWord := by decide
  have hshape := hall opcode hmem hne
  cases hsame : opcode.shape with
  | wholeWord => exact absurd hsame hshape
  | noOperand => simp [Shape.IsFree, Shape.slots]
  | _ =>
    simp [Shape.IsFree, Shape.slots, Slot.Occupies, Slot.low, Slot.width]
    omega

/-- In group 8, no operand takes a bit of the low nibble. -/
theorem isFree_of_nibble (hmem : opcode ∈ table) (hgroup : opcode.fixed.group = 0x8) {bit : Nat}
    (hbit : bit < 4) : opcode.shape.IsFree bit := by
  have hall : ∀ opcode ∈ table, opcode.fixed.group = 0x8 →
      opcode.shape = .registerRegister ∨ opcode.shape = .register := by decide
  obtain hshape | hshape := hall opcode hmem hgroup
  all_goals
    simp [hshape, Shape.IsFree, Shape.slots, Slot.Occupies, Slot.low, Slot.width]
    omega

/-- In groups 0, E and F, no operand of an operation takes a bit of the low byte. -/
theorem isFree_of_byte (hmem : opcode ∈ table) (hne : opcode.mnemonic ≠ .noop)
    (hgroup : opcode.fixed.group = 0x0 ∨ opcode.fixed.group = 0xE ∨ opcode.fixed.group = 0xF)
    {bit : Nat} (hbit : bit < 8) : opcode.shape.IsFree bit := by
  have hall : ∀ opcode ∈ table, opcode.mnemonic ≠ .noop →
      (opcode.fixed.group = 0x0 ∨ opcode.fixed.group = 0xE ∨ opcode.fixed.group = 0xF) →
        opcode.shape = .noOperand ∨ opcode.shape = .register := by decide
  obtain hshape | hshape := hall opcode hmem hne hgroup
  · simp [hshape, Shape.IsFree, Shape.slots]
  · simp [hshape, Shape.IsFree, Shape.slots, Slot.Occupies, Slot.low, Slot.width]
    omega

/-- A word that carries numbers for an operation belongs to the group of the operation. -/
theorem Carries.group_eq (hmem : opcode ∈ table) (hne : opcode.mnemonic ≠ .noop) {word : Word}
    {numbers : List Nat} (hcarries : opcode.Carries word numbers) :
    (Fields.ofWord word).group = opcode.fixed.group := by
  obtain ⟨hword, -⟩ := Fields.toNat_ofWord word
  obtain ⟨htemplate, -⟩ := Fields.toNat_ofWord opcode.template
  have hhigh : word.toNat / 2 ^ 12 = opcode.template.toNat / 2 ^ 12 :=
    div_eq_of_testBit_eq fun bit hbit => hcarries.fixed_eq bit (isFree_of_group hmem hne hbit)
  apply UInt8.toNat.inj
  rw [hword, fixed, htemplate]
  exact hhigh

/-- A word that carries numbers for an operation has the selector of the operation. -/
theorem Carries.selector_eq (hmem : opcode ∈ table) (hne : opcode.mnemonic ≠ .noop) {word : Word}
    {numbers : List Nat} (hcarries : opcode.Carries word numbers) :
    selector (.ofWord word) = selector opcode.fixed := by
  obtain ⟨-, -, -, hwordNibble, hwordByte, -⟩ := Fields.toNat_ofWord word
  obtain ⟨-, -, -, hnibble, hbyte, -⟩ := Fields.toNat_ofWord opcode.template
  unfold selector
  rw [hcarries.group_eq hmem hne]
  split
  · next hgroup =>
    have hlow : word.toNat % 2 ^ 4 = opcode.template.toNat % 2 ^ 4 :=
      mod_eq_of_testBit_eq fun bit hbit =>
        hcarries.fixed_eq bit (isFree_of_nibble hmem hgroup hbit)
    apply UInt8.toNat.inj
    rw [hwordNibble, fixed, hnibble]
    exact hlow
  split
  · next hgroup =>
    have hlow : word.toNat % 2 ^ 8 = opcode.template.toNat % 2 ^ 8 :=
      mod_eq_of_testBit_eq fun bit hbit =>
        hcarries.fixed_eq bit (isFree_of_byte hmem hne hgroup hbit)
    apply UInt8.toNat.inj
    rw [hwordByte, fixed, hbyte]
    exact hlow
  · rfl

/-- A word that carries numbers for an operation is read as that operation. -/
theorem Carries.ofFields?_eq (hmem : opcode ∈ table) (hne : opcode.mnemonic ≠ .noop) {word : Word}
    {numbers : List Nat} (hcarries : opcode.Carries word numbers) :
    ofFields? (.ofWord word) = some opcode := by
  have hall : ∀ opcode ∈ table, opcode.mnemonic ≠ .noop → ofFields? opcode.fixed = some opcode := by
    decide
  rw [← hall opcode hmem hne]
  simp only [ofFields?, hcarries.group_eq hmem hne, hcarries.selector_eq hmem hne]

end Opcode

/-- A token is a number, or a register with that number. -/
def Token.Kind.StandsFor (kind : Token.Kind) (number : Nat) : Prop :=
  kind = .operand (.integer number) ∨ kind = .operand (.register number)

/-- The number of a token is the one it stands for. -/
theorem Token.Kind.standsFor_iff {kind : Token.Kind} {number : Nat} :
    kind.StandsFor number ↔ kind.operand?.bind (·.value?) = some number := by
  unfold StandsFor
  constructor
  · rintro (rfl | rfl) <;> rfl
  · intro hnumber
    obtain ⟨operand, hoperand, hvalue⟩ := Option.bind_eq_some_iff.mp hnumber
    cases kind with
    | operand =>
      cases hoperand
      cases operand with
      | integer | register =>
        cases hvalue
        simp
      | label => cases hvalue
    | instruction | data | eof => cases hoperand

namespace Slot

/-- Numbers that fit fill their slots as operands. -/
theorem fill_holding {slots : List Slot} {numbers : List Nat}
    (hfits : List.Forall₂ (fun slot number => number ≤ slot.max) slots numbers) :
    Fill slots (List.zipWith holding slots numbers) numbers := by
  induction hfits with
  | nil => exact .nil
  | cons hfits _ ih => exact .cons (takes_iff.mpr ⟨rfl, hfits⟩) ih

/-- Operands that fill slots stand for their numbers. -/
theorem Fill.standsFor {slots : List Slot} {operands : List Operand} {numbers : List Nat}
    (hfill : Fill slots operands numbers) :
    List.Forall₂ Token.Kind.StandsFor (operands.map .operand) numbers := by
  induction hfill with
  | nil => exact .nil
  | cons htakes _ ih =>
    refine .cons ?_ ih
    cases htakes with
    | register => exact .inr rfl
    | integer => exact .inl rfl

end Slot

/-- The operands that a shape keeps of some values: the low bits of each, as its slot holds them. -/
def Shape.kept (shape : Shape) (values : List Word) : List Operand :=
  List.zipWith Slot.holding shape.slots (shape.lowBits (values.map (·.toNat)))

/-- Cutting numbers to words first does not change their low bits. -/
theorem Shape.lowBits_toUInt16 (shape : Shape) (numbers : List Nat) :
    shape.lowBits ((numbers.map (·.toUInt16)).map (·.toNat)) = shape.lowBits numbers := by
  have hcut : ∀ (slot : Slot) (number : Nat),
      number.toUInt16.toNat &&& slot.max = number &&& slot.max := by
    intro slot number
    have hdvd : slot.max + 1 ∣ 2 ^ 16 := by cases slot <;> decide
    rw [Slot.and_max, Slot.and_max, Nat.toUInt16_eq, UInt16.toNat_ofNat',
      Nat.mod_mod_of_dvd _ hdvd]
  simp only [lowBits, List.zipWith_map_right, hcut]

namespace Instruction

/-- An instruction goes back to the word that its form makes of the numbers it has as operands. -/
theorem encode?_eq_some_iff {instruction : Instruction} {word : Word} :
    instruction.encode? = some word ↔
      ∃ numbers, List.Forall₂ Token.Kind.StandsFor instruction.operands numbers ∧
        Opcode.compose? instruction.mnemonic instruction.shape (numbers.map (·.toUInt16)) =
          some word := by
  rw [encode?, Option.bind_eq_bind, Option.bind_eq_some_iff]
  simp only [mapM_eq_some_iff, ← Token.Kind.standsFor_iff]

/-- An instruction goes back to a word exactly if the table has its form, with as many operands,
and all of them are numbers. -/
theorem exists_encode?_iff {instruction : Instruction} :
    (∃ word, instruction.encode? = some word) ↔
      Opcode.InTable instruction.mnemonic instruction.shape ∧
        instruction.operands.length = instruction.shape.arity ∧
          ∀ kind ∈ instruction.operands, ∃ number, Token.Kind.StandsFor kind number := by
  rw [← exists_forall₂_iff]
  simp only [encode?_eq_some_iff]
  constructor
  · rintro ⟨word, numbers, hnumbers, hword⟩
    obtain ⟨hform, hcount⟩ := Opcode.exists_compose?_iff.mp ⟨word, hword⟩
    rw [List.length_map, ← hnumbers.length_eq] at hcount
    exact ⟨hform, hcount, numbers, hnumbers⟩
  · rintro ⟨hform, hcount, numbers, hnumbers⟩
    rw [hnumbers.length_eq, ← List.length_map (·.toUInt16)] at hcount
    obtain ⟨word, hword⟩ := Opcode.exists_compose?_iff.mpr ⟨hform, hcount⟩
    exact ⟨word, numbers, hnumbers, hword⟩

end Instruction

namespace Opcode

/-- The word that a form makes of values is the one it makes of their low bits as operands. -/
theorem encodes_of_compose? {opcode : Opcode} (hmem : opcode ∈ table) {values : List Word}
    {word : Word} (hword : compose? opcode.mnemonic opcode.shape values = some word) :
    opcode.Encodes (opcode.shape.kept values) word := by
  have hcount := (exists_compose?_iff.mp ⟨word, hword⟩).2
  rw [← List.length_map (·.toNat)] at hcount
  exact ⟨_, Slot.fill_holding (Shape.lowBits_fit hcount), toNat_of_compose? hmem hword⟩

/-- An instruction with the operands of which a form makes a word goes back to this word. -/
theorem Encodes.encode?_eq {opcode : Opcode} (hmem : opcode ∈ table) {operands : List Operand}
    {word : Word} (hencodes : opcode.Encodes operands word) (raw : Word) :
    Instruction.encode? ⟨raw, opcode.mnemonic, opcode.shape, operands.map .operand⟩ =
      some word := by
  obtain ⟨numbers, hfill, hnumber⟩ := hencodes
  obtain ⟨other, hother, hencodes⟩ := word?_of_fill (isClear_of_mem_table hmem) hfill
  obtain rfl : other = word := hencodes.unique ⟨numbers, hfill, hnumber⟩
  refine Instruction.encode?_eq_some_iff.mpr ⟨numbers, hfill.standsFor, ?_⟩
  rw [compose?, lookup?_eq_some_iff.mpr ⟨hmem, rfl, rfl⟩, Option.bind_some, hother]

/-- A word that carries numbers for an operation is read as that operation, strictly or not. -/
theorem Carries.decode_eq {opcode : Opcode} (hmem : opcode ∈ table)
    (hne : opcode.mnemonic ≠ .noop) {word : Word} {numbers : List Nat}
    (hcarries : opcode.Carries word numbers) :
    Instruction.decode word = .ok (opcode.instruction word) ∧
      Instruction.ofWord word = opcode.instruction word := by
  simp only [Instruction.decode, Instruction.ofWord, hcarries.ofFields?_eq hmem hne, and_self]

/-- The form of an instruction makes a word of as many values as it has operands. Such a word
holds the low bits of the values as operands; if it is an operation, then it is named as that
operation, is read as that form with these operands and goes back to itself. Whatever an
instruction was read from, it goes back to a word exactly if its form is in the table and takes
its operands as numbers, and the word carries the low bits of these. The form that any word is
read as is the one that the operation which the word names has in its group. -/
theorem compose?_inverts_decode :
    (∀ opcode ∈ table, ∀ values : List Word,
      ((∃ word, compose? opcode.mnemonic opcode.shape values = some word) ↔
        values.length = opcode.shape.arity) ∧
      ∀ word, compose? opcode.mnemonic opcode.shape values = some word →
        opcode.shape.operands word = opcode.shape.kept values ∧
        (opcode.mnemonic ≠ .noop →
          Mnemonic.ofFields? (.ofWord word) = some opcode.mnemonic ∧
          inGroup? opcode.mnemonic (.ofWord word) = some opcode ∧
          ∃ instruction, Instruction.decode word = .ok instruction ∧
            Instruction.ofWord word = instruction ∧
            instruction.mnemonic = opcode.mnemonic ∧ instruction.shape = opcode.shape ∧
            instruction.operands = (opcode.shape.kept values).map .operand ∧
            instruction.encode? = some word)) ∧
    (∀ instruction : Instruction,
      ((∃ word, instruction.encode? = some word) ↔
        InTable instruction.mnemonic instruction.shape ∧
          instruction.operands.length = instruction.shape.arity ∧
          ∀ kind ∈ instruction.operands, ∃ number, Token.Kind.StandsFor kind number) ∧
      ∀ opcode ∈ table, opcode.mnemonic = instruction.mnemonic →
        opcode.shape = instruction.shape → ∀ word, instruction.encode? = some word →
          ∃ numbers, List.Forall₂ Token.Kind.StandsFor instruction.operands numbers ∧
            opcode.Carries word (opcode.shape.lowBits numbers)) ∧
    ∀ fields, ofFields? fields = (Mnemonic.ofFields? fields).bind (inGroup? · fields) := by
  refine ⟨?_, ?_, ofFields?_eq⟩
  · intro opcode hmem values
    refine ⟨?_, fun word hword => ?_⟩
    · rw [exists_compose?_iff]
      exact and_iff_right ⟨opcode, hmem, rfl, rfl⟩
    · have hcarries := carries_of_compose? hmem hword
      have hkept : opcode.shape.operands word = opcode.shape.kept values := hcarries.operands_eq
      refine ⟨hkept, fun hne => ?_⟩
      obtain ⟨hnamed, hform⟩ := named_of_ofFields? (hcarries.ofFields?_eq hmem hne)
      obtain ⟨hdecode, hlenient⟩ := hcarries.decode_eq hmem hne
      have hback := (encodes_of_compose? hmem hword).encode?_eq hmem word
      rw [← hkept] at hback ⊢
      exact ⟨hnamed, hform, opcode.instruction word, hdecode, hlenient, rfl, rfl, rfl, hback⟩
  · intro instruction
    refine ⟨Instruction.exists_encode?_iff, ?_⟩
    intro opcode hmem hmnemonic hshape word hencode
    obtain ⟨numbers, hnumbers, hword⟩ := Instruction.encode?_eq_some_iff.mp hencode
    rw [← hmnemonic, ← hshape] at hword
    have hcarries := carries_of_compose? hmem hword
    rw [Shape.lowBits_toUInt16] at hcarries
    exact ⟨numbers, hnumbers, hcarries⟩

/-- A move made of values that are too wide is read as a move of the registers in their low bits,
and goes back to itself. An instruction with a label as operand goes back to no word. -/
theorem compose?_inverts_decode_move :
    (∃ word, compose? .mov .registerRegister [0x12, 0x345] = some word ∧ word = 0x8250 ∧
      ∃ instruction, Instruction.decode word = .ok instruction ∧
        instruction.operands = [.operand (.register 2), .operand (.register 5)] ∧
        instruction.encode? = some word) ∧
    ¬∃ word, Instruction.encode? ⟨0x8250, .mov, .registerRegister,
      [.operand (.register 2), .operand (.label "V5")]⟩ = some word := by
  constructor
  · have hmem : (⟨.mov, .registerRegister, 0x8000⟩ : Opcode) ∈ table := by decide
    have hword : compose? .mov .registerRegister [0x12, 0x345] = some 0x8250 := by rfl
    have hread := ((compose?_inverts_decode.1 _ hmem _).2 _ hword).2 (by decide)
    obtain ⟨-, -, instruction, hdecode, -, -, -, hoperands, hencode⟩ := hread
    exact ⟨_, hword, rfl, instruction, hdecode, hoperands, hencode⟩
  · intro hencode
    obtain ⟨-, -, hnumbers⟩ := (compose?_inverts_decode.2.1 _).1.mp hencode
    obtain ⟨number, hlabel | hlabel⟩ := hnumbers (.operand (.label "V5")) (by simp)
    · cases hlabel
    · cases hlabel

end Opcode

end ChipEight
