import ChipEight.Instruction
import ChipEight.Proofs.Assembly.Clauses
import ChipEight.Proofs.Assembly.Resolution

/-!
# How words are written

Every word is written as a form with operands: the form it belongs to if its operands give
back the word, and otherwise the form that keeps the word as its own operand. A branch may
be written with a label that stands for its target. In each case the form admits the
operands and makes the word of them.
-/

namespace ChipEight

namespace Slot

/-- A slot takes the operand that a word holds in it. -/
theorem takes_operand (slot : Slot) (word : Word) :
    slot.Takes (slot.operand word) (slot.read word (.ofWord word)).toNat := by
  have hfits : (slot.read word (.ofWord word)).toNat ≤ slot.max := by
    rw [toNat_read]
    exact Nat.le_of_lt_succ (Nat.mod_lt _ (Nat.succ_pos _))
  unfold operand
  cases hkind : slot.isRegister
  · exact .integer hkind hfits
  · exact .register hkind hfits

/-- Slots take the operands that a word holds in them. -/
theorem fill_operands (slots : List Slot) (word : Word) :
    Fill slots (slots.map (·.operand word))
      (slots.map fun slot => (slot.read word (.ofWord word)).toNat) := by
  induction slots with
  | nil => exact .nil
  | cons slot slots ih => exact .cons (slot.takes_operand word) ih

/-- The operands that slots take stand for numbers. -/
theorem Fill.mapM_value? {slots : List Slot} {operands : List Operand} {numbers : List Nat}
    (hfill : Fill slots operands numbers) :
    ((operands.map Token.Kind.operand).mapM fun kind => kind.operand?.bind (·.value?)) =
      some numbers := by
  induction hfill with
  | nil => rfl
  | @cons slot operand number _ _ _ htakes _ ih =>
    have hvalue : operand.value? = some number := by
      cases htakes <;> rfl
    rw [List.map_cons, List.mapM_cons, ih]
    simp [Token.Kind.operand?, hvalue]

end Slot

namespace Opcode

/-- The form that a word is read as; a word of no form is its own operand. -/
def ofWord (word : Word) : Opcode :=
  (ofFields? (.ofWord word)).getD noop

/-- Every word is read as a form of the table. -/
theorem ofWord_mem_table (word : Word) : ofWord word ∈ table := by
  unfold ofWord
  cases hfound : ofFields? (.ofWord word) with
  | none => exact (by decide : noop ∈ table)
  | some opcode => exact List.mem_of_find?_eq_some hfound

/-- Reading a word leniently reads it as its form. -/
theorem instruction_ofWord (word : Word) :
    Instruction.ofWord word = (ofWord word).instruction word := by
  unfold Instruction.ofWord ofWord
  cases ofFields? (.ofWord word) <;> rfl

/-- An instruction keeps the word it was read from. -/
theorem raw_ofWord (word : Word) : (Instruction.ofWord word).raw = word := by
  rw [instruction_ofWord]
  rfl

/-- A word is read with the mnemonic of its form. -/
theorem mnemonic_ofWord (word : Word) :
    (Instruction.ofWord word).mnemonic = (ofWord word).mnemonic := by
  rw [instruction_ofWord]
  rfl

variable {opcode : Opcode}

/-- A form makes some word of the operands that a word holds in its slots. -/
theorem exists_encode? (hmem : opcode ∈ table) (word : Word) :
    ∃ other, (opcode.instruction word).encode? = some other ∧
      opcode.Encodes (opcode.shape.operands word) other := by
  have hfill := Slot.fill_operands opcode.shape.slots word
  obtain ⟨other, hother, hencodes⟩ := word?_of_fill (isClear_of_mem_table hmem) hfill
  have hlookup : lookup? opcode.mnemonic opcode.shape = some opcode :=
    lookup?_eq_some_iff.mpr ⟨hmem, rfl, rfl⟩
  refine ⟨other, ?_, hencodes⟩
  simp only [Instruction.encode?, instruction, Shape.operands, hfill.mapM_value?, compose?,
    hlookup, Option.bind_eq_bind, Option.bind_some, hother]

/-- A form that is faithful to a word makes it of the operands it holds. -/
theorem encodes_of_isFaithful (hmem : opcode ∈ table) {word : Word}
    (hfaithful : (opcode.instruction word).isFaithful = true) :
    opcode.Encodes (opcode.shape.operands word) word := by
  obtain ⟨other, hother, hencodes⟩ := exists_encode? hmem word
  rw [Instruction.isFaithful, hother, beq_iff_eq, Option.some.injEq] at hfaithful
  obtain rfl : other = word := hfaithful
  exact hencodes

/-- Every word is its own operand. -/
theorem noop_encodes (word : Word) : noop.Encodes [.integer word.toNat] word := by
  have hfits : word.toNat ≤ Slot.word.max := by
    have hlt := word.toNat_lt
    have hmax : Slot.word.max = 65535 := by decide
    omega
  refine ⟨[word.toNat], .cons (.integer rfl hfits) .nil, ?_⟩
  simp [noop, Shape.contribution, Shape.slots, Slot.weight]

/-- The form of a word admits the operands that the word holds. -/
theorem admits_operands (hmem : opcode ∈ table) (word : Word) :
    opcode.Admits (opcode.shape.operands word) where
  mem_table := hmem
  length_eq := by rw [Shape.operands, List.length_map, Shape.arity]
  second := by
    have hall : ∀ opcode ∈ table, opcode.mnemonic ∈ [.skeq, .skne, .mov, .add] →
        opcode.shape = .registerByte ∨ opcode.shape = .registerRegister := by decide
    intro htwo
    rcases hall opcode hmem htwo with hshape | hshape <;>
      simp [hshape, Shape.operands, Shape.slots, Slot.operand, Slot.isRegister]

/-- A branch has one form, whose operand is its target. -/
theorem shape_of_isBranch (hmem : opcode ∈ table) (hbranch : opcode.mnemonic.isBranch = true) :
    opcode.shape = .address ∧ opcode.mnemonic ∉ [.skeq, .skne, .mov, .add] := by
  have hall : ∀ opcode ∈ table, opcode.mnemonic.isBranch = true →
      opcode.shape = .address ∧ opcode.mnemonic ∉ [.skeq, .skne, .mov, .add] := by
    decide
  exact hall opcode hmem hbranch

/-- The form and the operands as which a word is written. A label replaces the operands. -/
def listed (word : Word) (label : Option String) : Opcode × List Operand :=
  if (Instruction.ofWord word).isFaithful then
    (ofWord word, match label with
      | some name => [.label name]
      | none => (ofWord word).shape.operands word)
  else (noop, [.integer word.toNat])

/-- The text of a word shows the form and the operands as which it is written. -/
theorem parts_ofWord (word : Word) (label : Option String) :
    (Instruction.ofWord word).parts label =
      ((listed word label).1.mnemonic.text,
        ", ".intercalate ((listed word label).2.map Operand.text)) := by
  unfold Instruction.parts listed
  split
  · rw [instruction_ofWord]
    cases label with
    | none => simp [instruction, Function.comp_def, Token.Kind.text]
    | some name => simp [instruction]
  · rw [instruction_ofWord]
    simp [instruction, noop]

variable {word : Word} {label : Option String}

/-- Every word is written as a form of the table. -/
theorem listed_mem_table : (listed word label).1 ∈ table := by
  unfold listed
  split
  · exact ofWord_mem_table word
  · exact (by decide : noop ∈ table)

/-- The form as which a word is written admits the operands, if only branches get labels. -/
theorem admits_listed (hlabel : ∀ name ∈ label, (ofWord word).mnemonic.isBranch = true) :
    (listed word label).1.Admits (listed word label).2 := by
  unfold listed
  split
  · cases label with
    | none => exact admits_operands (ofWord_mem_table word) word
    | some name =>
      obtain ⟨hshape, hone⟩ := shape_of_isBranch (ofWord_mem_table word) (hlabel name rfl)
      refine ⟨ofWord_mem_table word, ?_, fun htwo => absurd htwo hone⟩
      rw [hshape]
      rfl
  · have hone : noop.mnemonic ∉ [.skeq, .skne, .mov, .add] := by decide
    exact ⟨(by decide : noop ∈ table), rfl, fun htwo => absurd htwo hone⟩

/-- The form as which a word is written makes the word of the operands, if only branches get
labels and labels have the addresses of their targets. -/
theorem encodes_listed {address? : String → Option Nat}
    (hlabel : ∀ name ∈ label, (ofWord word).mnemonic.isBranch = true ∧
      address? name = some (Instruction.ofWord word).target) :
    (listed word label).1.Encodes
      ((listed word label).2.map (Operand.resolved address?)) word := by
  have hnumbers : ∀ opcode : Opcode,
      (opcode.shape.operands word).map (Operand.resolved address?) =
        opcode.shape.operands word := by
    intro opcode
    rw [Shape.operands, List.map_map]
    refine List.map_congr_left fun slot _ => ?_
    rw [Function.comp_apply, Slot.operand]
    cases slot.isRegister <;> rfl
  unfold listed
  split
  · next hfaithful =>
    rw [instruction_ofWord] at hfaithful
    have hencodes := encodes_of_isFaithful (ofWord_mem_table word) hfaithful
    cases label with
    | none => rwa [hnumbers]
    | some name =>
      obtain ⟨hbranch, haddress⟩ := hlabel name rfl
      rw [instruction_ofWord] at haddress
      rw [(shape_of_isBranch (ofWord_mem_table word) hbranch).1] at hencodes
      rw [List.map_singleton, Operand.resolved, haddress]
      exact hencodes
  · exact noop_encodes word

end Opcode

end ChipEight
