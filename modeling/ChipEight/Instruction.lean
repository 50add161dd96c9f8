import ChipEight.Opcode
import ChipEight.Token

/-!
# Decoded instructions

`Instruction.decode` reads a word as the form it belongs to and refuses a word of no
form; `Instruction.ofWord` reads such a word as `NOOP` with itself as operand.
`Instruction.encode?` goes back from the operands to a word. The two need not agree on
a word that sets bits its form does not use, and `Instruction.text` then falls back to
the word itself, so that the text always stands for the word it was read from.
-/

namespace ChipEight

/-- The name of the label that stands for an address. -/
def labelFor (address : Nat) : String :=
  "label-0x" ++ Numeral.hex 4 address

/-- Why a word was refused. -/
inductive DecodeError
  /-- The word belongs to no form of any operation. -/
  | unknownOpcode (word : Word)
  deriving DecidableEq, Repr

/-- The wording of a refusal. -/
def DecodeError.message : DecodeError → String
  | .unknownOpcode word =>
    "Opcode has no valid instruction: 0x" ++ Numeral.lowerHex 4 word.toNat

/-- A word read as an operation with its operands. -/
structure Instruction where
  /-- The word itself. -/
  raw : Word
  mnemonic : Mnemonic
  shape : Shape
  operands : List Token.Kind
  deriving DecidableEq, Repr

/-- The operand that a word holds in a slot. -/
def Slot.operand (slot : Slot) (word : Word) : Operand :=
  let value := (slot.read word (.ofWord word)).toNat
  if slot.isRegister then .register value else .integer value

/-- The operands that a word holds in the slots of a shape. -/
def Shape.operands (shape : Shape) (word : Word) : List Operand :=
  shape.slots.map (·.operand word)

/-- A word read as a given form. -/
def Opcode.instruction (opcode : Opcode) (word : Word) : Instruction where
  raw := word
  mnemonic := opcode.mnemonic
  shape := opcode.shape
  operands := (opcode.shape.operands word).map .operand

namespace Instruction

/-- Reads a word as the form it belongs to. -/
def decode (word : Word) : Except DecodeError Instruction :=
  match Opcode.ofFields? (.ofWord word) with
  | some opcode => .ok (opcode.instruction word)
  | none => .error (.unknownOpcode word)

/-- Reads any word; one of no form is its own operand. -/
def ofWord (word : Word) : Instruction :=
  match Opcode.ofFields? (.ofWord word) with
  | some opcode => opcode.instruction word
  | none => Opcode.noop.instruction word

/-- The address in the low twelve bits of the word. -/
def target (instruction : Instruction) : Nat :=
  (Fields.ofWord instruction.raw).nnn.toNat

/-- The name of the label at the target of a branch. -/
def label? (instruction : Instruction) : Option String :=
  if instruction.mnemonic.isBranch then some (labelFor instruction.target) else none

/-- The word with the instruction's operands in its slots, each operand cut to a word
and then to its slot. There is none unless the operands are numbers and registers that
fit a form of the mnemonic. -/
def encode? (instruction : Instruction) : Option Word := do
  let values ← instruction.operands.mapM fun kind => kind.operand?.bind (·.value?)
  Opcode.compose? instruction.mnemonic instruction.shape (values.map (·.toUInt16))

/-- Whether the operands alone give back the word. -/
def isFaithful (instruction : Instruction) : Bool :=
  instruction.encode? == some instruction.raw

/-- The mnemonic and the operands as text. A label replaces the operands. An
instruction whose operands do not give back its word is written as `NOOP`. -/
def parts (instruction : Instruction) (label : Option String) : String × String :=
  if instruction.isFaithful then
    let operands := match label with
      | some name => (Operand.label name).text
      | none => ", ".intercalate (instruction.operands.map (·.text))
    (instruction.mnemonic.text, operands)
  else
    (Mnemonic.noop.text, (Operand.integer instruction.raw.toNat).text)

/-- The instruction as text, without padding. -/
def text (instruction : Instruction) : String :=
  let (mnemonic, operands) := instruction.parts none
  if operands.isEmpty then mnemonic else mnemonic ++ " " ++ operands

end Instruction

end ChipEight
