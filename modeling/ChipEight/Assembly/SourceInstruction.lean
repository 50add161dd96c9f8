import ChipEight.Assembly.Error
import ChipEight.Opcode

/-!
# Instructions in source text

An instruction as it was written: operands may be labels, which are resolved to
addresses one by one, and nothing is checked against the operand slots before the
instruction is encoded.
-/

namespace ChipEight

/-- The shape that a mnemonic is used in. A mnemonic with two shapes takes registers if
its second operand is one, and a register and a byte otherwise. -/
def Mnemonic.shapeFor? (mnemonic : Mnemonic) (second : Option Token.Kind) : Option Shape :=
  match mnemonic.shapes with
  | [] => none
  | [shape] => some shape
  | _ =>
    match second with
    | some (.operand (.register _)) => some .registerRegister
    | _ => some .registerByte

/-- An instruction as it was written. -/
structure SourceInstruction where
  mnemonic : Mnemonic
  shape : Shape
  operands : List (Located Operand)
  /-- Where the mnemonic stands. -/
  position : Position
  deriving DecidableEq, Repr

namespace SourceInstruction

/-- An instruction before its operands. -/
def bare (mnemonic : Mnemonic) (shape : Shape) (position : Position) : SourceInstruction :=
  ⟨mnemonic, shape, [], position⟩

/-- The token of the mnemonic. -/
def origin (instruction : SourceInstruction) : Token :=
  ⟨.instruction instruction.mnemonic, instruction.position⟩

/-- Appends an operand; any other token is refused. -/
def addOperand (instruction : SourceInstruction) (token : Token) :
    Except AssemblyError SourceInstruction :=
  match token.value with
  | .operand operand =>
    .ok { instruction with operands := instruction.operands ++ [⟨operand, token.position⟩] }
  | other => .error (.invalidOperand .operand other token.position)

/-- Replaces one use of a label by the label's address. -/
def resolve (instruction : SourceInstruction) (index : Nat) (name : String) (address : Nat) :
    Except AssemblyError SourceInstruction :=
  match instruction.operands[index]? with
  | some ⟨.label found, position⟩ =>
    if found = name then
      .ok { instruction with
        operands := instruction.operands.set index ⟨.integer address, position⟩ }
    else .error (.labelMismatch name found)
  | _ => .error (.labelNotFound name index)

/-- The number that an operand stands for, if the slot takes operands of its kind. -/
def slotNumber (slot : Slot) (operand : Located Operand) : Except AssemblyError Nat :=
  match operand.value, slot.isRegister with
  | .register number, true => .ok number
  | .integer value, false => .ok value
  | .label name, false => .error (.unresolvedLabels [name])
  | other, true => .error (.invalidOperand .register (.operand other) operand.position)
  | other, false => .error (.invalidOperand .integerOrLabel (.operand other) operand.position)

/-- The number that an operand puts into a slot, if it fits. -/
def slotValue (mnemonic : Mnemonic) (slot : Slot) (operand : Located Operand) :
    Except AssemblyError Word := do
  let number ← slotNumber slot operand
  if number ≤ slot.max then return number.toUInt16
  else throw (.operandOutOfRange mnemonic number slot.max operand.position)

/-- The word of an instruction. The number of operands is checked first, then each
operand in slot order, and last that the mnemonic has a form of this shape. -/
def encode (instruction : SourceInstruction) : Except AssemblyError Word :=
  if instruction.operands.length ≠ instruction.shape.arity then
    .error (.operandCount instruction.mnemonic instruction.shape.arity
      instruction.operands.length instruction.position)
  else do
    let values ← (instruction.shape.slots.zip instruction.operands).mapM
      fun (slot, operand) => slotValue instruction.mnemonic slot operand
    match Opcode.compose? instruction.mnemonic instruction.shape values with
    | some word => return word
    | none =>
      throw (.unsupportedShape instruction.mnemonic instruction.shape instruction.position)

end SourceInstruction

end ChipEight
