import ChipEight.Fields

/-!
# Operand shapes

A slot is the place of one operand in a word. A shape is the list of slots of an
instruction form together with the fields that make up its words.
-/

namespace ChipEight

/-- The place of one operand in a word. -/
inductive Slot
  | registerX
  | registerY
  | byte
  | address
  | nibble
  /-- The whole word. -/
  | word
  deriving DecidableEq, Repr

namespace Slot

/-- The bits of an operand that the slot keeps. -/
def mask : Slot → Word
  | registerX | registerY | nibble => 0xF
  | byte => 0xFF
  | address => 0xFFF
  | word => 0xFFFF

/-- The largest operand the slot holds. -/
def max (slot : Slot) : Nat :=
  slot.mask.toNat

/-- Whether the slot holds a register number. -/
def isRegister : Slot → Bool
  | registerX | registerY => true
  | _ => false

/-- The value in a slot of a word with the given fields. -/
def read (slot : Slot) (whole : Word) (fields : Fields) : Word :=
  match slot with
  | registerX => fields.x.toUInt16
  | registerY => fields.y.toUInt16
  | byte => fields.kk.toUInt16
  | address => fields.nnn
  | nibble => fields.n.toUInt16
  | word => whole

/-- Replaces the fields of a slot. A byte-wide field takes the low eight bits. -/
def write (slot : Slot) (value : Word) (fields : Fields) : Fields :=
  match slot with
  | registerX => { fields with x := value.toUInt8 }
  | registerY => { fields with y := value.toUInt8 }
  | byte => { fields with kk := value.toUInt8 }
  | address => { fields with nnn := value }
  | nibble => { fields with n := value.toUInt8 }
  | word =>
    { fields with group := ((value &&& 0xF000) >>> 12).toUInt8, nnn := value &&& 0xFFF }

end Slot

/-- The operands an instruction form takes. -/
inductive Shape
  | noOperand
  | address
  | registerByte
  | registerRegister
  | registerRegisterNibble
  | register
  | wholeWord
  deriving DecidableEq, Repr

namespace Shape

/-- The name of a shape as diagnostics spell it. -/
def name : Shape → String
  | noOperand => "NoOperand"
  | address => "Address"
  | registerByte => "RegisterByte"
  | registerRegister => "RegisterRegister"
  | registerRegisterNibble => "RegisterRegisterNibble"
  | register => "Register"
  | wholeWord => "Opaque"

/-- The slots of a shape in operand order. -/
def slots : Shape → List Slot
  | noOperand => []
  | address => [.address]
  | registerByte => [.registerX, .byte]
  | registerRegister => [.registerX, .registerY]
  | registerRegisterNibble => [.registerX, .registerY, .nibble]
  | register => [.registerX]
  | wholeWord => [.word]

/-- The number of operands of a shape. -/
def arity (shape : Shape) : Nat :=
  shape.slots.length

/-- The fields that make up a word of a shape; together they cover every bit once. -/
def fields : Shape → List Field
  | noOperand | registerByte => [.group, .x, .kk]
  | address | wholeWord => [.group, .nnn]
  | registerRegister | registerRegisterNibble | register => [.group, .x, .y, .n]

end Shape

end ChipEight
