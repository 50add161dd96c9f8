import ChipEight.Mnemonic
import ChipEight.Shape

/-!
# The instruction table

One row for each form of each operation: mnemonic, operand shape, and the word with
every operand bit clear. Classifying a word, listing the forms of a mnemonic and
building a word from operand values all read this table.
-/

namespace ChipEight

/-- A form of an operation. -/
structure Opcode where
  mnemonic : Mnemonic
  shape : Shape
  /-- The word with every operand bit clear. -/
  template : Word
  deriving DecidableEq, Repr

namespace Opcode

/-- A word that is no instruction, kept as its own operand. -/
def noop : Opcode :=
  ⟨.noop, .wholeWord, 0x0000⟩

/-- Every form of every operation. -/
def table : List Opcode :=
  [⟨.cls, .noOperand, 0x00E0⟩,
   ⟨.ret, .noOperand, 0x00EE⟩,
   ⟨.jmp, .address, 0x1000⟩,
   ⟨.jsr, .address, 0x2000⟩,
   ⟨.skeq, .registerByte, 0x3000⟩,
   ⟨.skne, .registerByte, 0x4000⟩,
   ⟨.skeq, .registerRegister, 0x5000⟩,
   ⟨.mov, .registerByte, 0x6000⟩,
   ⟨.add, .registerByte, 0x7000⟩,
   ⟨.mov, .registerRegister, 0x8000⟩,
   ⟨.or, .registerRegister, 0x8001⟩,
   ⟨.and, .registerRegister, 0x8002⟩,
   ⟨.xor, .registerRegister, 0x8003⟩,
   ⟨.add, .registerRegister, 0x8004⟩,
   ⟨.sub, .registerRegister, 0x8005⟩,
   ⟨.shr, .register, 0x8006⟩,
   ⟨.rsb, .registerRegister, 0x8007⟩,
   ⟨.shl, .register, 0x800E⟩,
   ⟨.skne, .registerRegister, 0x9000⟩,
   ⟨.mvi, .address, 0xA000⟩,
   ⟨.jmi, .address, 0xB000⟩,
   ⟨.rand, .registerByte, 0xC000⟩,
   ⟨.draw, .registerRegisterNibble, 0xD000⟩,
   ⟨.skpr, .register, 0xE09E⟩,
   ⟨.skup, .register, 0xE0A1⟩,
   ⟨.gdel, .register, 0xF007⟩,
   ⟨.key, .register, 0xF00A⟩,
   ⟨.sdel, .register, 0xF015⟩,
   ⟨.ssnd, .register, 0xF018⟩,
   ⟨.adi, .register, 0xF01E⟩,
   ⟨.font, .register, 0xF029⟩,
   ⟨.bcd, .register, 0xF033⟩,
   ⟨.str, .register, 0xF055⟩,
   ⟨.ldr, .register, 0xF065⟩,
   noop]

/-- The fields of the template. -/
def fixed (opcode : Opcode) : Fields :=
  .ofWord opcode.template

/-- The form of a mnemonic with a given shape. -/
def lookup? (mnemonic : Mnemonic) (shape : Shape) : Option Opcode :=
  table.find? fun opcode => opcode.mnemonic == mnemonic && opcode.shape == shape

/-- The form of a mnemonic in the operation group of some fields. A word that is no
instruction has one form in every group. -/
def inGroup? (mnemonic : Mnemonic) (fields : Fields) : Option Opcode :=
  if mnemonic = .noop then lookup? .noop .wholeWord
  else table.find? fun opcode =>
    opcode.mnemonic == mnemonic && opcode.fixed.group == fields.group

/-- The part of a word that, beside its group, tells the operation: the low nibble in
group 8, the low byte in groups 0, E and F, and nothing in the other groups. -/
def selector (fields : Fields) : UInt8 :=
  if fields.group = 0x8 then fields.n
  else if fields.group = 0x0 ∨ fields.group = 0xE ∨ fields.group = 0xF then fields.kk
  else 0

/-- The form that some fields belong to; operand bits the form does not use are free. -/
def ofFields? (fields : Fields) : Option Opcode :=
  table.find? fun opcode =>
    opcode.mnemonic != .noop && opcode.fixed.group == fields.group
      && selector opcode.fixed == selector fields

/-- The word of a form with operand values in its slots, each cut to its slot. There
is none unless the number of values fits the shape. -/
def word? (opcode : Opcode) (values : List Word) : Option Word :=
  if values.length = opcode.shape.arity then
    let written := (opcode.shape.slots.zip values).foldl
      (fun fields (slot, value) => slot.write (value &&& slot.mask) fields) opcode.fixed
    some (written.pack opcode.shape.fields)
  else none

/-- The word of a mnemonic and shape with the given operand values, if the table has
such a form. -/
def compose? (mnemonic : Mnemonic) (shape : Shape) (values : List Word) : Option Word :=
  (lookup? mnemonic shape).bind (·.word? values)

end Opcode

/-- The shapes a mnemonic is written in, in table order. -/
def Mnemonic.shapes (mnemonic : Mnemonic) : List Shape :=
  (Opcode.table.filter (·.mnemonic == mnemonic)).map (·.shape)

end ChipEight
