/-!
# Mnemonics

The names of the operations. `data` and `noop` are names of the assembly language
only: the first announces literal bytes, the second a word that is no instruction.
-/

namespace ChipEight

/-- The name of an operation. -/
inductive Mnemonic
  | cls | ret | jmp | jsr | jmi | skeq | skne | mov
  | add | or | and | xor | sub | shr | rsb | shl
  | rand | mvi | adi | font | bcd | str | ldr | gdel
  | sdel | ssnd | skpr | skup | key | draw | data | noop
  deriving DecidableEq, Repr

namespace Mnemonic

/-- Every mnemonic once. -/
def all : List Mnemonic :=
  [cls, ret, jmp, jsr, jmi, skeq, skne, mov,
   add, or, and, xor, sub, shr, rsb, shl,
   rand, mvi, adi, font, bcd, str, ldr, gdel,
   sdel, ssnd, skpr, skup, key, draw, data, noop]

/-- The spelling of a mnemonic. -/
def text : Mnemonic → String
  | cls => "CLS"
  | ret => "RET"
  | jmp => "JMP"
  | jsr => "JSR"
  | jmi => "JMI"
  | skeq => "SKEQ"
  | skne => "SKNE"
  | mov => "MOV"
  | add => "ADD"
  | or => "OR"
  | and => "AND"
  | xor => "XOR"
  | sub => "SUB"
  | shr => "SHR"
  | rsb => "RSB"
  | shl => "SHL"
  | rand => "RAND"
  | mvi => "MVI"
  | adi => "ADI"
  | font => "FONT"
  | bcd => "BCD"
  | str => "STR"
  | ldr => "LDR"
  | gdel => "GDEL"
  | sdel => "SDEL"
  | ssnd => "SSND"
  | skpr => "SKPR"
  | skup => "SKUP"
  | key => "KEY"
  | draw => "DRAW"
  | data => "DATA"
  | noop => "NOOP"

/-- The mnemonic with a given spelling; only upper case counts. -/
def ofText? (name : String) : Option Mnemonic :=
  all.find? fun m => m.text == name

/-- Whether the operation always continues at its operand. -/
def isBranch : Mnemonic → Bool
  | jmp | jsr => true
  | _ => false

/-- Whether the operation may leave out the instruction after it. -/
def isSkip : Mnemonic → Bool
  | skeq | skne | skpr | skup => true
  | _ => false

end Mnemonic

end ChipEight
