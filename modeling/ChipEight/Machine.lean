/-!
# The machine

The sizes that assembler and disassembler agree on. Programs are loaded above the
area that belongs to the interpreter, and instructions are two bytes wide.
-/

namespace ChipEight

/-- A big-endian instruction word. -/
abbrev Word := UInt16

/-- The byte of a word that is stored first. -/
def Word.high (word : Word) : UInt8 :=
  (word >>> 8).toUInt8

/-- The byte of a word that is stored second. -/
def Word.low (word : Word) : UInt8 :=
  word.toUInt8

/-- The word stored as two bytes. -/
def Word.ofBytes (high low : UInt8) : Word :=
  (high.toUInt16 <<< 8) ||| low.toUInt16

namespace Machine

/-- The address of the first byte of a program. -/
def loadAddress : Nat := 0x200

/-- The number of addressable bytes. -/
def memorySize : Nat := 0x1000

/-- The number of return addresses the machine can hold. -/
def stackDepth : Nat := 16

/-- The number of bytes of an instruction. -/
def instructionWidth : Nat := 2

/-- The number of bytes a program may occupy. -/
def programLimit : Nat := memorySize - loadAddress

/-- Numbers in source text, and addresses computed from them, have 32 bits. -/
def numberBound : Nat := 0x100000000

/-- A sum of addresses, which keeps its lowest 32 bits. -/
def wrap (address : Nat) : Nat :=
  address % numberBound

/-- A sum that has 32 bits is kept. -/
theorem wrap_of_lt {address : Nat} (hlt : address < numberBound) : wrap address = address :=
  Nat.mod_eq_of_lt hlt

/-- Every sum has 32 bits. -/
theorem wrap_lt (address : Nat) : wrap address < numberBound :=
  Nat.mod_lt address (by decide)

/-- A sum does not grow when it wraps. -/
theorem wrap_le (address : Nat) : wrap address ≤ address :=
  Nat.mod_le address numberBound

end Machine

end ChipEight
