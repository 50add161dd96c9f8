import Std.Data.TreeMap.Lemmas
import ChipEight.ControlFlow
import ChipEight.Image

/-!
# Disassemblies

What an exploration of an image finds, and the division of the image into items: an
explored instruction takes two bytes, and every other byte before the end is an item of
its own. An explored address inside a listed instruction is not listed.
-/

namespace ChipEight

/-- What an exploration finds. -/
structure Disassembly where
  bytes : Array UInt8
  /-- The explored instructions by address. -/
  instructions : Std.TreeMap Nat Instruction
  /-- The names of the jump and call targets by address. -/
  labels : Std.TreeMap Nat String
  /-- The edges in the order of their discovery. -/
  edges : Array Edge

/-- A unit of an image. -/
inductive Item
  | instruction (address : Nat) (instruction : Instruction)
  | data (address : Nat) (byte : UInt8)
  deriving DecidableEq, Repr

namespace Item

/-- The address of the first byte. -/
def address : Item → Nat
  | instruction address _ | data address _ => address

/-- Whether the item is an instruction. -/
def isInstruction : Item → Bool
  | instruction _ _ => true
  | data _ _ => false

/-- For each byte of the item, whether an instruction starts there. -/
def marks : Item → List Bool
  | instruction _ _ => [true, false]
  | data _ _ => [false]

/-- Divides the bytes from an address on into items. -/
def divide (instructions : Std.TreeMap Nat Instruction) (address : Nat) :
    List UInt8 → List Item
  | [] => []
  | [byte] =>
    match instructions[address]? with
    | some found => [.instruction address found]
    | none => [.data address byte]
  | byte :: second :: rest =>
    match instructions[address]? with
    | some found =>
      .instruction address found ::
        divide instructions (address + Machine.instructionWidth) rest
    | none => .data address byte :: divide instructions (address + 1) (second :: rest)

end Item

/-- The addresses from `start` up to, but not including, `stop`. -/
structure AddressRange where
  start : Nat
  stop : Nat
  deriving DecidableEq, Repr

/-- Puts an address before some ranges, joining it to the first if they touch. -/
def AddressRange.prepend (address : Nat) : List AddressRange → List AddressRange
  | [] => [⟨address, address + 1⟩]
  | range :: ranges =>
    if range.start = address + 1 then ⟨address, range.stop⟩ :: ranges
    else ⟨address, address + 1⟩ :: range :: ranges

namespace Disassembly

/-- The address after the last byte. -/
def stop (disassembly : Disassembly) : Nat :=
  (Image.load disassembly.bytes).stop

/-- The items of the image in address order. -/
def items (disassembly : Disassembly) : List Item :=
  Item.divide disassembly.instructions Machine.loadAddress (Image.load disassembly.bytes).inside

/-- For each byte of the image, whether a listed instruction starts there. -/
def starts (disassembly : Disassembly) : Array Bool :=
  ((disassembly.items.flatMap Item.marks).rightpad disassembly.bytes.size false).toArray

/-- The longest runs of addresses that no listed instruction covers. -/
def dataRanges (disassembly : Disassembly) : List AddressRange :=
  let addresses := (disassembly.items.filter fun item => !item.isInstruction).map (·.address)
  addresses.foldr AddressRange.prepend []

end Disassembly

end ChipEight
