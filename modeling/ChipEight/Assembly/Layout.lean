import Std.Data.TreeMap.Lemmas
import ChipEight.Assembly.SourceInstruction

/-!
# Layout of a program in memory

Data bytes lie at addresses of their own, and instructions are packed around them.
The image runs from the load address to the end of whichever reaches further, and
bytes that neither claims are zero.

Addresses and sizes are computed in numbers without bounds. A machine computes them in
numbers of 32 bits: `Bounded.assemble` does so, with every sum and product checked, and
agrees as long as there are fewer than `0x40000000` tokens.
-/

namespace ChipEight

/-- Where the bytes of a program go. -/
structure Layout where
  /-- The data bytes by address. -/
  data : Std.TreeMap Nat UInt8
  /-- The numbers of the placed instructions by the address of their first byte. -/
  code : Std.TreeMap Nat Nat

namespace Layout

/-- A layout in which no instruction has been placed. -/
def ofData (data : Std.TreeMap Nat UInt8) : Layout :=
  ⟨data, ∅⟩

/-- Whether data claims an address. -/
def isData (layout : Layout) (address : Nat) : Bool :=
  layout.data.contains address

/-- The address after the last data byte, or the load address if there is no data. -/
def dataEnd (layout : Layout) : Nat :=
  match layout.data.maxKey? with
  | some address => address + 1
  | none => Machine.loadAddress

/-- Data lies below its end. -/
theorem lt_dataEnd_of_isData {layout : Layout} {address : Nat}
    (hdata : layout.isData address = true) : address < layout.dataEnd := by
  have hmem : address ∈ layout.data := Std.TreeMap.contains_iff_mem.mp hdata
  cases hmax : layout.data.maxKey? with
  | none =>
    have hsome := Std.TreeMap.isSome_maxKey?_of_mem hmem
    simp [hmax] at hsome
  | some last =>
    have hle := (Std.TreeMap.maxKey?_eq_some_iff_mem_and_forall.mp hmax).2 address hmem
    simp only [dataEnd, hmax]
    have := Nat.isLE_compare.mp hle
    omega

/-- The first address at or after a given one that data does not claim. -/
def nextFree (layout : Layout) (address : Nat) : Nat :=
  if hdata : layout.isData address = true then
    have := lt_dataEnd_of_isData hdata
    nextFree layout (address + 1)
  else address
termination_by layout.dataEnd - address

/-- Whether the second byte of an instruction at an address would lie on data. -/
def collides (layout : Layout) (address : Nat) : Bool :=
  layout.isData (address + 1)

/-- Places an instruction, in the stead of any other at the same address. -/
def place (layout : Layout) (address index : Nat) : Layout :=
  { layout with code := layout.code.insert address index }

/-- The number of bytes of the image. Counting suffices because packed instructions
leave no address below their end unclaimed. -/
def size (layout : Layout) : Nat :=
  max (layout.dataEnd - Machine.loadAddress)
    (layout.code.size * Machine.instructionWidth + layout.data.size)

/-- Stores a byte of an image at its address. -/
def storeByte (image : Array UInt8) (address : Nat) (byte : UInt8) : Array UInt8 :=
  image.setIfInBounds (address - Machine.loadAddress) byte

/-- Stores a word of an image at its address. -/
def storeWord (image : Array UInt8) (address : Nat) (word : Word) : Array UInt8 :=
  storeByte (storeByte image address word.high) (address + 1) word.low

/-- The image of a layout: data first, then the words of the placed instructions in
address order. A placed number without an instruction stores nothing. -/
def image (layout : Layout) (instructions : Array SourceInstruction) :
    Except AssemblyError (Array UInt8) :=
  if layout.size > Machine.programLimit then
    .error (.programTooLarge layout.size Machine.programLimit)
  else
    let data := layout.data.foldl storeByte (Array.replicate layout.size 0)
    layout.code.foldlM (fun image address index =>
      match instructions[index]? with
      | some instruction => return storeWord image address (← instruction.encode)
      | none => return image) data

end Layout

end ChipEight
