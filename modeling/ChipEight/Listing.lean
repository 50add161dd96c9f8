import ChipEight.Exploration

/-!
# Listings

Assembly text for an image. A listing has a line for each item in address order, and
before it a line for the label of its address, if there is one; assembling the lines
gives back the image. A scan lists a window word by word without following control.
-/

namespace ChipEight

namespace Listing

/-- The width of the mnemonic column. -/
def mnemonicWidth : Nat := 6

/-- The width of the operand column. -/
def operandsWidth : Nat := 20

/-- The number of bytes in a line of a dump. -/
def dumpWidth : Nat := 16

/-- A text in a column of at least `width` characters. -/
def column (width : Nat) (text : String) : String :=
  String.ofList (text.toList.rightpad width ' ')

/-- The line of an instruction at an address. A label replaces the operands. -/
def instructionLine (address : Nat) (instruction : Instruction) (label : Option String)
    (comments : Bool) : String :=
  let (mnemonic, operands) := instruction.parts label
  let aligned := column mnemonicWidth mnemonic ++ column operandsWidth operands
  if comments then
    aligned ++ "; addr : " ++ Numeral.hex 1 address ++ "; opcode : " ++
      Numeral.marked 4 instruction.raw.toNat
  else aligned

/-- The line of a literal byte at an address. -/
def dataLine (address : Nat) (byte : UInt8) : String :=
  Token.Kind.data.text ++ "\t" ++ (Operand.integer address).text ++ ", " ++
    (Operand.integer byte.toNat).text

/-- The line that defines a label. -/
def labelLine (name : String) : String :=
  (Operand.label name).text

/-- The label that stands for the operand of an instruction. A branch names its target
only if a listed instruction starts there, as `starts` tells. -/
def operandLabel? (disassembly : Disassembly) (starts : Array Bool)
    (instruction : Instruction) : Option String :=
  let target := instruction.target
  let isListed := Machine.loadAddress ≤ target &&
    starts[target - Machine.loadAddress]? == some true
  if instruction.mnemonic.isBranch && isListed then disassembly.labels[target]? else none

/-- The lines of an item: the label of its address, if any, and the item itself. -/
def itemLines (disassembly : Disassembly) (starts : Array Bool) (comments : Bool)
    (item : Item) : List String :=
  let line := match item with
    | .instruction address instruction =>
      instructionLine address instruction (operandLabel? disassembly starts instruction) comments
    | .data address byte => dataLine address byte
  match disassembly.labels[item.address]? with
  | some name => [labelLine name, line]
  | none => [line]

/-- The lines of a scan: each word of a window, the window's offsets counting from the
start of the bytes. An odd byte at the end is left out. -/
def scanFrom (address : Nat) : List UInt8 → List String
  | high :: low :: rest =>
    let word := Word.ofBytes high low
    ((Instruction.ofWord word).text ++ " - " ++ Numeral.marked 4 word.toNat ++ " ADDR: " ++
      Numeral.hex 1 (Machine.wrap address)) ::
        scanFrom (address + Machine.instructionWidth) rest
  | _ => []

/-- Lists the words between two offsets; without a second one, up to the end. -/
def scan (bytes : Array UInt8) (start : Nat) (stop : Option Nat) : List String :=
  let stop := min (stop.getD bytes.size) bytes.size
  scanFrom (Machine.loadAddress + start) (bytes.extract start stop).toList

/-- Splits bytes into rows; each row but the last has the given width. -/
def rows (width : Nat) (hwidth : 0 < width) (bytes : List UInt8) : List (List UInt8) :=
  if hbytes : bytes = [] then []
  else
    have : 0 < bytes.length := List.length_pos_iff.mpr hbytes
    bytes.take width :: rows width hwidth (bytes.drop width)
termination_by bytes.length

/-- Bytes in hexadecimal, sixteen to a line. -/
def dump (bytes : Array UInt8) : String :=
  let row (bytes : List UInt8) := " ".intercalate (bytes.map fun byte => Numeral.hex 2 byte.toNat)
  "\n".intercalate ((rows dumpWidth (by decide) bytes.toList).map row)

end Listing

namespace Disassembly

/-- The lines of the listing. -/
def lines (disassembly : Disassembly) (comments : Bool) : List String :=
  let starts := disassembly.starts
  disassembly.items.flatMap (Listing.itemLines disassembly starts comments)

/-- The listing as one text. -/
def text (disassembly : Disassembly) (comments : Bool) : String :=
  "\n".intercalate (disassembly.lines comments)

end Disassembly

/-- Explores an image and lists it. -/
def disassemble (bytes : Array UInt8) (options : Options) :
    Except DisassemblyError (List String) := do
  return (← Disassembly.explore bytes options.branchLimit).lines options.comments

end ChipEight
