import ChipEight.Machine

/-!
# Fields of an instruction word

A word is read in several overlapping ways: its four nibbles are the operation group,
two register numbers and a small number, its low byte is a value, and its low twelve
bits are an address. `Fields.ofWord` takes a word apart and `Fields.pack` puts chosen
fields back in their places.
-/

namespace ChipEight

/-- The parts of a word. A part may hold more bits than its place in a word has. -/
structure Fields where
  /-- The high nibble, which names the operation group. -/
  group : UInt8
  /-- The low nibble. -/
  n : UInt8
  /-- The second nibble, a register number. -/
  x : UInt8
  /-- The third nibble, a register number. -/
  y : UInt8
  /-- The low byte. -/
  kk : UInt8
  /-- The low twelve bits. -/
  nnn : Word
  deriving DecidableEq, Repr

/-- The name of one part of a word. -/
inductive Field
  | group
  | n
  | x
  | y
  | kk
  | nnn
  deriving DecidableEq, Repr

/-- The bits that a part puts into a word, cut to the width of its place. -/
def Field.bits (fields : Fields) : Field → Word
  | .group => (fields.group.toUInt16 &&& 0xF) <<< 12
  | .x => (fields.x.toUInt16 &&& 0xF) <<< 8
  | .y => (fields.y.toUInt16 &&& 0xF) <<< 4
  | .n => fields.n.toUInt16 &&& 0xF
  | .kk => fields.kk.toUInt16
  | .nnn => fields.nnn &&& 0xFFF

namespace Fields

/-- Every part of a word. -/
def ofWord (word : Word) : Fields where
  group := (word >>> 12).toUInt8
  x := ((word >>> 8) &&& 0xF).toUInt8
  y := ((word >>> 4) &&& 0xF).toUInt8
  n := (word &&& 0xF).toUInt8
  kk := (word &&& 0xFF).toUInt8
  nnn := word &&& 0xFFF

/-- The word with the selected parts in their places. Where places overlap, a bit is
set if one of the parts sets it. -/
def pack (fields : Fields) (selected : List Field) : Word :=
  selected.foldl (fun word field => word ||| field.bits fields) 0

end Fields

end ChipEight
