import ChipEight.Disassembly
import ChipEight.Json

/-!
# Reports

A disassembly in a form for other programs: the listed instructions, the labels, the
ranges of data between the instructions, and the edges of the control flow.
-/

namespace ChipEight

/-- An instruction in a report. -/
structure CodeEntry where
  address : Nat
  raw : Word
  text : String
  deriving DecidableEq, Repr

/-- A disassembly in a form for other programs. -/
structure Report where
  /-- The address where exploration starts. -/
  entry : Nat
  /-- The number of bytes of the image. -/
  size : Nat
  code : List CodeEntry
  /-- The labels by address. -/
  labels : List (Nat × String)
  data : List AddressRange
  edges : List Edge
  deriving DecidableEq, Repr

namespace Report

/-- The entry of an item, if it is an instruction. -/
def codeEntry? : Item → Option CodeEntry
  | .instruction address instruction => some ⟨address, instruction.raw, instruction.text⟩
  | .data _ _ => none

/-- The report of a disassembly. -/
def ofDisassembly (disassembly : Disassembly) : Report where
  entry := Machine.loadAddress
  size := disassembly.bytes.size
  code := disassembly.items.filterMap codeEntry?
  labels := disassembly.labels.toList
  data := disassembly.dataRanges
  edges := disassembly.edges.toList

/-- The report as a JSON document. -/
def toJson (report : Report) : Json :=
  let code (entry : CodeEntry) : Json :=
    .object [("addr", .number entry.address), ("raw", .number entry.raw.toNat),
      ("text", .string entry.text)]
  let label (entry : Nat × String) : Json :=
    .object [("addr", .number entry.1), ("name", .string entry.2)]
  let range (range : AddressRange) : Json :=
    .object [("start", .number range.start), ("end", .number range.stop)]
  let edge (edge : Edge) : Json :=
    .object [("from", .number edge.source), ("to", .number edge.target),
      ("kind", .string edge.kind.name)]
  .object [("entry", .number report.entry), ("size", .number report.size),
    ("code", .array (report.code.map code)), ("labels", .array (report.labels.map label)),
    ("data", .array (report.data.map range)), ("edges", .array (report.edges.map edge))]

/-- The written form of a report. -/
def text (report : Report) : String :=
  report.toJson.text

end Report

end ChipEight
