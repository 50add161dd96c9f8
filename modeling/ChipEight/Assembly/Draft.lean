import ChipEight.Assembly.Layout
import ChipEight.Assembly.Statement

/-!
# Drafts of a program

A draft collects the statements of a program: its instructions in order, its data
bytes by address, where labels are defined, and where they are used. A faulty
statement is refused when it is added, so that the first fault in source order is the
one reported.
-/

namespace ChipEight

/-- A use of a label. -/
structure Reference where
  /-- The number of the instruction. -/
  instruction : Nat
  /-- The number of the operand. -/
  operand : Nat
  deriving DecidableEq, Repr

/-- The statements of a program so far. -/
structure Draft where
  instructions : Array SourceInstruction
  /-- How many instructions stand before the definition of a label. -/
  labels : Std.TreeMap String Nat
  /-- The uses of each label, the latest first. -/
  references : Std.TreeMap String (List Reference)
  data : Std.TreeMap Nat UInt8

namespace Draft

/-- A draft without statements. -/
def empty : Draft :=
  ⟨#[], ∅, ∅, ∅⟩

/-- Defines a label at the place of the next instruction. -/
def define (draft : Draft) (name : String) (position : Position) : Except AssemblyError Draft :=
  if draft.labels.contains name then .error (.duplicateLabel name position)
  else .ok { draft with labels := draft.labels.insert name draft.instructions.size }

/-- Stores bytes from an address on. -/
def storeBytes (data : Std.TreeMap Nat UInt8) (address : Nat) :
    List (Located Nat) → Except AssemblyError (Std.TreeMap Nat UInt8)
  | [] => .ok data
  | byte :: bytes =>
    if byte.value > 0xFF then .error (.dataOutOfRange byte.value byte.position)
    else if data.contains address then .error (.dataOverlap address byte.position)
    else if address + 1 < Machine.numberBound then
      storeBytes (data.insert address byte.value.toUInt8) (address + 1) bytes
    else .error (.programTooLarge (Machine.numberBound - 1) Machine.programLimit)

/-- Adds a block of literal bytes, of which there is at least one. -/
def addData (draft : Draft) (position : Position) (start : Located Nat)
    (bytes : List (Located Nat)) : Except AssemblyError Draft :=
  if start.value < Machine.loadAddress then
    .error (.dataBelowLoadAddress start.value start.position)
  else if bytes.isEmpty then .error (.emptyData start.value position)
  else do return { draft with data := ← storeBytes draft.data start.value bytes }

/-- The labels among some operands, each with the number of its operand. -/
def labelUses (operands : List (Located Operand)) : List (String × Nat) :=
  operands.zipIdx.filterMap fun (operand, index) =>
    match operand.value with
    | .label name => some (name, index)
    | _ => none

/-- Notes the use of a label by the next instruction. -/
def refer (draft : Draft) (name : String) (operand : Nat) : Draft :=
  let reference : Reference := ⟨draft.instructions.size, operand⟩
  let earlier := draft.references.getD name []
  { draft with references := draft.references.insert name (reference :: earlier) }

/-- Adds an instruction and notes the labels it uses. -/
def addInstruction (draft : Draft) (instruction : SourceInstruction) : Draft :=
  let noted := (labelUses instruction.operands).foldl
    (fun draft (name, operand) => draft.refer name operand) draft
  { noted with instructions := noted.instructions.push instruction }

/-- Adds a statement. -/
def add (draft : Draft) : Statement → Except AssemblyError Draft
  | .label name position => draft.define name position
  | .data position start bytes => draft.addData position start bytes
  | .instruction instruction => .ok (draft.addInstruction instruction)

/-- Adds the statements that some tokens hold, up to the token that marks the end. -/
def extend (draft : Draft) : List Token → Except AssemblyError Draft
  | [] => .error .unexpectedEnd
  | token :: rest =>
    if token.value = .eof then .ok draft
    else
      match Statement.read token rest with
      | .error error => .error error
      | .ok (statement, taken) =>
        match draft.add statement with
        | .error error => .error error
        | .ok next => next.extend (rest.drop taken)
termination_by tokens => tokens.length

/-- The draft that some tokens hold. -/
def ofTokens (tokens : List Token) : Except AssemblyError Draft :=
  empty.extend tokens

end Draft

end ChipEight
