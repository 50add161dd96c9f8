import ChipEight.Assembly.Draft
import ChipEight.Source

/-!
# Assembled programs

From a draft to an image: every instruction is placed at the first address that data
leaves free after the one before it, every use of a label is resolved to the address
of the instruction that the label precedes, and the bytes of the layout are written out.

Instructions are placed at addresses without bounds. `Bounded.assemble` places them in
numbers of 32 bits, and agrees as long as there are fewer than `0x40000000` tokens.
-/

namespace ChipEight

/-- The instructions of a draft as far as they have been placed. -/
structure Placement where
  layout : Layout
  /-- The addresses of the placed instructions in source order. -/
  addresses : Array Nat
  /-- The address after the last placed instruction. -/
  next : Nat

namespace Placement

/-- Nothing placed yet. -/
def start (data : Std.TreeMap Nat UInt8) : Placement :=
  ⟨.ofData data, #[], Machine.loadAddress⟩

/-- Places the next instruction. -/
def add (placement : Placement) (instruction : SourceInstruction) :
    Except AssemblyError Placement :=
  let address := placement.layout.nextFree placement.next
  if placement.layout.collides address then
    .error (.collision instruction.mnemonic address instruction.position)
  else
    .ok {
      layout := placement.layout.place address placement.addresses.size
      addresses := placement.addresses.push address
      next := address + Machine.instructionWidth }

/-- The address of an instruction, or of the place after the last one. -/
def site (placement : Placement) (index : Nat) : Nat :=
  placement.addresses.getD index (placement.layout.nextFree placement.next)

end Placement

namespace Draft

/-- Places every instruction around the data. -/
def place (draft : Draft) : Except AssemblyError Placement :=
  draft.instructions.foldlM Placement.add (.start draft.data)

/-- The address of every label. -/
def symbols (draft : Draft) (placement : Placement) : Std.TreeMap String Nat :=
  draft.labels.map fun _ index => placement.site index

/-- Replaces one use of a label among some instructions. -/
def resolveReference (name : String) (address : Nat) (instructions : Array SourceInstruction)
    (reference : Reference) : Except AssemblyError (Array SourceInstruction) :=
  match instructions[reference.instruction]? with
  | some instruction => do
    let resolved ← instruction.resolve reference.operand name address
    return instructions.setIfInBounds reference.instruction resolved
  | none => .error (.labelNotFound name reference.operand)

/-- Replaces every use of a defined label. -/
def resolve (draft : Draft) (symbols : Std.TreeMap String Nat) :
    Except AssemblyError (Array SourceInstruction) :=
  draft.references.foldlM (fun instructions name uses =>
    match symbols[name]? with
    | some address => uses.foldlM (resolveReference name address) instructions
    | none => .ok instructions) draft.instructions

/-- The labels that are used and not defined, in order. -/
def unresolved (draft : Draft) : List String :=
  draft.references.keys.filter fun name => !draft.labels.contains name

end Draft

/-- A program ready to be loaded. -/
structure Program where
  bytes : Array UInt8
  /-- The labels and their addresses, in the order of the names. -/
  symbols : List (String × Nat)
  deriving DecidableEq, Repr

namespace Program

/-- Assembles a draft. -/
def ofDraft (draft : Draft) : Except AssemblyError Program := do
  let placement ← draft.place
  let symbols := draft.symbols placement
  let instructions ← draft.resolve symbols
  if draft.unresolved ≠ [] then throw (.unresolvedLabels draft.unresolved)
  let bytes ← placement.layout.image instructions
  return ⟨bytes, symbols.toList⟩

/-- Assembles tokens. -/
def ofTokens (tokens : List Token) : Except AssemblyError Program := do
  ofDraft (← Draft.ofTokens tokens)

/-- Why a text is not a program. -/
inductive Error
  | source (error : SourceError)
  | assembly (error : AssemblyError)
  deriving DecidableEq, Repr

/-- The wording of an error. -/
def Error.message : Error → String
  | .source error => error.message
  | .assembly error => error.message

/-- Assembles a text. -/
def ofSource (source : String) : Except Error Program :=
  match tokenize source with
  | .error error => .error (.source error)
  | .ok tokens => (ofTokens tokens).mapError .assembly

end Program

end ChipEight
