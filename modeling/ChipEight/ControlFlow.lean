import ChipEight.Instruction

/-!
# Control flow

Where control goes from an instruction. Two addresses matter to an exploration: the
one it follows at once, and the one it comes back to. The indirect jump is taken to
continue at the next instruction, because its target depends on a register. Sums of
addresses wrap around.
-/

namespace ChipEight

/-- How control goes from one address to another. -/
inductive Edge.Kind
  /-- On to the next instruction. -/
  | sequential
  | jump
  | call
  /-- Past the next instruction. -/
  | skip
  deriving DecidableEq, Repr

/-- The name of a kind of edge. -/
def Edge.Kind.name : Edge.Kind → String
  | sequential => "Fallthrough"
  | jump => "Jump"
  | call => "Call"
  | skip => "Skip"

/-- A way for control to go. -/
structure Edge where
  source : Nat
  target : Nat
  kind : Edge.Kind
  deriving DecidableEq, Repr

/-- Where control goes from an instruction, apart from the instruction's address. -/
inductive Flow
  /-- Back to a caller. -/
  | ret
  | jump (target : Nat)
  | call (target : Nat)
  /-- To the next instruction or to the one after it. -/
  | skip
  | sequential
  deriving DecidableEq, Repr

/-- Where control goes from an instruction. -/
def Instruction.flow (instruction : Instruction) : Flow :=
  match instruction.mnemonic with
  | .ret => .ret
  | .jmp => .jump instruction.target
  | .jsr => .call instruction.target
  | mnemonic => if mnemonic.isSkip then .skip else .sequential

namespace Flow

/-- The address that an exploration follows at once. -/
def next? (flow : Flow) (address : Nat) : Option Nat :=
  match flow with
  | ret => none
  | jump target | call target => some target
  | skip => some (Machine.wrap (address + 2 * Machine.instructionWidth))
  | sequential => some (Machine.wrap (address + Machine.instructionWidth))

/-- The address that an exploration comes back to: the place after a call, or the
instruction that may be skipped. -/
def deferred? (flow : Flow) (address : Nat) : Option Nat :=
  match flow with
  | call _ | skip => some (Machine.wrap (address + Machine.instructionWidth))
  | ret | jump _ | sequential => none

/-- The edges from an instruction at an address. A call has no edge to the place it
returns to. -/
def edges (flow : Flow) (address : Nat) : List Edge :=
  let following := Machine.wrap (address + Machine.instructionWidth)
  match flow with
  | ret => []
  | jump target => [⟨address, target, .jump⟩]
  | call target => [⟨address, target, .call⟩]
  | skip => [⟨address, following, .sequential⟩,
      ⟨address, Machine.wrap (address + 2 * Machine.instructionWidth), .skip⟩]
  | sequential => [⟨address, following, .sequential⟩]

/-- The address that the instruction names, which gets a label. -/
def labelled? : Flow → Option Nat
  | jump target | call target => some target
  | ret | skip | sequential => none

end Flow

end ChipEight
