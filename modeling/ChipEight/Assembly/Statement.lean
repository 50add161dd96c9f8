import ChipEight.Assembly.SourceInstruction

/-!
# Statements

A program is a sequence of statements: label definitions, blocks of literal bytes, and
instructions. A statement is read from the tokens alone; how many operands an
instruction takes may depend on whether its second operand is a register.
-/

namespace ChipEight

/-- A statement of a program. -/
inductive Statement
  | label (name : String) (position : Position)
  /-- Literal bytes from an address on. -/
  | data (position : Position) (start : Located Nat) (bytes : List (Located Nat))
  | instruction (instruction : SourceInstruction)
  deriving DecidableEq, Repr

namespace SourceInstruction

/-- Appends a number of operands from the front of some tokens. -/
def complete (instruction : SourceInstruction) :
    Nat → List Token → Except AssemblyError SourceInstruction
  | 0, _ => .ok instruction
  | _ + 1, [] => .error .unexpectedEnd
  | missing + 1, token :: rest =>
    match token.value.operand? with
    | none => .error (.operandCount instruction.mnemonic instruction.shape.arity
        instruction.operands.length instruction.position)
    | some _ => do (← instruction.addOperand token).complete missing rest

end SourceInstruction

namespace Statement

/-- The number that a token is, with its place. -/
def integer? : Token → Option (Located Nat)
  | ⟨.operand (.integer value), position⟩ => some ⟨value, position⟩
  | _ => none

/-- The numbers that some tokens start with. -/
def integers (tokens : List Token) : List (Located Nat) :=
  (tokens.takeWhile fun token => (integer? token).isSome).filterMap integer?

/-- Reads the operands of an instruction. -/
def readInstruction (mnemonic : Mnemonic) (position : Position) (rest : List Token) :
    Except AssemblyError SourceInstruction :=
  match mnemonic.shapeFor? (rest[1]?.map (·.value)) with
  | some shape => (SourceInstruction.bare mnemonic shape position).complete shape.arity rest
  | none => .error (.unexpectedToken (.instruction mnemonic) position)

/-- Reads the statement that starts with a token, together with the number of further
tokens that belong to it. -/
def read (token : Token) (rest : List Token) : Except AssemblyError (Statement × Nat) :=
  match token.value with
  | .instruction mnemonic => do
    let instruction ← readInstruction mnemonic token.position rest
    return (.instruction instruction, instruction.shape.arity)
  | .operand (.label name) => .ok (.label name token.position, 0)
  | .data =>
    match rest with
    | [] => .error .unexpectedEnd
    | address :: rest =>
      match integer? address with
      | none => .error (.expectedDataAddress address.value address.position)
      | some start =>
        let bytes := integers rest
        .ok (.data token.position start bytes, bytes.length + 1)
  | other => .error (.unexpectedToken other token.position)

end Statement

end ChipEight
