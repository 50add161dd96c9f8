import ChipEight.Machine
import ChipEight.Shape
import ChipEight.Token

/-!
# Assembly errors

Each reason for which a program is refused, with what its report names, and the
wording of the reports.
-/

namespace ChipEight

/-- What an operand was expected to be. -/
inductive Expectation
  | operand
  | register
  | integerOrLabel
  deriving DecidableEq, Repr

namespace Expectation

/-- The wording of an expectation. -/
def text : Expectation → String
  | operand => "an operand"
  | register => "a register"
  | integerOrLabel => "an integer or label"

/-- How a token that disappoints the expectation is shown: by its kind if it is no
operand at all, and by its spelling otherwise. -/
def shown (expectation : Expectation) (found : Token.Kind) : String :=
  match expectation with
  | operand => found.name
  | register | integerOrLabel => found.text

end Expectation

/-- Why a program is refused. -/
inductive AssemblyError
  | duplicateLabel (name : String) (position : Position)
  /-- Labels that are used and defined nowhere. -/
  | unresolvedLabels (names : List String)
  | operandCount (mnemonic : Mnemonic) (expected found : Nat) (position : Position)
  | invalidOperand (expected : Expectation) (found : Token.Kind) (position : Position)
  | operandOutOfRange (mnemonic : Mnemonic) (value max : Nat) (position : Position)
  /-- The second byte of an instruction would lie on data. -/
  | collision (mnemonic : Mnemonic) (address : Nat) (position : Position)
  | dataOverlap (address : Nat) (position : Position)
  | dataBelowLoadAddress (address : Nat) (position : Position)
  | dataOutOfRange (value : Nat) (position : Position)
  | emptyData (address : Nat) (position : Position)
  | expectedDataAddress (found : Token.Kind) (position : Position)
  | programTooLarge (size limit : Nat)
  | unexpectedToken (found : Token.Kind) (position : Position)
  /-- The tokens stop before the one that marks the end. -/
  | unexpectedEnd
  | labelNotFound (name : String) (index : Nat)
  | labelMismatch (expected found : String)
  | unsupportedShape (mnemonic : Mnemonic) (shape : Shape) (position : Position)
  deriving DecidableEq, Repr

/-- The wording of a refusal. -/
def AssemblyError.message : AssemblyError → String
  | duplicateLabel name position =>
    position.heading ++ s!"label `{name}` is already defined"
  | unresolvedLabels names => "unresolved label(s): " ++ ", ".intercalate names
  | operandCount mnemonic expected found position =>
    position.heading ++ s!"{mnemonic.text} takes {expected} operand(s), found {found}"
  | invalidOperand expected found position =>
    position.heading ++ s!"expected {expected.text}, found `{expected.shown found}`"
  | operandOutOfRange mnemonic value max position =>
    position.heading ++ mnemonic.text ++ " operand " ++ Numeral.marked 1 value ++
      " exceeds " ++ Numeral.marked 1 max
  | collision mnemonic address position =>
    position.heading ++ mnemonic.text ++ " at " ++ Numeral.marked 3 address ++
      " overlaps data at " ++ Numeral.marked 3 (address + 1)
  | dataOverlap address position =>
    position.heading ++ "data address " ++ Numeral.marked 3 address ++ " is already in use"
  | dataBelowLoadAddress address position =>
    position.heading ++ "data address " ++ Numeral.marked 3 address ++
      " is below the load address"
  | dataOutOfRange value position =>
    position.heading ++ "data byte " ++ Numeral.marked 1 value ++ " exceeds 0xFF"
  | emptyData address position =>
    position.heading ++ "DATA at " ++ Numeral.marked 3 address ++ " has no bytes"
  | expectedDataAddress found position =>
    position.heading ++ s!"DATA must start with an address, found `{found.text}`"
  | programTooLarge size limit =>
    "program is " ++ Numeral.marked 1 size ++ " bytes, at most " ++ Numeral.marked 1 limit ++
      " fit in memory"
  | unexpectedToken found position =>
    position.heading ++ s!"unexpected {found.name} token `{found.text}`"
  | unexpectedEnd => "token stream ended without EOF"
  | labelNotFound name index => s!"operand {index} is not a reference to `{name}`"
  | labelMismatch expected found => s!"expected reference to `{expected}`, found `{found}`"
  | unsupportedShape mnemonic shape position =>
    position.heading ++ s!"{mnemonic.text} has no {shape.name} form"

end ChipEight
