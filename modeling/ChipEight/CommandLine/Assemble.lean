import ChipEight.CommandLine.Files
import ChipEight.CommandLine.Outcome
import ChipEight.Listing
import ChipEight.Program

/-!
# The assembler command

Assembles a file, prints the bytes and, if asked to, the labels, and then writes the
bytes to a file, if one is named.
-/

namespace ChipEight.CommandLine

/-- What to assemble. -/
structure AssembleCommand where
  /-- The path of the source text. -/
  input : String
  /-- The path for the bytes. -/
  output : Option String
  /-- Whether to print the labels. -/
  symbols : Bool
  deriving DecidableEq, Repr

namespace AssembleCommand

/-- The options of the command. -/
def forms : List OptionForm :=
  [⟨"input", some 'i', true⟩, ⟨"output", some 'o', true⟩, ⟨"symbols", none, false⟩]

/-- Reads all arguments, among which there are no operands. -/
def read (arguments : List String) : Except UsageError AssembleCommand := do
  let given ← Arguments.read forms false .empty none arguments
  match given.operands with
  | operand :: _ => throw (.unexpectedOperand operand)
  | [] =>
    match ← given.path? "input" with
    | none => throw (.missingValue "input")
    | some input => return ⟨input, ← given.path? "output", given.has "symbols"⟩

/-- The program in the bytes of a source file. -/
def program (path : String) (bytes : Array UInt8) : Except Failure Program :=
  match String.fromUTF8? ⟨bytes⟩ with
  | none => .error ⟨some s!"reading {path}", "stream did not contain valid UTF-8"⟩
  | some source => (Program.ofSource source).mapError (.ofCause ·.message)

/-- The line of a label. -/
def symbolLine (symbol : String × Nat) : String :=
  Numeral.marked 3 symbol.2 ++ " " ++ symbol.1

/-- What the command prints about a program. -/
def shown (command : AssembleCommand) (program : Program) : String :=
  let symbols := if command.symbols then program.symbols.map symbolLine else []
  Outcome.printed (Listing.dump program.bytes :: symbols)

/-- Runs the command. -/
def run {m : Type → Type} [Monad m] (files : Files m) (command : AssembleCommand) :
    m Outcome := do
  match ← files.read command.input with
  | .error error => return .failure "" ⟨some s!"reading {command.input}", error.message⟩
  | .ok bytes =>
    match program command.input bytes with
    | .error failure => return .failure "" failure
    | .ok program =>
      let shown := command.shown program
      match command.output with
      | none => return .success shown
      | some path =>
        match ← files.write path program.bytes with
        | .ok () => return .success shown
        | .error error => return .failure shown ⟨some s!"writing {path}", error.message⟩

end AssembleCommand

/-- Runs the assembler on arguments. -/
def assemble {m : Type → Type} [Monad m] (files : Files m) (arguments : List String) :
    m Outcome :=
  match AssembleCommand.read arguments with
  | .ok command => command.run files
  | .error error => return .refusal error

end ChipEight.CommandLine
