import ChipEight.CommandLine.Arguments

/-!
# Outcomes of commands

What a command writes and how it exits: with 0 if it succeeds, with 1 and a report if
it fails, and with 2 if its arguments are refused.
-/

namespace ChipEight.CommandLine

/-- Why a command fails. -/
structure Failure where
  /-- What the command was doing, where that is not plain from the cause. -/
  context : Option String
  cause : String
  deriving DecidableEq, Repr

/-- A failure that its cause tells completely. -/
def Failure.ofCause (cause : String) : Failure :=
  ⟨none, cause⟩

/-- The report of a failure. -/
def Failure.report (failure : Failure) : String :=
  match failure.context with
  | none => s!"Error: {failure.cause}\n"
  | some context => s!"Error: {context}\n\nCaused by:\n    {failure.cause}\n"

/-- What a command leaves behind, apart from files. -/
structure Outcome where
  exitCode : UInt32
  /-- What it writes to standard output. -/
  output : String
  /-- What it writes to standard error. -/
  diagnostics : String
  deriving DecidableEq, Repr

namespace Outcome

/-- The outcome of a success. -/
def success (output : String) : Outcome :=
  ⟨0, output, ""⟩

/-- The outcome of a failure after some output. -/
def failure (output : String) (failure : Failure) : Outcome :=
  ⟨1, output, failure.report⟩

/-- The outcome of refused arguments. -/
def refusal (error : UsageError) : Outcome :=
  ⟨2, "", s!"error: {error.message}\n"⟩

/-- Lines as they are written out. -/
def printed (lines : List String) : String :=
  String.join (lines.map (· ++ "\n"))

end Outcome

end ChipEight.CommandLine
