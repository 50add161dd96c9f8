import ChipEight.CommandLine.Assemble
import ChipEight.CommandLine.Disassemble

/-!
# The program

Runs one of the two commands on the files of the system: the assembler if the first
argument is `asm`, and the disassembler otherwise.
-/

namespace ChipEight.CommandLine

/-- The magnitude of a system error number, which may arrive negated. -/
def errorNumber (code : UInt32) : UInt32 :=
  min code (0 - code)

/-- The cause of a failed file operation. -/
def FileError.ofSystem (error : IO.Error) : FileError :=
  match error with
  | .noFileOrDirectory .. => .notFound
  | .permissionDenied .. => .permissionDenied
  | .inappropriateType _ code _ =>
    if errorNumber code = 20 then .notDirectory else .isDirectory
  | .invalidArgument _ code _ =>
    if errorNumber code = 36 then .nameTooLong else .other (toString error)
  | _ => .other (toString error)

/-- The file operations of the system. -/
def systemFiles : Files IO where
  read path := do
    try return .ok (← IO.FS.readBinFile path).data
    catch error => return .error (.ofSystem error)
  write path bytes := do
    try return .ok (← IO.FS.writeBinFile path ⟨bytes⟩)
    catch error => return .error (.ofSystem error)

/-- Runs the command that the arguments name. -/
def runSystem (arguments : List String) : IO UInt32 := do
  let outcome ← match arguments with
    | "asm" :: rest => assemble systemFiles rest
    | arguments => disassemble systemFiles arguments
  IO.print outcome.output
  IO.eprint outcome.diagnostics
  return outcome.exitCode

end ChipEight.CommandLine

/-- Runs the program. -/
def main (arguments : List String) : IO UInt32 :=
  ChipEight.CommandLine.runSystem arguments
