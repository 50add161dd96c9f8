import ChipEight.CommandLine.Files
import ChipEight.CommandLine.Number
import ChipEight.CommandLine.Outcome
import ChipEight.Listing
import ChipEight.Report

/-!
# The disassembler command

The commands are `disasm` (a listing or a report), `scan` (word by word), `dump` (bytes)
and `opcode` (a single word). All but the last read a window of a file.
-/

namespace ChipEight.CommandLine

/-- The part of a file that is read. -/
structure Window where
  /-- The number of bytes left out at the start. -/
  skip : Nat
  /-- The number of bytes after those; without it, all of them. -/
  length : Option Nat
  deriving DecidableEq, Repr

/-- Why a window lies outside its file. -/
inductive WindowError
  | skipTooLarge
  | lengthTooLarge
  deriving DecidableEq, Repr

/-- The wording of a window error. -/
def WindowError.message : WindowError → String
  | skipTooLarge => "--skip exceeds file size"
  | lengthTooLarge => "--len exceeds remaining file size after skip"

/-- The bytes in a window. -/
def Window.select (window : Window) (bytes : Array UInt8) :
    Except WindowError (Array UInt8) :=
  if window.skip > bytes.size then .error .skipTooLarge
  else
    match window.length with
    | none => .ok (bytes.extract window.skip bytes.size)
    | some length =>
      if length > bytes.size - window.skip then .error .lengthTooLarge
      else .ok (bytes.extract window.skip (window.skip + length))

/-- The form of a disassembly. -/
inductive Format
  | text
  | json
  deriving DecidableEq, Repr

/-- A command of the disassembler. -/
inductive DisassembleCommand
  | disasm (window : Window) (path : String) (options : Options) (format : Format)
      (out : Option String)
  | scan (window : Window) (path : String) (start stop : Option String)
  | dump (window : Window) (path : String)
  | opcode (word : String)
  deriving DecidableEq, Repr

namespace DisassembleCommand

/-- The options that may stand before and after the name of a command. -/
def windowForms : List OptionForm :=
  [⟨"skip", none, true⟩, ⟨"len", none, true⟩]

/-- The options of a listing. -/
def listingForms : List OptionForm :=
  [⟨"no-comments", none, false⟩, ⟨"max-branches", none, true⟩, ⟨"format", none, true⟩,
   ⟨"out", none, true⟩]

/-- The window that the options before and after the name of a command choose; the
latter win. -/
def readWindow (outer inner : Arguments) : Except UsageError Window := do
  let outerSkip ← outer.count? "skip"
  let innerSkip ← inner.count? "skip"
  let outerLength ← outer.count? "len"
  let innerLength ← inner.count? "len"
  return ⟨(innerSkip <|> outerSkip).getD 0, innerLength <|> outerLength⟩

/-- The form of a disassembly, text unless another is given. -/
def readFormat (arguments : Arguments) : Except UsageError Format :=
  match arguments.value? "format" with
  | none | some "text" => .ok .text
  | some "json" => .ok .json
  | some other => .error (.invalidValue "format" other)

/-- The file operand and the operands after it. -/
def readPath : List String → Except UsageError (String × List String)
  | [] => .error (.missingOperand "the file")
  | "" :: _ => .error (.invalidValue "the file" "")
  | path :: rest => .ok (path, rest)

/-- No operand. -/
def readNoMore : List String → Except UsageError Unit
  | [] => .ok ()
  | operand :: _ => .error (.unexpectedOperand operand)

/-- Reads the arguments after the name of a command. -/
def readCommand (name : String) (outer : Arguments) (rest : List String) :
    Except UsageError DisassembleCommand := do
  let forms := if name = "disasm" then windowForms ++ listingForms else windowForms
  let inner ← Arguments.read forms false .empty none rest
  let window ← readWindow outer inner
  match name with
  | "disasm" =>
    let (path, rest) ← readPath inner.operands
    readNoMore rest
    let limit ← inner.count? "max-branches"
    let format ← readFormat inner
    let out ← inner.path? "out"
    let options : Options :=
      ⟨!inner.has "no-comments", limit.getD Options.standard.branchLimit⟩
    return .disasm window path options format out
  | "scan" =>
    let (path, rest) ← readPath inner.operands
    readNoMore (rest.drop 2)
    return .scan window path rest[0]? rest[1]?
  | "dump" =>
    let (path, rest) ← readPath inner.operands
    readNoMore rest
    return .dump window path
  | "opcode" =>
    match inner.operands with
    | [] => throw (.missingOperand "the word")
    | word :: rest =>
      readNoMore rest
      return .opcode word
  | other => throw (.unknownCommand other)

/-- Reads all arguments. -/
def read (arguments : List String) : Except UsageError DisassembleCommand := do
  let outer ← Arguments.read windowForms true .empty none arguments
  match outer.operands with
  | [] => throw .missingCommand
  | name :: rest => readCommand name outer rest

/-- Disassembles bytes into a text. -/
def rendered (options : Options) (format : Format) (bytes : Array UInt8) :
    Except Failure String := do
  let found ← (Disassembly.explore bytes options.branchLimit).mapError (.ofCause ·.message)
  match format with
  | .text => return found.text options.comments
  | .json => return (Report.ofDisassembly found).text

/-- A number among the operands. -/
def number (text : String) : Except Failure Nat :=
  (readNumber text).mapError (.ofCause ·.message)

/-- The lines of a scan between two offsets that are given as text. -/
def scanLines (start stop : Option String) (bytes : Array UInt8) :
    Except Failure (List String) := do
  let start := (← start.mapM number).getD 0
  let stop ← stop.mapM number
  if stop.any (· < start) then throw (.ofCause "stop must be >= start")
  return Listing.scan bytes start stop

/-- The instruction that a number stands for. -/
def decoded (text : String) : Except Failure String := do
  let word ← number text
  if word > 0xFFFF then
    throw (.ofCause ("opcode 0x" ++ Numeral.lowerHex 1 word ++ " is wider than 16 bits"))
  let instruction ← (Instruction.decode word.toUInt16).mapError (.ofCause ·.message)
  return instruction.text

section

variable {m : Type → Type} [Monad m]

/-- The bytes in a window of a file. -/
def load (files : Files m) (window : Window) (path : String) :
    m (Except Failure (Array UInt8)) := do
  match ← files.read path with
  | .error error => return .error (.ofCause error.message)
  | .ok bytes => return (window.select bytes).mapError (.ofCause ·.message)

/-- The outcome of a command that only prints. -/
def printing (result : Except Failure (List String)) : Outcome :=
  match result with
  | .ok lines => .success (Outcome.printed lines)
  | .error failure => .failure "" failure

/-- Runs a command. -/
def run (files : Files m) : DisassembleCommand → m Outcome
  | disasm window path options format out => do
    match (← load files window path) >>= rendered options format with
    | .error failure => return .failure "" failure
    | .ok text =>
      match out with
      | none => return .success (Outcome.printed [text])
      | some path =>
        match ← files.write path text.toUTF8.data with
        | .ok () => return .success ""
        | .error error => return .failure "" (.ofCause error.message)
  | scan window path start stop => do
    return printing ((← load files window path) >>= scanLines start stop)
  | dump window path => do
    return printing ((← load files window path).map fun bytes => [Listing.dump bytes])
  | opcode word => return printing ((decoded word).map ([·]))

end

end DisassembleCommand

/-- Runs the disassembler on arguments. -/
def disassemble {m : Type → Type} [Monad m] (files : Files m) (arguments : List String) :
    m Outcome :=
  match DisassembleCommand.read arguments with
  | .ok command => command.run files
  | .error error => return .refusal error

end ChipEight.CommandLine
