import ChipEight.Numeral

/-!
# Command-line arguments

Arguments divide into options and operands. An option starts with two dashes and a
name, or with a dash and a letter; its value is attached to it or is the next argument.
After a bare pair of dashes everything is an operand.
-/

namespace ChipEight.CommandLine

/-- How an option is written. -/
structure OptionForm where
  /-- The name behind two dashes. -/
  name : String
  /-- The letter behind one dash. -/
  letter : Option Char
  takesValue : Bool
  deriving DecidableEq, Repr

/-- Why arguments are refused. -/
inductive UsageError
  | unknownOption (argument : String)
  | missingValue (option : String)
  | unexpectedValue (option : String)
  | repeatedOption (option : String)
  | invalidValue (option value : String)
  | missingOperand (name : String)
  | unexpectedOperand (operand : String)
  | missingCommand
  | unknownCommand (name : String)
  deriving DecidableEq, Repr

/-- The wording of a refusal. -/
def UsageError.message : UsageError → String
  | unknownOption argument => s!"unknown option {argument}"
  | missingValue option => s!"--{option} needs a value"
  | unexpectedValue option => s!"--{option} takes no value"
  | repeatedOption option => s!"--{option} is given more than once"
  | invalidValue option value => s!"'{value}' is no value for {option}"
  | missingOperand name => s!"{name} is missing"
  | unexpectedOperand operand => s!"unexpected argument {operand}"
  | missingCommand => "a command is missing"
  | unknownCommand name => s!"unknown command {name}"

/-- The arguments of a command. -/
structure Arguments where
  /-- The names of the given options with their values; a flag has no value. -/
  options : List (String × Option String)
  operands : List String
  deriving DecidableEq, Repr

namespace Arguments

/-- No arguments yet. -/
def empty : Arguments :=
  ⟨[], []⟩

/-- Notes an option, which may be given once. -/
def give (arguments : Arguments) (name : String) (value : Option String) :
    Except UsageError Arguments :=
  if (arguments.options.lookup name).isSome then .error (.repeatedOption name)
  else .ok { arguments with options := arguments.options ++ [(name, value)] }

/-- Whether an option is given. -/
def has (arguments : Arguments) (name : String) : Bool :=
  (arguments.options.lookup name).isSome

/-- The value of an option. -/
def value? (arguments : Arguments) (name : String) : Option String :=
  (arguments.options.lookup name).join

/-- Whether an argument is written like an option. A dash alone is not. -/
def isOption (argument : String) : Bool :=
  match argument.toList with
  | '-' :: _ :: _ => true
  | _ => false

/-- The form of an option and the value attached to it. A value is attached to a name
behind an equals sign, and to a letter directly or behind an equals sign. -/
def form? (forms : List OptionForm) (argument : String) :
    Option (OptionForm × Option String) :=
  match argument.toList with
  | '-' :: '-' :: body =>
    let name := String.ofList (body.takeWhile (· != '='))
    let attached := match body.dropWhile (· != '=') with
      | _ :: value => some (String.ofList value)
      | [] => none
    (forms.find? (·.name == name)).map (·, attached)
  | '-' :: letter :: body =>
    let attached := match body with
      | [] => none
      | '=' :: value => some (String.ofList value)
      | value => some (String.ofList value)
    (forms.find? (·.letter == some letter)).map (·, attached)
  | _ => none

/-- Reads arguments one by one. `pending` is the option that waits for its value. If
`leading` is set, reading stops at the first operand, which comes back as the first of
the operands with the unread arguments after it. -/
def read (forms : List OptionForm) (leading : Bool) (arguments : Arguments)
    (pending : Option String) : List String → Except UsageError Arguments
  | [] =>
    match pending with
    | some option => .error (.missingValue option)
    | none => .ok arguments
  | argument :: rest =>
    match pending with
    | some option =>
      if isOption argument then .error (.missingValue option)
      else do read forms leading (← arguments.give option (some argument)) none rest
    | none =>
      if argument = "--" then
        if leading then .error .missingCommand
        else .ok { arguments with operands := arguments.operands ++ rest }
      else if isOption argument then
        match form? forms argument with
        | none => .error (.unknownOption argument)
        | some (form, attached) =>
          match form.takesValue, attached with
          | true, some value => do
            read forms leading (← arguments.give form.name (some value)) none rest
          | true, none => read forms leading arguments (some form.name) rest
          | false, some _ => .error (.unexpectedValue form.name)
          | false, none => do
            read forms leading (← arguments.give form.name none) none rest
      else if leading then
        .ok { arguments with operands := argument :: rest }
      else
        read forms leading { arguments with operands := arguments.operands ++ [argument] }
          none rest

/-- Counts have 64 bits. -/
def countBound : Nat := 0x10000000000000000

/-- The value of an option that counts something. -/
def count? (arguments : Arguments) (name : String) : Except UsageError (Option Nat) :=
  match arguments.value? name with
  | none => .ok none
  | some text =>
    match Numeral.readUnsigned 10 countBound text.toList with
    | .ok value => .ok (some value)
    | .error _ => .error (.invalidValue name text)

/-- The value of an option that names a file, which is not empty. -/
def path? (arguments : Arguments) (name : String) : Except UsageError (Option String) :=
  match arguments.value? name with
  | some "" => .error (.invalidValue name "")
  | path => .ok path

end Arguments

end ChipEight.CommandLine
