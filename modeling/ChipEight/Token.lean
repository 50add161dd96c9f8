import ChipEight.Mnemonic
import ChipEight.Numeral
import ChipEight.Position

/-!
# Tokens

The units of assembly text, and how each is spelled. Numbers and register numbers are
written in hexadecimal.
-/

namespace ChipEight

/-- What an instruction may be given. -/
inductive Operand
  | integer (value : Nat)
  | register (number : Nat)
  | label (name : String)
  deriving DecidableEq, Repr

namespace Operand

/-- The kind of an operand as diagnostics name it. -/
def kindName : Operand → String
  | integer _ => "INTEGER"
  | register _ => "REGISTER"
  | label _ => "LABEL"

/-- The spelling of an operand. -/
def text : Operand → String
  | integer value => Numeral.hex 1 value ++ "h"
  | register number => "$" ++ Numeral.hex 1 number
  | label name => ":" ++ name

/-- The number an operand stands for; a label stands for none. -/
def value? : Operand → Option Nat
  | integer value => some value
  | register number => some number
  | label _ => none

end Operand

/-- What a token is. -/
inductive Token.Kind
  | instruction (mnemonic : Mnemonic)
  /-- The keyword that announces literal bytes. -/
  | data
  | operand (operand : Operand)
  /-- The end of the text. -/
  | eof
  deriving DecidableEq, Repr

namespace Token.Kind

/-- The kind of a token as diagnostics name it. -/
def name : Token.Kind → String
  | instruction _ => "INSTRUCTION"
  | data => "DATA"
  | operand o => o.kindName
  | eof => "EOF"

/-- The spelling of a token. -/
def text : Token.Kind → String
  | instruction mnemonic => mnemonic.text
  | data => Mnemonic.data.text
  | operand o => o.text
  | eof => ""

/-- The operand a token is, if it is one. -/
def operand? : Token.Kind → Option Operand
  | operand o => some o
  | _ => none

end Token.Kind

/-- A unit of assembly text and the place where it starts. -/
abbrev Token := Located Token.Kind

end ChipEight
