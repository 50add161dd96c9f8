/-!
# Numerals

Positional numbers as text: reading a run of digits below a bound, with the reason
when it cannot be read, and writing hexadecimal digits with leading zeros.
-/

namespace ChipEight.Numeral

/-- Why a text is not a numeral. -/
inductive Fault
  | empty
  | invalidDigit
  | tooLarge
  deriving DecidableEq, Repr

/-- The wording of a fault. -/
def Fault.message : Fault → String
  | .empty => "cannot parse integer from empty string"
  | .invalidDigit => "invalid digit found in string"
  | .tooLarge => "number too large to fit in target type"

/-- The value of a digit in a radix of at most sixteen; letters count in either case. -/
def digit? (radix : Nat) (c : Char) : Option Nat :=
  let value :=
    if '0' ≤ c ∧ c ≤ '9' then c.toNat - '0'.toNat
    else if 'a' ≤ c ∧ c ≤ 'f' then c.toNat - 'a'.toNat + 10
    else if 'A' ≤ c ∧ c ≤ 'F' then c.toNat - 'A'.toNat + 10
    else 16
  if value < radix then some value else none

/-- Whether a character is a hexadecimal digit. -/
def isHexDigit (c : Char) : Bool :=
  (digit? 16 c).isSome

/-- Continues a numeral whose digits so far have the given value. The first character
that is no digit, or that takes the value to `bound`, decides the fault. -/
def readFrom (radix bound : Nat) : Nat → List Char → Except Fault Nat
  | value, [] => .ok value
  | value, c :: cs =>
    match digit? radix c with
    | none => .error .invalidDigit
    | some d =>
      if value * radix + d < bound then readFrom radix bound (value * radix + d) cs
      else .error .tooLarge

/-- Reads one or more digits whose value is below `bound`. -/
def read (radix bound : Nat) : List Char → Except Fault Nat
  | [] => .error .empty
  | c :: cs => readFrom radix bound 0 (c :: cs)

/-- Reads a numeral that may carry a plus sign; a sign alone is an invalid digit. -/
def readUnsigned (radix bound : Nat) : List Char → Except Fault Nat
  | '+' :: c :: cs => read radix bound (c :: cs)
  | cs => read radix bound cs

/-- The lower-case hexadecimal digits of a number, most significant first. -/
def hexDigits (n : Nat) : List Char :=
  Nat.toDigits 16 n

/-- A number in upper-case hexadecimal with at least `width` digits. -/
def hex (width n : Nat) : String :=
  String.ofList ((hexDigits n).map Char.toUpper |>.leftpad width '0')

/-- A number in upper-case hexadecimal behind the mark `0x`. -/
def marked (width n : Nat) : String :=
  "0x" ++ hex width n

/-- A number in lower-case hexadecimal with at least `width` digits. -/
def lowerHex (width n : Nat) : String :=
  String.ofList ((hexDigits n).leftpad width '0')

end ChipEight.Numeral
