import ChipEight.Machine
import ChipEight.Numeral
import ChipEight.Text.Blank

/-!
# Numbers on the command line

An address or a word is written in hexadecimal behind `0x` or before `h`, and in
decimal otherwise. The first of these forms that the text has the mark of is the one
it is read in.
-/

namespace ChipEight.CommandLine

/-- Reads a number; blanks around it do not count. -/
def readNumber (text : String) : Except Numeral.Fault Nat :=
  let trimmed := Text.trim text.toList
  match trimmed with
  | '0' :: 'x' :: digits | '0' :: 'X' :: digits =>
    Numeral.readUnsigned 16 Machine.numberBound digits
  | _ =>
    if trimmed.getLast? = some 'h' then
      Numeral.readUnsigned 16 Machine.numberBound trimmed.dropLast
    else Numeral.readUnsigned 10 Machine.numberBound trimmed

end ChipEight.CommandLine
