import ChipEight.Text.Blank
import ChipEight.Machine
import ChipEight.Token

/-!
# Lexemes

How assembly text divides at its front: first the trivia (blanks, commas and comments
that run to the end of their line), then one lexeme. Mnemonics share letters with
hexadecimal digits, so a run of digits is a number only if it can be read as one in
the radix that its mark names; otherwise the text is tried as a name.
-/

namespace ChipEight

/-- Why no token can be read. -/
inductive LexicalFault
  /-- The upper-cased letters are no mnemonic. -/
  | unknownName (name : String)
  | emptyLabel
  | emptyRegister
  | tooLarge (literal : String)
  | unexpectedSymbol (symbol : Char)
  deriving DecidableEq, Repr

/-- A lexeme at the front of some text. -/
structure Lexeme where
  kind : Token.Kind
  /-- The number of characters. -/
  length : Nat
  length_pos : 0 < length
  deriving DecidableEq, Repr

/-- A fault at the front of some text, with the places that its report names. -/
structure Lexeme.Failure where
  fault : LexicalFault
  /-- How far into the text the fault lies. -/
  offset : Nat
  /-- How far into the text reading had come. -/
  reached : Nat
  deriving DecidableEq, Repr

namespace Lexeme

/-- Whether a character only separates tokens. -/
def isSeparator (c : Char) : Bool :=
  Text.isBlank c || c == ','

/-- Adds the number of characters before the next lexeme to `count`. A comment ends
with its line. -/
def triviaFrom (inComment : Bool) (count : Nat) : List Char → Nat
  | [] => count
  | c :: cs =>
    if inComment then triviaFrom (c != '\n') (count + 1) cs
    else if isSeparator c then triviaFrom false (count + 1) cs
    else if c == ';' then triviaFrom true (count + 1) cs
    else count

/-- The number of characters before the next lexeme. -/
def trivia (text : List Char) : Nat :=
  triviaFrom false 0 text

/-- The radix that a mark after the digits of a number names. -/
def radix? : Char → Option Nat
  | 'h' => some 16
  | 'o' => some 8
  | 'n' => some 2
  | _ => none

/-- The number at the front of a text, if its digits can be read. Digits without a mark
are decimal. -/
def number? (c : Char) (cs : List Char) : Option (Except Failure Lexeme) :=
  let digits := c :: cs.takeWhile Numeral.isHexDigit
  let mark := (cs.dropWhile Numeral.isHexDigit).head?.filter fun m => (radix? m).isSome
  let literal := digits ++ mark.toList
  match Numeral.read ((mark.bind radix?).getD 10) Machine.numberBound digits with
  | .ok value =>
    some (.ok ⟨.operand (.integer value), literal.length, by simp [literal, digits]⟩)
  | .error .tooLarge => some (.error ⟨.tooLarge (String.ofList literal), 0, 0⟩)
  | .error _ => none

/-- The keyword at the front of a text that starts with a letter. -/
def name (c : Char) (cs : List Char) : Except Failure Lexeme :=
  let letters := (c :: cs.takeWhile Char.isAlpha).map Char.toUpper
  let spelling := String.ofList letters
  match Mnemonic.ofText? spelling with
  | some .data => .ok ⟨.data, letters.length, by simp [letters]⟩
  | some mnemonic => .ok ⟨.instruction mnemonic, letters.length, by simp [letters]⟩
  | none => .error ⟨.unknownName spelling, 0, letters.length⟩

/-- The label whose colon stands before the text; its name runs to a separator. -/
def label (cs : List Char) : Except Failure Lexeme :=
  match cs.takeWhile fun c => !isSeparator c with
  | [] => .error ⟨.emptyLabel, 1, 1⟩
  | name => .ok ⟨.operand (.label (String.ofList name)), name.length + 1, by simp⟩

/-- The register whose dollar sign stands before the text. -/
def register (cs : List Char) : Except Failure Lexeme :=
  let digits := cs.takeWhile Numeral.isHexDigit
  match Numeral.read 16 Machine.numberBound digits with
  | .ok number => .ok ⟨.operand (.register number), digits.length + 1, by simp⟩
  | .error .empty => .error ⟨.emptyRegister, 1, 1⟩
  | .error _ =>
    .error ⟨.tooLarge (String.ofList ('$' :: digits)), 0, digits.length + 1⟩

/-- The lexeme at the front of a text that does not start with trivia. -/
def read (c : Char) (cs : List Char) : Except Failure Lexeme :=
  match number? c cs with
  | some number => number
  | none =>
    if c.isAlpha then name c cs
    else if c == ':' then label cs
    else if c == '$' then register cs
    else .error ⟨.unexpectedSymbol c, 0, 0⟩

end Lexeme

end ChipEight
