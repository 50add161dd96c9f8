/-!
# Positions in source text

Lines and columns count characters from one. A position serves diagnostics only.
-/

namespace ChipEight

/-- A place in source text. -/
structure Position where
  line : Nat
  column : Nat
  deriving DecidableEq, Repr

namespace Position

/-- The place of the first character. -/
def first : Position :=
  ⟨1, 1⟩

/-- The place after a character; a line feed starts a new line. -/
def next (position : Position) (c : Char) : Position :=
  if c = '\n' then ⟨position.line + 1, 1⟩ else ⟨position.line, position.column + 1⟩

/-- The place after some text. -/
def after (position : Position) (text : List Char) : Position :=
  text.foldl next position

/-- How a diagnostic about this place begins. -/
def heading (position : Position) : String :=
  s!"line {position.line}, col {position.column}: "

end Position

/-- A value together with the place it was read from. -/
structure Located (α : Type) where
  value : α
  position : Position
  deriving DecidableEq, Repr

end ChipEight
