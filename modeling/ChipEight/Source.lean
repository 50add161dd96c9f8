import ChipEight.Lexeme

/-!
# Source text

The tokens of a text with their positions. A cursor divides the text into what has
been read and what remains, so that a report can quote the characters around a fault.
-/

namespace ChipEight

/-- A place in a text. -/
structure Cursor where
  /-- The characters that have been read, last first. -/
  before : List Char
  /-- The characters that remain. -/
  rest : List Char
  position : Position
  deriving DecidableEq, Repr

/-- Why a text has no tokens, where, and what stands there. -/
structure SourceError where
  fault : LexicalFault
  position : Position
  /-- A quotation from the text. -/
  context : String
  deriving DecidableEq, Repr

/-- The wording of a fault. -/
def LexicalFault.message : LexicalFault → String
  | .unknownName name => s!"invalid instruction `{name}`"
  | .emptyLabel => "empty label"
  | .emptyRegister => "register without a number"
  | .tooLarge literal => s!"integer `{literal}` is too large"
  | .unexpectedSymbol symbol => s!"unexpected symbol `{symbol}`"

/-- The wording of a report. -/
def SourceError.message (error : SourceError) : String :=
  error.position.heading ++ error.fault.message ++ s!" near `{error.context}`"

namespace Cursor

/-- The start of a text. -/
def start (text : List Char) : Cursor :=
  ⟨[], text, .first⟩

/-- Reads a number of characters, or all that remain. -/
def advance : Nat → Cursor → Cursor
  | 0, cursor => cursor
  | _ + 1, ⟨before, [], position⟩ => ⟨before, [], position⟩
  | n + 1, ⟨before, c :: cs, position⟩ => advance n ⟨c :: before, cs, position.next c⟩

/-- The number of characters that a quotation shows on either side. -/
def contextWidth : Nat := 5

/-- Quotes the character at the cursor and its neighbours on one line. -/
def context (cursor : Cursor) : String :=
  let before := (cursor.before.take contextWidth).reverse
  let here := cursor.rest.take 1
  let after := (cursor.rest.drop 1).take contextWidth
  let shown := before ++ " > ".toList ++ here ++ " < ".toList ++ after
  String.ofList (shown.flatMap fun c => if c = '\n' then ['\\', 'n'] else [c])

/-- The report of a failure whose text starts at the cursor. -/
def report (cursor : Cursor) (failure : Lexeme.Failure) : SourceError where
  fault := failure.fault
  position := (cursor.advance failure.offset).position
  context := (cursor.advance failure.reached).context

/-- Reading takes as many characters as it is told to, if there are so many. -/
theorem length_rest_advance (n : Nat) (cursor : Cursor) :
    (cursor.advance n).rest.length = cursor.rest.length - n := by
  induction n generalizing cursor with
  | zero => rfl
  | succ n ih =>
    obtain ⟨before, rest, position⟩ := cursor
    cases rest with
    | nil => simp [advance]
    | cons c cs => simp [advance, ih]

/-- Reading trivia and then a lexeme leaves less of the text. -/
theorem length_rest_advance_lt {cursor : Cursor} {trivia length : Nat} {c : Char}
    {cs : List Char} (hrest : (cursor.advance trivia).rest = c :: cs) (hlength : 0 < length) :
    ((cursor.advance trivia).advance length).rest.length < cursor.rest.length := by
  have hcons := congrArg List.length hrest
  simp only [length_rest_advance, List.length_cons] at hcons ⊢
  omega

/-- The tokens from the cursor on, after those already found (last first). -/
def tokensFrom (cursor : Cursor) (found : List Token) : Except SourceError (List Token) :=
  let start := cursor.advance (Lexeme.trivia cursor.rest)
  match hrest : start.rest with
  | [] => .ok (⟨.eof, start.position⟩ :: found).reverse
  | c :: cs =>
    match Lexeme.read c cs with
    | .error failure => .error (start.report failure)
    | .ok lexeme =>
      have := length_rest_advance_lt hrest lexeme.length_pos
      tokensFrom (start.advance lexeme.length) (⟨lexeme.kind, start.position⟩ :: found)
termination_by cursor.rest.length

end Cursor

/-- The tokens of a text, the last of which marks its end. -/
def tokenize (source : String) : Except SourceError (List Token) :=
  (Cursor.start source.toList).tokensFrom []

end ChipEight
