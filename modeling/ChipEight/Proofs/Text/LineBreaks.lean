import ChipEight.Proofs.Text.Division

/-!
# Texts on consecutive lines

A line feed ends whatever a text ends in: a number that could go on or take a mark, a name, a
comment. A text that has tokens therefore keeps them if lines are added below it, and the lines
below are read as if nothing stood above them, further down.
-/

namespace ChipEight

namespace Lexeme

/-- What holds of the next character, if there is one, holds also where more lines follow. -/
theorem forall_head?_append_line {p : Char → Prop} (hline : p '\n') {rest : List Char}
    (hrest : ∀ c ∈ rest.head?, p c) (lines : List Char) :
    ∀ c ∈ (rest ++ '\n' :: lines).head?, p c := by
  obtain _ | ⟨first, rest⟩ := rest
  · exact fun c hmem => Option.some.inj hmem ▸ hline
  · exact hrest

/-- A line feed ends a run of other characters. -/
theorem Run.append_line {p : Char → Prop} (hline : ¬p '\n') {run rest : List Char}
    (hrun : Run p run rest) (lines : List Char) : Run p run (rest ++ '\n' :: lines) :=
  { hrun with stops := forall_head?_append_line (p := (¬p ·)) hline hrun.stops lines }

/-- A line feed is no mark. -/
theorem Marks.append_line {mark rest : List Char} {radix : Nat} (hmarks : Marks mark rest radix)
    (lines : List Char) : Marks mark (rest ++ '\n' :: lines) radix := by
  cases hmarks with
  | hexadecimal => exact .hexadecimal
  | octal => exact .octal
  | binary => exact .binary
  | decimal hnone =>
    exact .decimal (forall_head?_append_line (p := (· ∉ ['h', 'o', 'n'])) (by decide) hnone lines)

/-- A line feed ends the digits of a number, and is no mark of it. -/
theorem Literal.append_line {digits mark rest : List Char} {radix : Nat}
    (hliteral : Literal digits mark rest radix) (lines : List Char) :
    Literal digits mark (rest ++ '\n' :: lines) radix where
  run := by
    have hrun := hliteral.run.append_line (by decide) lines
    rwa [List.append_assoc] at hrun
  marks := hliteral.marks.append_line lines

/-- Lines below do not matter for the number at the front of a text. -/
theorem number?_append_line (c : Char) (cs lines : List Char) :
    number? c (cs ++ '\n' :: lines) = number? c cs := by
  have hstops := forall_head?_append_line (p := (Numeral.isHexDigit · = false)) (by decide)
    (stops_dropWhile Numeral.isHexDigit cs) lines
  have hsplit : cs ++ '\n' :: lines = cs.takeWhile Numeral.isHexDigit ++
      (cs.dropWhile Numeral.isHexDigit ++ '\n' :: lines) := by
    rw [← List.append_assoc, List.takeWhile_append_dropWhile]
  have hall : ∀ c ∈ cs.takeWhile Numeral.isHexDigit, Numeral.isHexDigit c = true :=
    fun _ hmem => List.mem_takeWhile_imp hmem
  obtain ⟨htake, hdrop⟩ := takeWhile_append_of_stops hall hstops
  rw [← hsplit] at htake hdrop
  have hmark : ((cs.dropWhile Numeral.isHexDigit ++ '\n' :: lines).head?.filter
      fun m => (radix? m).isSome) =
        (cs.dropWhile Numeral.isHexDigit).head?.filter fun m => (radix? m).isSome := by
    cases cs.dropWhile Numeral.isHexDigit <;> rfl
  simp only [number?, htake, hdrop, hmark]

/-- A text that is not empty starts with a number if it does so on its last line. -/
theorem startsNumber_append_line_iff {text : List Char} (hnonempty : text ≠ [])
    (lines : List Char) : StartsNumber (text ++ '\n' :: lines) ↔ StartsNumber text := by
  obtain ⟨c, cs, rfl⟩ := List.exists_cons_of_ne_nil hnonempty
  rw [List.cons_append, startsNumber_iff, startsNumber_iff, number?_append_line]

/-- A lexeme means the same where more lines follow. -/
theorem Means.append_line {text rest : List Char} {kind : Token.Kind}
    (hmeans : Means text rest kind) (lines : List Char) :
    Means text (rest ++ '\n' :: lines) kind := by
  cases hmeans with
  | integer hliteral hvalue hlt => exact .integer (hliteral.append_line lines) hvalue hlt
  | register hrun hvalue hlt => exact .register (hrun.append_line (by decide) lines) hvalue hlt
  | label hrun => exact .label (hrun.append_line (by decide) lines)
  | keyword hrun hnumber htext =>
    refine .keyword (hrun.append_line (by decide) lines) ?_ htext
    rwa [← List.append_assoc,
      startsNumber_append_line_iff (List.append_ne_nil_of_left_ne_nil hrun.nonempty rest)]

end Lexeme

/-- What has been divided does not depend on further lines. -/
theorem Divided.append_line {front rest : List Char} {tokens : List Token}
    (hdivided : Divided front rest tokens) (lines : List Char) :
    Divided front (rest ++ '\n' :: lines) tokens := by
  induction hdivided with
  | start => exact .start
  | trivia hgap _ ih =>
    rw [List.append_assoc] at ih
    exact .trivia hgap ih
  | lexeme hmeans _ ih =>
    rw [List.append_assoc] at ih
    exact .lexeme (hmeans.append_line lines) ih

/-- The end of its line ends a last comment. -/
theorem Closes.trivia_line {rest : List Char} (hcloses : Closes rest) :
    Trivia (rest ++ ['\n']) := by
  cases hcloses with
  | nil => exact .separator (by decide) .nil
  | comment hbody => exact .comment hbody .nil

/-- All of a text is divided where a line follows it. -/
theorem Divides.divided_line {text : List Char} {tokens : List Token}
    (hdivides : Divides text tokens) (lines : List Char) :
    Divided (text ++ ['\n']) lines tokens := by
  obtain ⟨rfl, hdivided, hcloses⟩ := hdivides
  have hline := hdivided.append_line lines
  rw [List.append_cons] at hline
  rw [List.append_assoc]
  exact hline.trivia hcloses.trivia_line

/-- A place in lines that stand below a text. -/
def Position.below (above : List Char) (position : Position) : Position :=
  ⟨position.line + (above.count '\n' + 1), position.column⟩

/-- The same token, in lines that stand below a text. -/
def Token.below (above : List Char) (token : Token) : Token :=
  ⟨token.value, token.position.below above⟩

/-- The place behind a text is further down if lines stand above the text. -/
theorem Position.behind_line (above text : List Char) :
    behind (above ++ '\n' :: text) = (behind text).below above := by
  have hcolumn : (above ++ '\n' :: text).reverse.takeWhile (· != '\n') =
      text.reverse.takeWhile (· != '\n') := by
    have hstops : (('\n' :: above.reverse).takeWhile (· != '\n')) = [] := rfl
    rw [List.reverse_append, List.reverse_cons, List.append_assoc, List.singleton_append,
      List.takeWhile_append, hstops, List.append_nil]
    split
    · next hlength => exact (List.takeWhile_sublist _).eq_of_length hlength |>.symm
    · rfl
  rw [behind, hcolumn, behind, below, List.count_append, List.count_cons_self]
  simp only [Position.mk.injEq, and_true]
  omega

/-- What lies below a text is divided as it is on its own. -/
theorem Divided.append_below {front rest above : List Char} {lexed tokens : List Token}
    (hdivided : Divided front rest tokens)
    (habove : Divided (above ++ ['\n']) (front ++ rest) lexed) :
    Divided (above ++ '\n' :: front) rest (lexed ++ tokens.map (Token.below above)) := by
  induction hdivided with
  | start => rwa [List.map_nil, List.append_nil]
  | @trivia front gap rest tokens hgap _ ih =>
    rw [List.append_assoc] at habove
    have hfront := (ih habove).trivia hgap
    rwa [List.append_assoc, List.cons_append] at hfront
  | @lexeme front text rest kind tokens hmeans _ ih =>
    rw [List.append_assoc] at habove
    have hfront := (ih habove).lexeme hmeans
    rw [Position.behind_line, List.append_assoc, List.append_assoc, List.cons_append] at hfront
    rwa [List.map_append]

/-- A text that divides has the same tokens where lines follow it, and the lines below it have
theirs. -/
theorem Divides.append_line {text lines : List Char} {lexed tokens : List Token}
    (hdivides : Divides text lexed) (hlines : Divides lines tokens) :
    Divides (text ++ '\n' :: lines) (lexed ++ tokens.map (Token.below text)) := by
  have habove := hdivides.divided_line lines
  obtain ⟨rfl, hdivided, hcloses⟩ := hlines
  have hbelow := hdivided.append_below habove
  exact ⟨by rw [List.append_assoc, List.cons_append], hbelow, hcloses⟩

/-- A fault below a text that divides is a fault of the whole. -/
theorem Divides.breaks_line {text lines : List Char} {lexed : List Token} {error : SourceError}
    (hdivides : Divides text lexed) (hlines : Breaks lines error) :
    ∃ context,
      Breaks (text ++ '\n' :: lines) ⟨error.fault, error.position.below text, context⟩ := by
  have habove := hdivides.divided_line lines
  obtain ⟨rfl, hdivided, hfaulty⟩ := hlines
  have hbelow := hdivided.append_below habove
  have hbreaks := Breaks.mk (by rw [List.append_assoc, List.cons_append]) hbelow hfaulty
  rw [List.append_assoc, List.cons_append, Position.behind_line] at hbreaks
  exact ⟨_, hbreaks⟩

/-- The characters of a text and of the lines below it. -/
theorem toList_append_line (text lines : String) :
    (text ++ "\n" ++ lines).toList = text.toList ++ '\n' :: lines.toList := by
  rw [String.toList_append, String.toList_append, List.append_assoc]
  rfl

/-- Lines that have tokens have them below every text that divides. -/
theorem Divides.tokenize_append_ok {text lines : String} {lexed below : List Token}
    (hdivides : Divides text.toList lexed) (hbelow : tokenize lines = .ok below) :
    tokenize (text ++ "\n" ++ lines) = .ok (lexed ++ below.map (Token.below text.toList)) := by
  obtain ⟨rest, hrest, rfl⟩ := exists_divides_of_tokenize hbelow
  have hwhole := hdivides.append_line hrest
  rw [← toList_append_line] at hwhole
  have hend : Token.below text.toList ⟨.eof, .behind lines.toList⟩ =
      ⟨.eof, .behind (text ++ "\n" ++ lines).toList⟩ := by
    rw [toList_append_line, Position.behind_line]
    rfl
  rw [hwhole.tokenize_eq, List.map_append, List.map_singleton, hend, List.append_assoc]

/-- Lines that are refused are refused below every text that divides. -/
theorem Divides.tokenize_append_error {text lines : String} {lexed : List Token}
    {error : SourceError} (hdivides : Divides text.toList lexed)
    (herror : tokenize lines = .error error) :
    ∃ context, tokenize (text ++ "\n" ++ lines) =
      .error ⟨error.fault, error.position.below text.toList, context⟩ := by
  obtain ⟨context, hbreaks⟩ := hdivides.breaks_line (breaks_of_tokenize herror)
  rw [← toList_append_line] at hbreaks
  exact ⟨context, hbreaks.tokenize_eq⟩

/-- If a text has tokens and goes on with further lines, then the tokens of the whole are those of
the text without their end mark and those of the lines, further down. There are none if the lines
have none, and then the whole is refused for the same fault, further down. -/
theorem tokenize_append_line {text : String} {above : List Token}
    (habove : tokenize text = .ok above) (lines : String) :
    ∃ lexed, above = lexed ++ [⟨.eof, .behind text.toList⟩] ∧
      (∀ tokens, tokenize (text ++ "\n" ++ lines) = .ok tokens ↔
        ∃ below, tokenize lines = .ok below ∧
          tokens = lexed ++ below.map (Token.below text.toList)) ∧
      ∀ fault position,
        (∃ context, tokenize (text ++ "\n" ++ lines) = .error ⟨fault, position, context⟩) ↔
          ∃ found context, tokenize lines = .error ⟨fault, found, context⟩ ∧
            position = found.below text.toList := by
  obtain ⟨lexed, hdivides, rfl⟩ := exists_divides_of_tokenize habove
  refine ⟨lexed, rfl, ?_⟩
  cases hlines : tokenize lines with
  | ok below =>
    have hok := hdivides.tokenize_append_ok hlines
    simp [hok, eq_comm]
  | error error =>
    obtain ⟨context, hfails⟩ := hdivides.tokenize_append_error hlines
    refine ⟨fun tokens => by simp [hfails], fun fault position => ⟨?_, ?_⟩⟩
    · rintro ⟨other, hother⟩
      rw [hfails] at hother
      cases hother
      exact ⟨error.position, error.context, rfl, rfl⟩
    · rintro ⟨found, other, hother, rfl⟩
      cases hother
      exact ⟨context, hfails⟩

/-- Digits that could take a mark and a comment that could go on do neither: the letter on the
next line is refused there, for what it is. -/
theorem tokenize_mark_on_next_line :
    tokenize "12 ADD :b;c ;10" = .ok [⟨.operand (.integer 12), ⟨1, 1⟩⟩,
        ⟨.instruction .add, ⟨1, 4⟩⟩, ⟨.operand (.label "b;c"), ⟨1, 8⟩⟩, ⟨.eof, ⟨1, 16⟩⟩] ∧
      ∃ context, tokenize ("12 ADD :b;c ;10" ++ "\n" ++ "h") =
        .error ⟨.unknownName "H", ⟨2, 1⟩, context⟩ := by
  have habove : tokenize "12 ADD :b;c ;10" = .ok [⟨.operand (.integer 12), ⟨1, 1⟩⟩,
      ⟨.instruction .add, ⟨1, 4⟩⟩, ⟨.operand (.label "b;c"), ⟨1, 8⟩⟩, ⟨.eof, ⟨1, 16⟩⟩] := by
    decide +kernel
  have hlines : tokenize "h" = .error ⟨.unknownName "H", ⟨1, 1⟩, "h >  < "⟩ := by decide +kernel
  obtain ⟨_, _, _, herrors⟩ := tokenize_append_line habove "h"
  exact ⟨habove, (herrors _ _).mpr ⟨⟨1, 1⟩, _, hlines, by decide +kernel⟩⟩

end ChipEight
