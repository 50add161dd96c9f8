import ChipEight.Proofs.Text.Separation

/-!
# Reading back what is written

Tokens may be written one after another with trivia between them. The text of each token is
its spelling, in which letters of mnemonics and of digits may have either case. However the
tokens are written, the text is read as these tokens and the end mark, and nothing else.
-/

namespace ChipEight

/-- The texts that a token may be written as: its spelling in letters of either case. The mark
of a number is lower case, and the name of a label is written as it is. -/
inductive Token.Kind.Written : Token.Kind → List Char → Prop
  | instruction {mnemonic : Mnemonic} {letters : List Char} (hdata : mnemonic ≠ .data)
      (htext : letters.map Char.toUpper = (Token.Kind.instruction mnemonic).text.toList) :
      Written (.instruction mnemonic) letters
  | data {letters : List Char}
      (htext : letters.map Char.toUpper = Token.Kind.data.text.toList) : Written .data letters
  | integer {value : Nat} {digits : List Char} (hlt : value < Machine.numberBound)
      (htext : digits.map Char.toUpper ++ ['h'] =
        (Token.Kind.operand (.integer value)).text.toList) :
      Written (.operand (.integer value)) (digits ++ ['h'])
  | register {number : Nat} {digits : List Char} (hlt : number < Machine.numberBound)
      (htext : '$' :: digits.map Char.toUpper =
        (Token.Kind.operand (.register number)).text.toList) :
      Written (.operand (.register number)) ('$' :: digits)
  | label {name : String} (hnonempty : name ≠ "")
      (hname : ∀ c ∈ name.toList, Lexeme.isSeparator c = false) :
      Written (.operand (.label name)) (Token.Kind.operand (.label name)).text.toList

/-- A text in which tokens are written one after another. Trivia that starts with a separator
stands behind each of them, and may be missing behind the last. -/
inductive WrittenTokens : List Token.Kind → List Char → Prop
  | nil : WrittenTokens [] []
  | last {kind : Token.Kind} {text : List Char} (hwritten : kind.Written text) :
      WrittenTokens [kind] text
  | cons {kind : Token.Kind} {kinds : List Token.Kind} {text gap rest : List Char} {c : Char}
      (hwritten : kind.Written text) (hseparator : Lexeme.isSeparator c = true)
      (hgap : Trivia gap) (hrest : WrittenTokens kinds rest) :
      WrittenTokens (kind :: kinds) (text ++ c :: (gap ++ rest))

/-- Trivia in front of a text does not matter. -/
theorem Trivia.lexes_append {gap text : List Char} {kinds : List Token.Kind} (hgap : Trivia gap)
    (hlexes : Lexes text kinds) : Lexes (gap ++ text) kinds := by
  refine hlexes.of_skip_eq ?_
  rw [Lexeme.skip, hgap.trivia_append, List.drop_length_add_append, Lexeme.skip]

/-- What a token is written as spells it. -/
theorem Token.Kind.Written.spelling {kind : Token.Kind} {text : List Char}
    (hwritten : kind.Written text) : Spelling text kind := by
  cases hwritten with
  | instruction hdata htext => exact .instruction hdata htext
  | data htext => exact .data htext
  | @integer value digits hlt htext =>
    rw [Token.Kind.text, Operand.text, String.toList_append] at htext
    exact .integer (Numeral.read_of_map_toUpper hlt (List.append_cancel_right htext))
  | @register number digits hlt htext =>
    rw [Token.Kind.text, Operand.text, String.toList_append] at htext
    exact .register (Numeral.read_of_map_toUpper hlt (List.cons.inj htext).2)
  | label hnonempty hname => exact (Operand.Writable.label hnonempty hname).spelling

/-- Tokens that are written one after another are read so. -/
theorem WrittenTokens.lexes {kinds : List Token.Kind} {text : List Char}
    (hwritten : WrittenTokens kinds text) : Lexes text (kinds ++ [.eof]) := by
  induction hwritten with
  | nil => exact .done rfl
  | @last kind text hwritten =>
    have hends : Lexeme.EndsToken [] := fun _ hmem => nomatch hmem
    have hlexes := Lexes.of_spelling hwritten.spelling hends (.done rfl)
    rwa [List.append_nil] at hlexes
  | @cons kind kinds text gap rest c hwritten hseparator hgap _ ih =>
    have hends : Lexeme.EndsToken (c :: (gap ++ rest)) := fun first hmem =>
      Option.some.inj hmem ▸ hseparator
    exact Lexes.of_spelling hwritten.spelling hends
      ((hgap.lexes_append ih).of_skip_eq (Lexeme.skip_cons_separator hseparator _))

/-- A text in which tokens are written, with trivia in front, has the kinds of these tokens and
then the end mark. -/
theorem exists_tokenize_of_written {kinds : List Token.Kind} {leading text : List Char}
    (hleading : Trivia leading) (hwritten : WrittenTokens kinds text) :
    ∃ tokens, tokenize (String.ofList (leading ++ text)) = .ok tokens ∧
      tokens.map (·.value) = kinds ++ [.eof] := by
  refine exists_tokenize_of_lexes ?_
  rw [String.toList_ofList]
  exact hleading.lexes_append hwritten.lexes

/-- Mnemonics that look like numbers, a number that looks like a mnemonic, and a label that holds
the mark of a comment are read back. -/
theorem exists_tokenize_of_mixed_cases :
    Trivia ";17n\n ".toList ∧
      WrittenTokens [.instruction .add, .operand (.integer 0xADD), .operand (.label "b;cd"), .data,
        .operand (.register 0xA)] "aDd,;h\nAdDh :b;cd\tDaTa $a".toList ∧
      ∃ tokens, tokenize ";17n\n aDd,;h\nAdDh :b;cd\tDaTa $a" = .ok tokens ∧
        tokens.map (·.value) = [.instruction .add, .operand (.integer 0xADD),
          .operand (.label "b;cd"), .data, .operand (.register 0xA), .eof] := by
  have hleading : Trivia ";17n\n ".toList :=
    @Trivia.comment ['1', '7', 'n'] [' '] (by decide) (.separator (by decide) .nil)
  have hregister : WrittenTokens [.operand (.register 0xA)] ['$', 'a'] :=
    .last (@Token.Kind.Written.register 0xA ['a'] (by decide) (by decide))
  have hdata := @WrittenTokens.cons _ _ ['D', 'a', 'T', 'a'] [] _ ' '
    (.data (by decide)) (by decide) .nil hregister
  have hname : ∀ c ∈ "b;cd".toList, Lexeme.isSeparator c = false := by
    have hany : "b;cd".toList.any Lexeme.isSeparator = false := by decide
    simpa using hany
  have hlabel := @WrittenTokens.cons _ _ _ [] _ '\t'
    (@Token.Kind.Written.label "b;cd" (by decide) hname) (by decide) .nil hdata
  have hinteger := @WrittenTokens.cons _ _ _ [] _ ' '
    (@Token.Kind.Written.integer 0xADD ['A', 'd', 'D'] (by decide) (by decide)) (by decide) .nil
    hlabel
  have hwritten : WrittenTokens _ "aDd,;h\nAdDh :b;cd\tDaTa $a".toList :=
    @WrittenTokens.cons (.instruction .add) _ ['a', 'D', 'd'] [';', 'h', '\n'] _ ','
      (.instruction (by decide) (by decide)) (by decide)
      (@Trivia.comment ['h'] [] (by decide) .nil) hinteger
  have htext : String.ofList (";17n\n ".toList ++ "aDd,;h\nAdDh :b;cd\tDaTa $a".toList) =
      ";17n\n aDd,;h\nAdDh :b;cd\tDaTa $a" := by
    rw [← String.toList_append, String.ofList_toList]
    decide
  exact ⟨hleading, hwritten, htext ▸ exists_tokenize_of_written hleading hwritten⟩

end ChipEight
