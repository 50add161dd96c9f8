import ChipEight.Proofs.Text.Lexing
import ChipEight.Proofs.Text.Lexemes

/-!
# Spellings of tokens

A token may be spelled with letters of either case and numbers with leading zeros. Whatever
its spelling, it is read as the token if a separator or the end of the text follows, so that
spelled tokens with separators between them are read one by one.
-/

namespace ChipEight

/-- The ways to spell a token. Numbers carry the mark of their radix, which is lower case. -/
inductive Spelling : List Char → Token.Kind → Prop
  | instruction {letters : List Char} {mnemonic : Mnemonic} (hdata : mnemonic ≠ .data)
      (hletters : letters.map Char.toUpper = mnemonic.text.toList) :
      Spelling letters (.instruction mnemonic)
  | data {letters : List Char} (hletters : letters.map Char.toUpper = Mnemonic.data.text.toList) :
      Spelling letters .data
  | integer {digits : List Char} {value : Nat}
      (hdigits : Numeral.read 16 Machine.numberBound digits = .ok value) :
      Spelling (digits ++ ['h']) (.operand (.integer value))
  | register {digits : List Char} {number : Nat}
      (hdigits : Numeral.read 16 Machine.numberBound digits = .ok number) :
      Spelling ('$' :: digits) (.operand (.register number))
  | label {name : List Char} (hnonempty : name ≠ [])
      (hname : ∀ c ∈ name, Lexeme.isSeparator c = false) :
      Spelling (':' :: name) (.operand (.label (String.ofList name)))

namespace Lexeme

/-- What may follow a token: a separator or nothing. -/
def EndsToken (text : List Char) : Prop :=
  ∀ c ∈ text.head?, isSeparator c = true

/-- A word ends before a separator. -/
theorem EndsToken.stops {p : Char → Prop} (hword : ∀ c, p c → isSeparator c = false)
    {text : List Char} (hends : EndsToken text) : ∀ c ∈ text.head?, ¬p c := by
  intro c hmem hp
  have hseparator := hword c hp
  rw [hends c hmem] at hseparator
  cases hseparator

/-- The case of a letter does not change that it is one. -/
theorem isAlpha_toUpper (c : Char) : c.toUpper.isAlpha = c.isAlpha := by
  rcases Nat.lt_or_ge c.toNat 128 with hlt | hle
  · exact @Numeral.of_ascii (fun c => c.toUpper.isAlpha = c.isAlpha) (by decide) c hlt
  · rw [Numeral.toUpper_eq_self hle]

/-- Keywords consist of letters, in either case. -/
theorem isAlpha_of_keyword {letters : List Char} {mnemonic : Mnemonic}
    (hletters : letters.map Char.toUpper = mnemonic.text.toList) :
    ∀ c ∈ letters, c.isAlpha = true := by
  have hall : ∀ mnemonic ∈ Mnemonic.all, mnemonic.text.toList.all Char.isAlpha = true := by
    decide
  have hmem : mnemonic ∈ Mnemonic.all := by cases mnemonic <;> decide
  intro c hc
  rw [← isAlpha_toUpper]
  exact List.all_eq_true.mp (hall mnemonic hmem) _ (hletters ▸ List.mem_map_of_mem hc)

/-- No keyword starts with digits and the mark of hexadecimal numbers. -/
theorem head?_dropWhile_keyword_ne {c : Char} {cs : List Char} {mnemonic : Mnemonic}
    (hletters : (c :: cs).map Char.toUpper = mnemonic.text.toList)
    (hdigit : Numeral.isHexDigit c = true) :
    (cs.dropWhile Numeral.isHexDigit).head? ≠ some 'h' := by
  have hall : ∀ mnemonic ∈ Mnemonic.all,
      (mnemonic.text.toList.head?.any Numeral.isHexDigit) = true →
        (mnemonic.text.toList.tail.dropWhile Numeral.isHexDigit).head? ≠ some 'H' := by
    decide
  have hmem : mnemonic ∈ Mnemonic.all := by cases mnemonic <;> decide
  have hcase : Numeral.isHexDigit ∘ Char.toUpper = Numeral.isHexDigit := by
    funext other
    simp [Numeral.isHexDigit, Numeral.digit?_toUpper]
  have hupper := hall mnemonic hmem
  rw [← hletters, List.map_cons, List.head?_cons, List.tail_cons, List.dropWhile_map, hcase,
    List.head?_map] at hupper
  intro hmark
  rw [hmark] at hupper
  refine hupper ?_ rfl
  simpa [Numeral.isHexDigit, Numeral.digit?_toUpper] using hdigit

/-- A keyword does not start with a number. -/
theorem number?_keyword {c : Char} {cs tail : List Char} {mnemonic : Mnemonic}
    (hletters : (c :: cs).map Char.toUpper = mnemonic.text.toList) (hends : EndsToken tail) :
    number? c (cs ++ tail) = none := by
  have halpha := isAlpha_of_keyword hletters c List.mem_cons_self
  by_cases hdigit : Numeral.isHexDigit c = true
  · refine number?_eq_none ?_
    have hletter : Numeral.digit? 10 c = none :=
      @Numeral.of_ascii (fun c => c.isAlpha = true → Numeral.digit? 10 c = none) (by decide) c
        (toNat_lt_of_isAlpha halpha) halpha
    rcases radixOf_cases (cs ++ tail) with hle | ⟨_, hmark⟩
    · exact Numeral.digit?_eq_none_of_le hletter hle
    · rw [List.dropWhile_append] at hmark
      split at hmark
      · have hstops : ∀ c ∈ tail.head?, Numeral.isHexDigit c = false := fun c hmem =>
          eq_false_of_ne_true (hends.stops (fun _ => not_separator_of_isHexDigit) c hmem)
        rw [(takeWhile_of_stops hstops).2] at hmark
        exact absurd (hends 'h' hmark) (by decide)
      · next hrest =>
        rw [List.isEmpty_iff] at hrest
        rw [List.head?_append_of_ne_nil _ hrest] at hmark
        exact absurd hmark (head?_dropWhile_keyword_ne hletters hdigit)
  · exact number?_eq_none (digit?_eq_none (Bool.not_eq_true _ ▸ hdigit) _)

/-- A keyword means its mnemonic. -/
theorem means_keyword {letters tail : List Char} {mnemonic : Mnemonic}
    (hletters : letters.map Char.toUpper = mnemonic.text.toList) (hends : EndsToken tail) :
    Means letters tail mnemonic.keyword := by
  have hnonempty : letters ≠ [] := by
    rintro rfl
    cases mnemonic <;> cases hletters
  refine .keyword ⟨hnonempty, isAlpha_of_keyword hletters, ?_⟩ ?_ hletters
  · exact hends.stops fun _ => not_separator_of_isAlpha
  · obtain ⟨c, cs, rfl⟩ := List.exists_cons_of_ne_nil hnonempty
    rw [List.cons_append, startsNumber_iff]
    exact not_not.mpr (number?_keyword hletters hends)

/-- Digits that are read are a run before what ends a token or before a mark. -/
theorem run_of_read {digits tail : List Char} {value : Nat}
    (hdigits : Numeral.read 16 Machine.numberBound digits = .ok value)
    (hstops : ∀ c ∈ tail.head?, ¬Numeral.Hexadecimal c) :
    Run Numeral.Hexadecimal digits tail ∧ value < Machine.numberBound ∧
      Numeral.Denotes 16 digits value := by
  have hnonempty := (Numeral.digits_of_read hdigits).1
  obtain ⟨hlt, hvalue⟩ :=
    (Numeral.read_eq_ok_iff (by decide) (Nat.le_refl 16) (by decide) hnonempty).mp hdigits
  exact ⟨⟨hnonempty, hvalue.hexadecimal (Nat.le_refl 16), hstops⟩, hlt, hvalue⟩

end Lexeme

/-- A spelled token is a lexeme that means it, if a separator or nothing follows. -/
theorem Spelling.means {text tail : List Char} {kind : Token.Kind}
    (hspelling : Spelling text kind) (hends : Lexeme.EndsToken tail) :
    Lexeme.Means text tail kind := by
  cases hspelling with
  | instruction hdata hletters =>
    rw [← Mnemonic.keyword_of_ne hdata]
    exact Lexeme.means_keyword hletters hends
  | data hletters => exact Lexeme.means_keyword hletters hends
  | @integer digits value hdigits =>
    have hmark : ∀ c ∈ ('h' :: tail).head?, ¬Numeral.Hexadecimal c := fun c hmem => by
      rw [← Option.some.inj hmem]
      decide
    obtain ⟨hrun, hlt, hvalue⟩ := Lexeme.run_of_read hdigits hmark
    exact .integer ⟨hrun, .hexadecimal⟩ hvalue hlt
  | register hdigits =>
    have hword : ∀ c, Numeral.Hexadecimal c → Lexeme.isSeparator c = false := fun _ hdigit =>
      Lexeme.not_separator_of_isHexDigit (Numeral.isHexDigit_iff.mpr hdigit)
    obtain ⟨hrun, hlt, hvalue⟩ := Lexeme.run_of_read hdigits (hends.stops hword)
    exact .register hrun hvalue hlt
  | label hnonempty hname =>
    refine .label ⟨hnonempty, fun c hmem => ?_, fun c hmem => ?_⟩
    · exact Lexeme.isSeparator_eq_false_iff.mp (hname c hmem)
    · exact not_not.mpr (Lexeme.isSeparator_iff.mp (hends c hmem))

/-- A spelled token in front of a text adds its kind. -/
theorem Lexes.of_spelling {text tail : List Char} {kind : Token.Kind} {kinds : List Token.Kind}
    (hspelling : Spelling text kind) (hends : Lexeme.EndsToken tail) (hlexes : Lexes tail kinds) :
    Lexes (text ++ tail) (kind :: kinds) := by
  obtain ⟨c, cs, rfl, hseparator, hcomment, lexeme, hread, rfl, hlength⟩ :=
    (hspelling.means hends).exists_read
  have hdrop : (c :: (cs ++ tail)).drop lexeme.length = tail := by
    rw [hlength, ← List.cons_append, List.drop_left]
  rw [List.cons_append]
  exact .lexeme (Lexeme.skip_cons hseparator hcomment _) hread (by rwa [hdrop])

end ChipEight
