import ChipEight.CommandLine.Number
import ChipEight.Proofs.Text.Lexemes

/-!
# The grammar of numbers on the command line

A number is a numeral with a mark in front, with a mark behind it, or without one, and blanks
around it do not count. A text that has a mark is never read as if it had none, even where this
means that it is refused. Whatever way a number is written, it is read back.
-/

namespace ChipEight

namespace Text

/-- Some characters are blank. -/
def Blank (text : List Char) : Prop :=
  ∀ c ∈ text, isBlank c = true

/-- A text has no blanks at its ends. -/
structure Tight (text : List Char) : Prop where
  head : ∀ c ∈ text.head?, isBlank c = false
  last : ∀ c ∈ text.getLast?, isBlank c = false

/-- A text has a tight core between blanks. -/
def Surrounds (core text : List Char) : Prop :=
  ∃ front back, text = front ++ core ++ back ∧ Blank front ∧ Blank back ∧ Tight core

/-- Blanks in front of a text do not count. -/
theorem dropWhile_blank_append {front : List Char} (hfront : Blank front) (text : List Char) :
    (front ++ text).dropWhile isBlank = text.dropWhile isBlank :=
  List.dropWhile_append_of_pos hfront

/-- A text that starts with no blank keeps all its characters. -/
theorem dropWhile_of_head {text : List Char} (hhead : ∀ c ∈ text.head?, isBlank c = false) :
    text.dropWhile isBlank = text :=
  (takeWhile_of_stops hhead).2

/-- What is between blanks remains when they are cut off. -/
theorem trim_of_surrounds {core text : List Char} (hsurrounds : Surrounds core text) :
    trim text = core := by
  obtain ⟨front, back, rfl, hfront, hback, hcore⟩ := hsurrounds
  have hreverse : Blank back.reverse := fun c hmem => hback c (List.mem_reverse.mp hmem)
  have hlast : ∀ c ∈ core.reverse.head?, isBlank c = false := by
    rw [List.head?_reverse]
    exact hcore.last
  rw [trim, List.append_assoc, dropWhile_blank_append hfront]
  obtain _ | ⟨c, rest⟩ := core
  · rw [List.nil_append, List.dropWhile_eq_nil_iff.mpr hback]
    rfl
  · have hhead : ∀ first ∈ (c :: rest ++ back).head?, isBlank first = false := hcore.head
    rw [dropWhile_of_head hhead, List.reverse_append, dropWhile_blank_append hreverse,
      dropWhile_of_head hlast, List.reverse_reverse]

/-- What remains of a text when blanks are cut off is between them. -/
theorem surrounds_trim (text : List Char) : Surrounds (trim text) text := by
  have hfront : text = text.takeWhile isBlank ++ text.dropWhile isBlank :=
    List.takeWhile_append_dropWhile.symm
  have hhead := stops_dropWhile isBlank text
  rw [trim]
  generalize text.dropWhile isBlank = tail at hfront hhead ⊢
  have hback : tail = (tail.reverse.dropWhile isBlank).reverse ++
      (tail.reverse.takeWhile isBlank).reverse := by
    rw [← List.reverse_append, List.takeWhile_append_dropWhile, List.reverse_reverse]
  refine ⟨text.takeWhile isBlank, (tail.reverse.takeWhile isBlank).reverse, ?_,
    fun c hmem => List.mem_takeWhile_imp hmem, ?_, ?_, ?_⟩
  · rw [List.append_assoc, ← hback]
    exact hfront
  · exact fun c hmem => List.mem_takeWhile_imp (List.mem_reverse.mp hmem)
  · -- the core starts as the tail does, unless it is empty
    generalize (tail.reverse.dropWhile isBlank).reverse = core at hback
    obtain _ | ⟨first, core⟩ := core
    · exact fun c hmem => nomatch hmem
    · rw [hback] at hhead
      exact hhead
  · rw [List.getLast?_reverse]
    exact stops_dropWhile isBlank _

/-- The core of a text is what remains when the blanks around it are cut off. -/
theorem trim_eq_iff {text core : List Char} : trim text = core ↔ Surrounds core text :=
  ⟨fun htrim => htrim ▸ surrounds_trim text, trim_of_surrounds⟩

end Text

namespace Numeral

/-- A numeral of a radix: one or more digits that denote a number below a bound, with or without a
plus sign in front. -/
inductive Unsigned (radix bound : Nat) : List Char → Nat → Prop
  | bare {digits : List Char} {value : Nat} (hdigits : digits ≠ [])
      (hvalue : Denotes radix digits value) (hlt : value < bound) :
      Unsigned radix bound digits value
  | plus {digits : List Char} {value : Nat} (hdigits : digits ≠ [])
      (hvalue : Denotes radix digits value) (hlt : value < bound) :
      Unsigned radix bound ('+' :: digits) value

/-- A plus sign is no digit. -/
theorem not_denotes_plus {radix value : Nat} {digits : List Char} (hradix : radix ≤ 16) :
    ¬Denotes radix ('+' :: digits) value := fun hvalue =>
  absurd (hvalue.hexadecimal hradix '+' List.mem_cons_self) (by decide)

/-- A numeral is read as the number that it denotes, and nothing else is read. -/
theorem readUnsigned_eq_ok_iff {radix bound value : Nat} {text : List Char} (hpos : 0 < radix)
    (hradix : radix ≤ 16) (hbound : 0 < bound) :
    readUnsigned radix bound text = .ok value ↔ Unsigned radix bound text value := by
  by_cases hplus : ∃ c cs, text = '+' :: c :: cs
  · obtain ⟨c, cs, rfl⟩ := hplus
    rw [readUnsigned, read_eq_ok_iff hpos hradix hbound (List.cons_ne_nil c cs)]
    constructor
    · rintro ⟨hlt, hvalue⟩
      exact .plus (List.cons_ne_nil c cs) hvalue hlt
    · intro hunsigned
      cases hunsigned with
      | bare _ hvalue _ => exact absurd hvalue (not_denotes_plus hradix)
      | plus _ hvalue hlt => exact ⟨hlt, hvalue⟩
  · have hread : readUnsigned radix bound text = read radix bound text := by
      unfold readUnsigned
      split
      · next c cs => exact absurd ⟨c, cs, rfl⟩ hplus
      · rfl
    rw [hread]
    obtain _ | ⟨c, cs⟩ := text
    · refine iff_of_false nofun fun hunsigned => ?_
      cases hunsigned with
      | bare hdigits => exact hdigits rfl
    · rw [read_eq_ok_iff hpos hradix hbound (List.cons_ne_nil c cs)]
      constructor
      · rintro ⟨hlt, hvalue⟩
        exact .bare (List.cons_ne_nil c cs) hvalue hlt
      · intro hunsigned
        cases hunsigned with
        | bare _ hvalue hlt => exact ⟨hlt, hvalue⟩
        | plus hdigits =>
          obtain ⟨next, rest, rfl⟩ := List.exists_cons_of_ne_nil hdigits
          exact absurd ⟨next, rest, rfl⟩ hplus

end Numeral

namespace CommandLine

/-- The mark of hexadecimal numbers stands in front of a text. -/
def IsPrefixed (text : List Char) : Prop :=
  ∃ mark digits, text = '0' :: mark :: digits ∧ (mark = 'x' ∨ mark = 'X')

/-- A text is a number in one of three forms: behind a mark in front; if there is none, in front
of a mark at the end; and if there is none either, without a mark. -/
inductive IsNumber : List Char → Nat → Prop
  | prefixed {mark : Char} {numeral : List Char} {value : Nat} (hmark : mark = 'x' ∨ mark = 'X')
      (hnumeral : Numeral.Unsigned 16 Machine.numberBound numeral value) :
      IsNumber ('0' :: mark :: numeral) value
  | suffixed {numeral : List Char} {value : Nat} (hfront : ¬IsPrefixed (numeral ++ ['h']))
      (hnumeral : Numeral.Unsigned 16 Machine.numberBound numeral value) :
      IsNumber (numeral ++ ['h']) value
  | decimal {numeral : List Char} {value : Nat} (hfront : ¬IsPrefixed numeral)
      (hback : numeral.getLast? ≠ some 'h')
      (hnumeral : Numeral.Unsigned 10 Machine.numberBound numeral value) :
      IsNumber numeral value

/-- What is behind a mark in front is hexadecimal. -/
theorem isNumber_prefixed_iff {mark : Char} {numeral : List Char} {value : Nat}
    (hmark : mark = 'x' ∨ mark = 'X') :
    IsNumber ('0' :: mark :: numeral) value ↔
      Numeral.Unsigned 16 Machine.numberBound numeral value := by
  refine ⟨fun hnumber => ?_, .prefixed hmark⟩
  generalize htext : '0' :: mark :: numeral = text at hnumber
  cases hnumber with
  | prefixed _ hnumeral =>
    obtain ⟨_, _, rfl⟩ := htext
    exact hnumeral
  | suffixed hfront _ => exact absurd ⟨mark, numeral, htext.symm, hmark⟩ hfront
  | decimal hfront _ _ => exact absurd ⟨mark, numeral, htext.symm, hmark⟩ hfront

/-- What is in front of a mark at the end is hexadecimal if there is no mark in front. -/
theorem isNumber_suffixed_iff {numeral : List Char} {value : Nat}
    (hfront : ¬IsPrefixed (numeral ++ ['h'])) :
    IsNumber (numeral ++ ['h']) value ↔
      Numeral.Unsigned 16 Machine.numberBound numeral value := by
  refine ⟨fun hnumber => ?_, .suffixed hfront⟩
  generalize htext : numeral ++ ['h'] = text at hnumber
  cases hnumber with
  | prefixed hmark _ => exact absurd ⟨_, _, htext, hmark⟩ hfront
  | suffixed _ hnumeral => exact List.append_cancel_right htext ▸ hnumeral
  | decimal _ hback _ => exact absurd (htext ▸ List.getLast?_concat) hback

/-- What has no mark is decimal. -/
theorem isNumber_decimal_iff {numeral : List Char} {value : Nat} (hfront : ¬IsPrefixed numeral)
    (hback : numeral.getLast? ≠ some 'h') :
    IsNumber numeral value ↔ Numeral.Unsigned 10 Machine.numberBound numeral value := by
  refine ⟨fun hnumber => ?_, .decimal hfront hback⟩
  cases hnumber with
  | prefixed hmark _ => exact absurd ⟨_, _, rfl, hmark⟩ hfront
  | suffixed _ _ => exact absurd List.getLast?_concat hback
  | decimal _ _ hnumeral => exact hnumeral

/-- A text is read as the number that it is between blanks, and as nothing else. -/
theorem readNumber_eq_ok_iff {text : String} {value : Nat} :
    readNumber text = .ok value ↔
      ∃ core, Text.Surrounds core text.toList ∧ IsNumber core value := by
  have hbound : 0 < Machine.numberBound := by decide
  have hread : ∀ radix, 0 < radix → radix ≤ 16 → ∀ numeral,
      Numeral.readUnsigned radix Machine.numberBound numeral = .ok value ↔
        Numeral.Unsigned radix Machine.numberBound numeral value :=
    fun radix hpos hradix numeral => Numeral.readUnsigned_eq_ok_iff hpos hradix hbound
  simp only [← Text.trim_eq_iff, exists_eq_left', readNumber]
  generalize Text.trim text.toList = core
  split
  · next digits => rw [isNumber_prefixed_iff (Or.inl rfl), hread 16 (by decide) (by decide)]
  · next digits => rw [isNumber_prefixed_iff (Or.inr rfl), hread 16 (by decide) (by decide)]
  · next hlower hupper =>
    have hfront : ¬IsPrefixed core := by
      rintro ⟨mark, digits, rfl, rfl | rfl⟩
      · exact hlower digits rfl
      · exact hupper digits rfl
    by_cases hback : core.getLast? = some 'h'
    · obtain ⟨numeral, rfl⟩ := List.getLast?_eq_some_iff.mp hback
      rw [if_pos hback, List.dropLast_concat, isNumber_suffixed_iff hfront,
        hread 16 (by decide) (by decide)]
    · rw [if_neg hback, isNumber_decimal_iff hfront hback, hread 10 (by decide) (by decide)]

/-- A number is written in hexadecimal behind a mark or in front of one, with any number of leading
zeros and in letters of either case, or it is written in decimal. -/
inductive Writes (value : Nat) : List Char → Prop
  | prefixed {mark : Char} {width : Nat} {digits : List Char} (hmark : mark = 'x' ∨ mark = 'X')
      (hdigits : digits.map Char.toUpper = (Numeral.hex width value).toList) :
      Writes value ('0' :: mark :: digits)
  | suffixed {width : Nat} {digits : List Char}
      (hdigits : digits.map Char.toUpper = (Numeral.hex width value).toList) :
      Writes value (digits ++ ['h'])
  | decimal : Writes value (toString value).toList

/-- A number in hexadecimal consists of digits that denote it. -/
theorem denotes_of_hex {width value : Nat} {digits : List Char}
    (hdigits : digits.map Char.toUpper = (Numeral.hex width value).toList) :
    digits ≠ [] ∧ Numeral.Denotes 16 digits value := by
  have hread := Numeral.read_of_map_toUpper (Nat.lt_succ_self value) hdigits
  have hne := (Numeral.digits_of_read hread).1
  exact ⟨hne, ((Numeral.read_eq_ok_iff (by decide) (Nat.le_refl 16) (Nat.succ_pos value)
    hne).mp hread).2⟩

/-- A number in decimal consists of digits that denote it. -/
theorem denotes_of_decimal (value : Nat) :
    (toString value).toList ≠ [] ∧ Numeral.Denotes 10 (toString value).toList value := by
  have hdigits : (toString value).toList = Nat.toDigits 10 value := by simp [toString, Nat.repr]
  have hread : Numeral.readFrom 10 (value + 1) 0 (Nat.toDigits 10 value) = .ok value :=
    Numeral.readFrom_toDigits (by decide) (by decide) (Nat.lt_succ_self value)
  obtain ⟨_, values, hvalues, heq⟩ :=
    (Numeral.readFrom_eq_ok_iff (by decide) (Nat.succ_pos value)).mp hread
  rw [hdigits]
  refine ⟨List.ne_nil_of_length_pos Nat.length_toDigits_pos, values, ?_,
    (Numeral.ofDigits_reverse 10 values).trans heq⟩
  exact hvalues.imp fun _ _ => (Numeral.digit?_eq_some_iff (by decide)).mp

/-- Digits and a mark behind them have no mark in front. -/
theorem not_isPrefixed {text : List Char}
    (hall : ∀ c ∈ text, Numeral.Hexadecimal c ∨ c = 'h') : ¬IsPrefixed text := by
  rintro ⟨mark, digits, rfl, hmark⟩
  have hc := hall mark (List.mem_cons_of_mem '0' List.mem_cons_self)
  rcases hmark with rfl | rfl
  · exact absurd hc (by decide)
  · exact absurd hc (by decide)

/-- However a number is written, it is a number in one of the three forms. -/
theorem Writes.isNumber {value : Nat} {text : List Char} (hwrites : Writes value text)
    (hlt : value < Machine.numberBound) : IsNumber text value := by
  cases hwrites with
  | prefixed hmark hdigits =>
    obtain ⟨hne, hvalue⟩ := denotes_of_hex hdigits
    exact .prefixed hmark (.bare hne hvalue hlt)
  | suffixed hdigits =>
    obtain ⟨hne, hvalue⟩ := denotes_of_hex hdigits
    refine .suffixed (not_isPrefixed fun c hmem => ?_) (.bare hne hvalue hlt)
    rcases List.mem_append.mp hmem with hmem | hmem
    · exact Or.inl (hvalue.hexadecimal (by decide) c hmem)
    · exact Or.inr (List.mem_singleton.mp hmem)
  | decimal =>
    obtain ⟨hne, hvalue⟩ := denotes_of_decimal value
    have hall := hvalue.hexadecimal (by decide)
    refine .decimal (not_isPrefixed fun c hmem => Or.inl (hall c hmem)) (fun hlast => ?_)
      (.bare hne hvalue hlt)
    exact absurd (hall 'h' (List.mem_of_getLast? hlast)) (by decide)

/-- Nothing that a number is written with is blank. -/
theorem Writes.not_blank {value : Nat} {text : List Char} (hwrites : Writes value text) :
    ∀ c ∈ text, Text.isBlank c = false := by
  have hdigit : ∀ c, Numeral.Hexadecimal c → Text.isBlank c = false := fun c hc =>
    (Bool.or_eq_false_iff.mp
      (Lexeme.not_separator_of_isHexDigit (Numeral.isHexDigit_iff.mpr hc))).1
  intro c hmem
  cases hwrites with
  | @prefixed mark width digits hmark hdigits =>
    obtain _ | ⟨_, _ | ⟨_, hmem⟩⟩ := hmem
    · decide
    · rcases hmark with rfl | rfl
      · decide
      · decide
    · exact hdigit c ((denotes_of_hex hdigits).2.hexadecimal (by decide) c hmem)
  | suffixed hdigits =>
    rcases List.mem_append.mp hmem with hmem | hmem
    · exact hdigit c ((denotes_of_hex hdigits).2.hexadecimal (by decide) c hmem)
    · rw [List.mem_singleton.mp hmem]
      decide
  | decimal => exact hdigit c ((denotes_of_decimal value).2.hexadecimal (by decide) c hmem)

/-- A text that is read is between blanks a number in one of the three forms, and it is read as
this number. Any other text is refused. Whatever way a number is written and whatever blanks are
around it, it is read back. -/
theorem readNumber_accepts_exactly_numbers (text : String) :
    (∀ value, readNumber text = .ok value ↔
      ∃ core, Text.Surrounds core text.toList ∧ IsNumber core value) ∧
    ((∃ fault, readNumber text = .error fault) ↔
      ∀ core, Text.Surrounds core text.toList → ∀ value, ¬IsNumber core value) ∧
    ∀ value < Machine.numberBound, ∀ front core back, Text.Blank front → Text.Blank back →
      Writes value core → text.toList = front ++ core ++ back → readNumber text = .ok value := by
  refine ⟨fun value => readNumber_eq_ok_iff, ⟨?_, fun hnone => ?_⟩, ?_⟩
  · rintro ⟨fault, hfault⟩ core hsurrounds value hnumber
    have hread := readNumber_eq_ok_iff.mpr ⟨core, hsurrounds, hnumber⟩
    rw [hfault] at hread
    cases hread
  · cases hread : readNumber text with
    | error fault => exact ⟨fault, rfl⟩
    | ok value =>
      obtain ⟨core, hsurrounds, hnumber⟩ := readNumber_eq_ok_iff.mp hread
      exact absurd hnumber (hnone core hsurrounds value)
  · intro value hlt front core back hfront hback hwrites htext
    have htight : Text.Tight core :=
      ⟨fun c hmem => hwrites.not_blank c (List.mem_of_mem_head? hmem),
        fun c hmem => hwrites.not_blank c (List.mem_of_mem_getLast? hmem)⟩
    exact readNumber_eq_ok_iff.mpr
      ⟨core, ⟨front, back, htext, hfront, hback, htight⟩, hwrites.isNumber hlt⟩

/-- A number between a tab and a space is read back, and a text with both marks is refused. -/
theorem readNumber_of_marked_texts :
    readNumber "\t0X00fF " = .ok 255 ∧
      ∀ core, Text.Surrounds core "0x1h".toList → ∀ value, ¬IsNumber core value := by
  have hblank : ∀ c, Text.isBlank c = true → Text.Blank [c] :=
    fun c hc => List.forall_mem_singleton.mpr hc
  have hdigits : "00fF".toList.map Char.toUpper = (Numeral.hex 4 255).toList := by decide
  obtain ⟨-, -, hback⟩ := readNumber_accepts_exactly_numbers "\t0X00fF "
  obtain ⟨-, hrefused, -⟩ := readNumber_accepts_exactly_numbers "0x1h"
  exact ⟨hback 255 (by decide) _ _ _ (hblank '\t' (by decide)) (hblank ' ' (by decide))
    (.prefixed (Or.inr rfl) hdigits) (by decide), hrefused.mp ⟨.invalidDigit, by decide⟩⟩

end CommandLine

end ChipEight
