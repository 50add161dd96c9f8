import ChipEight.Proofs.Basics
import ChipEight.Proofs.Text.Lexing
import ChipEight.Proofs.Text.NumeralValues

/-!
# What lexemes mean

A lexeme consists of as many characters of one kind as there are, behind a sign or in front of
the mark of a radix, and it means a token. Where no lexeme stands there is one of a few faults.
Every text that does not start with trivia starts with a lexeme that is read as what it means,
or with a fault that is reported.

What the kinds of characters, the marks and the values of digits are is said without regard to
how a text is read.
-/

namespace ChipEight

/-- The token that a mnemonic is. One of them announces literal bytes. -/
def Mnemonic.keyword : Mnemonic → Token.Kind
  | .data => .data
  | mnemonic => .instruction mnemonic

/-- Every other mnemonic is an instruction. -/
theorem Mnemonic.keyword_of_ne {mnemonic : Mnemonic} (hdata : mnemonic ≠ .data) :
    mnemonic.keyword = .instruction mnemonic := by
  cases mnemonic with
  | data => exact absurd rfl hdata
  | _ => rfl

namespace Lexeme

/-- Characters with a property, at least one and as many as there are in front of other text. -/
structure Run (p : Char → Prop) (run rest : List Char) : Prop where
  nonempty : run ≠ []
  all : ∀ c ∈ run, p c
  stops : ∀ c ∈ rest.head?, ¬p c

/-- The mark between the digits of a number and other text, and the radix that it names. A
number without a mark is decimal. -/
inductive Marks : List Char → List Char → Nat → Prop
  | hexadecimal {rest : List Char} : Marks ['h'] rest 16
  | octal {rest : List Char} : Marks ['o'] rest 8
  | binary {rest : List Char} : Marks ['n'] rest 2
  | decimal {rest : List Char} (hnone : ∀ c ∈ rest.head?, c ∉ ['h', 'o', 'n']) : Marks [] rest 10

/-- Digits, as many as there are, and the mark behind them. The digits of every radix may be
hexadecimal: whether they denote a number is another question. -/
structure Literal (digits mark rest : List Char) (radix : Nat) : Prop where
  run : Run Numeral.Hexadecimal digits (mark ++ rest)
  marks : Marks mark rest radix

/-- A text starts with a number, which may be too large. -/
def StartsNumber (text : List Char) : Prop :=
  ∃ digits mark rest radix, text = digits ++ (mark ++ rest) ∧ Literal digits mark rest radix ∧
    ((∃ value, Numeral.Denotes radix digits value) ∨
      Numeral.Exceeds radix Machine.numberBound digits)

/-- A lexeme in front of other text means a token. -/
inductive Means : List Char → List Char → Token.Kind → Prop
  | integer {digits mark rest : List Char} {radix value : Nat}
      (hliteral : Literal digits mark rest radix)
      (hvalue : Numeral.Denotes radix digits value) (hlt : value < Machine.numberBound) :
      Means (digits ++ mark) rest (.operand (.integer value))
  | register {digits rest : List Char} {number : Nat} (hrun : Run Numeral.Hexadecimal digits rest)
      (hvalue : Numeral.Denotes 16 digits number) (hlt : number < Machine.numberBound) :
      Means ('$' :: digits) rest (.operand (.register number))
  | label {name rest : List Char} (hrun : Run (¬Separates ·) name rest) :
      Means (':' :: name) rest (.operand (.label (String.ofList name)))
  | keyword {letters rest : List Char} {mnemonic : Mnemonic} (hrun : Run (·.isAlpha) letters rest)
      (hnumber : ¬StartsNumber (letters ++ rest))
      (htext : letters.map Char.toUpper = mnemonic.text.toList) :
      Means letters rest mnemonic.keyword

/-- A text starts with a fault. -/
inductive Faulty : List Char → Failure → Prop
  | tooLarge {digits mark rest : List Char} {radix : Nat}
      (hliteral : Literal digits mark rest radix)
      (hexceeds : Numeral.Exceeds radix Machine.numberBound digits) :
      Faulty (digits ++ (mark ++ rest)) ⟨.tooLarge (String.ofList (digits ++ mark)), 0, 0⟩
  | unknownName {letters rest : List Char} (hrun : Run (·.isAlpha) letters rest)
      (hnumber : ¬StartsNumber (letters ++ rest))
      (hunknown : ∀ mnemonic : Mnemonic, mnemonic.text.toList ≠ letters.map Char.toUpper) :
      Faulty (letters ++ rest)
        ⟨.unknownName (String.ofList (letters.map Char.toUpper)), 0, letters.length⟩
  | emptyLabel {rest : List Char} (hstops : ∀ c ∈ rest.head?, Separates c) :
      Faulty (':' :: rest) ⟨.emptyLabel, 1, 1⟩
  | emptyRegister {rest : List Char} (hstops : ∀ c ∈ rest.head?, ¬Numeral.Hexadecimal c) :
      Faulty ('$' :: rest) ⟨.emptyRegister, 1, 1⟩
  | largeRegister {digits rest : List Char} (hrun : Run Numeral.Hexadecimal digits rest)
      (hexceeds : Numeral.Exceeds 16 Machine.numberBound digits) :
      Faulty ('$' :: (digits ++ rest))
        ⟨.tooLarge (String.ofList ('$' :: digits)), 0, digits.length + 1⟩
  | unexpectedSymbol {c : Char} {rest : List Char} (hseparator : ¬Separates c)
      (hsigns : c ∉ [';', ':', '$']) (halpha : c.isAlpha = false)
      (hnumber : ¬StartsNumber (c :: rest)) :
      Faulty (c :: rest) ⟨.unexpectedSymbol c, 0, 0⟩

/-- Letters are ASCII characters. -/
theorem toNat_lt_of_isAlpha {c : Char} (halpha : c.isAlpha = true) : c.toNat < 128 := by
  rcases Bool.or_eq_true_iff.mp halpha with hupper | hlower
  · have hle : c.toNat ≤ 90 := (of_decide_eq_true hupper).2
    omega
  · have hle : c.toNat ≤ 122 := of_decide_eq_true (Bool.and_eq_true_iff.mp hlower).2
    omega

/-- No separator is a letter. -/
theorem not_separator_of_isAlpha {c : Char} (halpha : c.isAlpha = true) :
    isSeparator c = false :=
  @Numeral.of_ascii (fun c => c.isAlpha = true → isSeparator c = false) (by decide) c
    (toNat_lt_of_isAlpha halpha) halpha

/-- No separator is a hexadecimal digit. -/
theorem not_separator_of_isHexDigit {c : Char} (hdigit : Numeral.isHexDigit c = true) :
    isSeparator c = false :=
  @Numeral.of_ascii (fun c => Numeral.isHexDigit c = true → isSeparator c = false) (by decide) c
    (Numeral.toNat_lt_of_isHexDigit hdigit) hdigit

/-- A character with a property starts a run. -/
theorem run_takeWhile (p : Char → Prop) {q : Char → Bool} (hq : ∀ c, q c = true ↔ p c) {c : Char}
    (hc : p c) (cs : List Char) : Run p (c :: cs.takeWhile q) (cs.dropWhile q) where
  nonempty := List.cons_ne_nil _ _
  all := List.forall_mem_cons.mpr ⟨hc, fun _ hmem => (hq _).mp (List.mem_takeWhile_imp hmem)⟩
  stops := fun c hmem => (hq c).not.mp (ne_true_of_eq_false (stops_dropWhile q cs c hmem))

/-- A run is taken from a text, and what follows is left. -/
theorem Run.takeWhile_append {p : Char → Prop} {q : Char → Bool} (hq : ∀ c, q c = true ↔ p c)
    {run rest : List Char} (hrun : Run p run rest) :
    (run ++ rest).takeWhile q = run ∧ (run ++ rest).dropWhile q = rest :=
  takeWhile_append_of_stops (fun c hmem => (hq c).mpr (hrun.all c hmem))
    fun c hmem => eq_false_of_ne_true ((hq c).not.mpr (hrun.stops c hmem))

/-- Behind its first character the rest of a run is taken. -/
theorem Run.takeWhile_tail {p : Char → Prop} {q : Char → Bool} (hq : ∀ c, q c = true ↔ p c)
    {c : Char} {run rest : List Char} (hrun : Run p (c :: run) rest) :
    (run ++ rest).takeWhile q = run ∧ (run ++ rest).dropWhile q = rest :=
  takeWhile_append_of_stops
    (fun c hmem => (hq c).mpr (hrun.all c (List.mem_cons_of_mem _ hmem)))
    fun c hmem => eq_false_of_ne_true ((hq c).not.mpr (hrun.stops c hmem))

/-- The radix in which the digits after the first character of a text are read. -/
def radixOf (cs : List Char) : Nat :=
  ((cs.dropWhile Numeral.isHexDigit).head?.bind radix?).getD 10

/-- No radix is above sixteen, and sixteen is named by the mark of hexadecimal numbers. -/
theorem radixOf_cases (cs : List Char) :
    radixOf cs ≤ 10 ∨
      radixOf cs = 16 ∧ (cs.dropWhile Numeral.isHexDigit).head? = some 'h' := by
  unfold radixOf
  cases (cs.dropWhile Numeral.isHexDigit).head? with
  | none => exact Or.inl (Nat.le_refl 10)
  | some m =>
    simp only [Option.bind_some, radix?]
    split <;> simp

/-- Only the marks of numbers count in finding their radix. -/
theorem bind_filter_radix? (mark : Option Char) :
    (mark.filter fun m => (radix? m).isSome).bind radix? = mark.bind radix? := by
  cases mark with
  | none => rfl
  | some m => cases hradix : radix? m <;> simp [Option.filter, hradix]

/-- A text whose first character is no digit of the radix does not start with a number. -/
theorem number?_eq_none {c : Char} {cs : List Char}
    (hdigit : Numeral.digit? (radixOf cs) c = none) : number? c cs = none := by
  have hread : ∀ digits, Numeral.read (radixOf cs) Machine.numberBound (c :: digits) =
      .error .invalidDigit := fun digits => by
    rw [Numeral.read, Numeral.readFrom, hdigit]
  rw [radixOf] at hread
  simp only [number?, bind_filter_radix?, hread]

/-- A character that is no digit of radix sixteen is none of any radix of numbers. -/
theorem digit?_eq_none {c : Char} (hdigit : Numeral.isHexDigit c = false) (cs : List Char) :
    Numeral.digit? (radixOf cs) c = none := by
  rcases radixOf_cases cs with hle | ⟨heq, _⟩
  · have hnone : Numeral.digit? 16 c = none :=
      Option.not_isSome_iff_eq_none.mp (by rw [← Numeral.isHexDigit, hdigit]; decide)
    exact Numeral.digit?_eq_none_of_le hnone (Nat.le_trans hle (by decide))
  · rw [heq]
    exact Option.not_isSome_iff_eq_none.mp (by rw [← Numeral.isHexDigit, hdigit]; decide)

/-- Each of the three marks names its radix, and no other character is a mark. -/
theorem radix?_eq_none_iff {c : Char} : radix? c = none ↔ c ∉ ['h', 'o', 'n'] := by
  unfold radix?
  split <;> simp_all

/-- The mark that names a radix is that of numbers in this radix. -/
theorem marks_of_radix? {c : Char} {radix : Nat} (hradix : radix? c = some radix)
    (rest : List Char) : Marks [c] rest radix := by
  unfold radix? at hradix
  split at hradix <;> cases hradix
  · exact .hexadecimal
  · exact .octal
  · exact .binary

/-- The radix of a number is that of some digits. -/
theorem Marks.radix_bounds {mark rest : List Char} {radix : Nat} (hmarks : Marks mark rest radix) :
    0 < radix ∧ radix ≤ 16 := by
  cases hmarks <;> decide

/-- The mark of a number is found behind its digits. -/
theorem Marks.filter_head? {mark rest : List Char} {radix : Nat} (hmarks : Marks mark rest radix) :
    ((mark ++ rest).head?.filter fun m => (radix? m).isSome).toList = mark ∧
      (((mark ++ rest).head?.filter fun m => (radix? m).isSome).bind radix?).getD 10 = radix := by
  cases hmarks with
  | hexadecimal | octal | binary => exact ⟨rfl, rfl⟩
  | decimal hnone =>
    cases hhead : rest.head? with
    | none => simp [hhead]
    | some c => simp [hhead, Option.filter, radix?_eq_none_iff.mpr (hnone c hhead)]

/-- A number is what its digits can be read as in the radix that its mark names. -/
theorem number?_of_literal {c : Char} {digits mark rest : List Char} {radix : Nat}
    (hliteral : Literal (c :: digits) mark rest radix) :
    number? c (digits ++ (mark ++ rest)) =
      match Numeral.read radix Machine.numberBound (c :: digits) with
      | .ok value =>
        some (.ok ⟨.operand (.integer value), (c :: digits ++ mark).length, Nat.succ_pos _⟩)
      | .error .tooLarge =>
        some (.error ⟨.tooLarge (String.ofList (c :: digits ++ mark)), 0, 0⟩)
      | .error _ => none := by
  obtain ⟨htake, hdrop⟩ := hliteral.run.takeWhile_tail fun _ => Numeral.isHexDigit_iff
  obtain ⟨hmark, hradix⟩ := hliteral.marks.filter_head?
  cases hread : Numeral.read radix Machine.numberBound (c :: digits) with
  | ok value => simp only [number?, htake, hdrop, hradix, hmark, hread]
  | error fault => cases fault <;> simp only [number?, htake, hdrop, hradix, hmark, hread]

/-- A hexadecimal digit starts a literal. -/
theorem exists_literal {c : Char} (hdigit : Numeral.Hexadecimal c) (cs : List Char) :
    ∃ digits mark rest radix, cs = digits ++ (mark ++ rest) ∧
      Literal (c :: digits) mark rest radix := by
  have hrun := run_takeWhile Numeral.Hexadecimal (fun _ => Numeral.isHexDigit_iff) hdigit cs
  have hsplit := (List.takeWhile_append_dropWhile (p := Numeral.isHexDigit) (l := cs)).symm
  cases hrest : cs.dropWhile Numeral.isHexDigit with
  | nil =>
    rw [hrest] at hrun hsplit
    exact ⟨_, [], [], 10, hsplit, hrun, .decimal fun _ hmem => nomatch hmem⟩
  | cons m rest =>
    rw [hrest] at hrun hsplit
    cases hradix : radix? m with
    | none =>
      refine ⟨_, [], m :: rest, 10, hsplit, hrun, .decimal fun c hmem => ?_⟩
      rwa [← Option.some.inj hmem, ← radix?_eq_none_iff]
    | some radix => exact ⟨_, [m], rest, radix, hsplit, hrun, marks_of_radix? hradix rest⟩

/-- Digits that denote a number, or too large a one, are read as a number, or as too large a
one. -/
theorem Literal.readable_iff {digits mark rest : List Char} {radix : Nat}
    (hliteral : Literal digits mark rest radix) :
    ((∃ value, Numeral.Denotes radix digits value) ∨
        Numeral.Exceeds radix Machine.numberBound digits) ↔
      (∃ value, Numeral.read radix Machine.numberBound digits = .ok value) ∨
        Numeral.read radix Machine.numberBound digits = .error .tooLarge := by
  have hbound : 0 < Machine.numberBound := by decide
  obtain ⟨hpos, hle⟩ := hliteral.marks.radix_bounds
  simp only [Numeral.read_eq_ok_iff hpos hle hbound hliteral.run.nonempty,
    Numeral.read_eq_tooLarge_iff hle hbound hliteral.run.nonempty]
  constructor
  · rintro (⟨value, hvalue⟩ | hexceeds)
    · rcases Nat.lt_or_ge value Machine.numberBound with hlt | hge
      · exact Or.inl ⟨value, hlt, hvalue⟩
      · exact Or.inr ⟨digits, value, List.prefix_rfl, hvalue, hge⟩
    · exact Or.inr hexceeds
  · exact Or.imp_left fun ⟨value, _, hvalue⟩ => ⟨value, hvalue⟩

/-- A number is found where one starts, and nowhere else. -/
theorem startsNumber_iff {c : Char} {cs : List Char} :
    StartsNumber (c :: cs) ↔ number? c cs ≠ none := by
  constructor
  · rintro ⟨digits, mark, rest, radix, htext, hliteral, hreadable⟩
    obtain ⟨first, digits, rfl⟩ := List.exists_cons_of_ne_nil hliteral.run.nonempty
    rw [List.cons_append, List.cons.injEq] at htext
    obtain ⟨rfl, rfl⟩ := htext
    rw [number?_of_literal hliteral]
    rcases hliteral.readable_iff.mp hreadable with ⟨value, hread⟩ | hread <;> simp [hread]
  · intro hnumber
    have hdigit : Numeral.isHexDigit c = true := by
      by_contra hnot
      exact hnumber (number?_eq_none (digit?_eq_none (Bool.not_eq_true _ ▸ hnot) cs))
    obtain ⟨digits, mark, rest, radix, rfl, hliteral⟩ :=
      exists_literal (Numeral.isHexDigit_iff.mp hdigit) cs
    refine ⟨c :: digits, mark, rest, radix, rfl, hliteral, hliteral.readable_iff.mpr ?_⟩
    rw [number?_of_literal hliteral] at hnumber
    split at hnumber
    · next value hread => exact Or.inl ⟨value, hread⟩
    · next hread => exact Or.inr hread
    · exact absurd rfl hnumber

/-- The token of a mnemonic is the one as which its spelling is read. -/
theorem name_of_text {c : Char} {letters rest : List Char} {mnemonic : Mnemonic}
    (hrun : Run (·.isAlpha) (c :: letters) rest)
    (htext : (c :: letters).map Char.toUpper = mnemonic.text.toList) :
    name c (letters ++ rest) = .ok ⟨mnemonic.keyword, letters.length + 1, Nat.succ_pos _⟩ := by
  obtain ⟨htake, _⟩ := hrun.takeWhile_tail fun _ => Iff.rfl
  have hall : ∀ mnemonic ∈ Mnemonic.all, Mnemonic.ofText? mnemonic.text = some mnemonic := by
    decide
  have hmem : mnemonic ∈ Mnemonic.all := by cases mnemonic <;> decide
  have hname : Mnemonic.ofText? (String.ofList ((c :: letters).map Char.toUpper)) =
      some mnemonic := by
    rw [htext, String.ofList_toList, hall mnemonic hmem]
  simp only [name, htake, hname, List.length_map, List.length_cons]
  cases mnemonic <;> rfl

/-- Letters that spell no mnemonic are an unknown name. -/
theorem name_of_unknown {c : Char} {letters rest : List Char}
    (hrun : Run (·.isAlpha) (c :: letters) rest)
    (hunknown : ∀ mnemonic : Mnemonic,
      mnemonic.text.toList ≠ (c :: letters).map Char.toUpper) :
    name c (letters ++ rest) = .error ⟨.unknownName
      (String.ofList ((c :: letters).map Char.toUpper)), 0, (c :: letters).length⟩ := by
  obtain ⟨htake, _⟩ := hrun.takeWhile_tail fun _ => Iff.rfl
  have hname : Mnemonic.ofText? (String.ofList ((c :: letters).map Char.toUpper)) = none := by
    rw [Mnemonic.ofText?, List.find?_eq_none]
    intro mnemonic _ heq
    have htext := congrArg String.toList (beq_iff_eq.mp heq)
    exact hunknown mnemonic (by rwa [String.toList_ofList] at htext)
  simp only [name, htake, hname, List.length_map]

/-- A colon announces a label. -/
theorem read_colon (cs : List Char) : read ':' cs = label cs := by
  rw [read, number?_eq_none (digit?_eq_none (by decide) cs)]
  rfl

/-- A dollar sign announces a register. -/
theorem read_dollar (cs : List Char) : read '$' cs = register cs := by
  rw [read, number?_eq_none (digit?_eq_none (by decide) cs)]
  rfl

/-- The characters of a label are those that are no separators. -/
theorem not_isSeparator_iff {c : Char} : (!isSeparator c) = true ↔ ¬Separates c := by
  rw [Bool.not_eq_true', isSeparator_eq_false_iff]

/-- A lexeme is read as the token that it means, and it starts with a character that is not
skipped. -/
theorem Means.exists_read {text rest : List Char} {kind : Token.Kind}
    (hmeans : Means text rest kind) :
    ∃ c cs, text = c :: cs ∧ isSeparator c = false ∧ c ≠ ';' ∧
      ∃ lexeme, read c (cs ++ rest) = .ok lexeme ∧ lexeme.kind = kind ∧
        lexeme.length = text.length := by
  have hbound : 0 < Machine.numberBound := by decide
  cases hmeans with
  | @integer digits mark _ radix value hliteral hvalue hlt =>
    obtain ⟨hpos, hle⟩ := hliteral.marks.radix_bounds
    have hread := (Numeral.read_eq_ok_iff hpos hle hbound hliteral.run.nonempty).mpr ⟨hlt, hvalue⟩
    obtain ⟨c, digits, rfl⟩ := List.exists_cons_of_ne_nil hliteral.run.nonempty
    have hdigit := Numeral.isHexDigit_iff.mpr (hliteral.run.all c List.mem_cons_self)
    refine ⟨c, digits ++ mark, rfl, not_separator_of_isHexDigit hdigit, ?_, ?_⟩
    · rintro rfl
      exact absurd hdigit (by decide)
    · rw [List.append_assoc, read, number?_of_literal hliteral, hread]
      exact ⟨_, rfl, rfl, rfl⟩
  | @register digits _ number hrun hvalue hlt =>
    have hread := (Numeral.read_eq_ok_iff (by decide) (Nat.le_refl 16) hbound
      hrun.nonempty).mpr ⟨hlt, hvalue⟩
    obtain ⟨htake, _⟩ := hrun.takeWhile_append fun _ => Numeral.isHexDigit_iff
    refine ⟨'$', digits, rfl, by decide, by decide, ?_⟩
    simp only [read_dollar, Lexeme.register, htake, hread]
    exact ⟨_, rfl, rfl, rfl⟩
  | @label name _ hrun =>
    obtain ⟨htake, _⟩ := hrun.takeWhile_append fun _ => not_isSeparator_iff
    obtain ⟨c, name, rfl⟩ := List.exists_cons_of_ne_nil hrun.nonempty
    refine ⟨':', c :: name, rfl, by decide, by decide, ?_⟩
    simp only [read_colon, Lexeme.label, htake]
    exact ⟨_, rfl, rfl, rfl⟩
  | @keyword letters _ mnemonic hrun hnumber htext =>
    obtain ⟨c, letters, rfl⟩ := List.exists_cons_of_ne_nil hrun.nonempty
    have halpha := hrun.all c List.mem_cons_self
    have hnone : number? c (letters ++ rest) = none := not_not.mp (mt startsNumber_iff.mpr hnumber)
    refine ⟨c, letters, rfl, not_separator_of_isAlpha halpha, ?_, ?_⟩
    · rintro rfl
      exact absurd halpha (by decide)
    · simp only [read, hnone, halpha, if_true, name_of_text hrun htext]
      exact ⟨_, rfl, rfl, rfl⟩

/-- A fault is reported, and it starts with a character that is not skipped. -/
theorem Faulty.exists_read {text : List Char} {failure : Failure} (hfaulty : Faulty text failure) :
    ∃ c cs, text = c :: cs ∧ isSeparator c = false ∧ c ≠ ';' ∧ read c cs = .error failure := by
  have hbound : 0 < Machine.numberBound := by decide
  cases hfaulty with
  | @tooLarge digits mark rest radix hliteral hexceeds =>
    have hread := (Numeral.read_eq_tooLarge_iff hliteral.marks.radix_bounds.2 hbound
      hliteral.run.nonempty).mpr hexceeds
    obtain ⟨c, digits, rfl⟩ := List.exists_cons_of_ne_nil hliteral.run.nonempty
    have hdigit := Numeral.isHexDigit_iff.mpr (hliteral.run.all c List.mem_cons_self)
    refine ⟨c, digits ++ (mark ++ rest), rfl, not_separator_of_isHexDigit hdigit, ?_, ?_⟩
    · rintro rfl
      exact absurd hdigit (by decide)
    · rw [read, number?_of_literal hliteral, hread]
  | @unknownName letters rest hrun hnumber hunknown =>
    obtain ⟨c, letters, rfl⟩ := List.exists_cons_of_ne_nil hrun.nonempty
    have halpha := hrun.all c List.mem_cons_self
    have hnone : number? c (letters ++ rest) = none := not_not.mp (mt startsNumber_iff.mpr hnumber)
    refine ⟨c, letters ++ rest, rfl, not_separator_of_isAlpha halpha, ?_, ?_⟩
    · rintro rfl
      exact absurd halpha (by decide)
    · simp only [read, hnone, halpha, if_true, name_of_unknown hrun hunknown]
  | @emptyLabel rest hstops =>
    have hname : ∀ c ∈ rest.head?, (!isSeparator c) = false := fun c hmem => by
      rw [isSeparator_iff.mpr (hstops c hmem)]
      rfl
    have htake := (takeWhile_of_stops hname).1
    refine ⟨':', rest, rfl, by decide, by decide, ?_⟩
    simp only [read_colon, Lexeme.label, htake]
  | @emptyRegister rest hstops =>
    have hdigits : ∀ c ∈ rest.head?, Numeral.isHexDigit c = false := fun c hmem =>
      eq_false_of_ne_true (mt Numeral.isHexDigit_iff.mp (hstops c hmem))
    have htake := (takeWhile_of_stops hdigits).1
    refine ⟨'$', rest, rfl, by decide, by decide, ?_⟩
    simp only [read_dollar, Lexeme.register, htake]
    rfl
  | @largeRegister digits rest hrun hexceeds =>
    have hread := (Numeral.read_eq_tooLarge_iff (Nat.le_refl 16) hbound
      hrun.nonempty).mpr hexceeds
    obtain ⟨htake, _⟩ := hrun.takeWhile_append fun _ => Numeral.isHexDigit_iff
    refine ⟨'$', digits ++ rest, rfl, by decide, by decide, ?_⟩
    simp only [read_dollar, Lexeme.register, htake, hread]
  | @unexpectedSymbol c rest hseparator hsigns halpha hnumber =>
    have hnone : number? c rest = none := not_not.mp (mt startsNumber_iff.mpr hnumber)
    simp only [List.mem_cons, List.not_mem_nil, or_false, not_or] at hsigns
    refine ⟨c, rest, rfl, isSeparator_eq_false_iff.mpr hseparator, hsigns.1, ?_⟩
    simp [read, hnone, halpha, hsigns.2.1, hsigns.2.2]

/-- A colon starts a label, or is a fault. -/
theorem means_or_faulty_colon (cs : List Char) :
    (∃ text rest kind, ':' :: cs = text ++ rest ∧ Means text rest kind) ∨
      ∃ failure, Faulty (':' :: cs) failure := by
  obtain _ | ⟨c, cs⟩ := cs
  · exact Or.inr ⟨_, .emptyLabel fun _ hmem => nomatch hmem⟩
  · by_cases hseparator : Separates c
    · refine Or.inr ⟨_, .emptyLabel fun first hmem => ?_⟩
      rwa [← Option.some.inj hmem]
    · have hrun := run_takeWhile (¬Separates ·) (fun _ => not_isSeparator_iff) hseparator cs
      refine Or.inl ⟨_, _, _, ?_, .label hrun⟩
      rw [List.cons_append, List.cons_append, List.takeWhile_append_dropWhile]

/-- A dollar sign starts a register, or is a fault. -/
theorem means_or_faulty_dollar (cs : List Char) :
    (∃ text rest kind, '$' :: cs = text ++ rest ∧ Means text rest kind) ∨
      ∃ failure, Faulty ('$' :: cs) failure := by
  obtain _ | ⟨c, cs⟩ := cs
  · exact Or.inr ⟨_, .emptyRegister fun _ hmem => nomatch hmem⟩
  · by_cases hdigit : Numeral.Hexadecimal c
    · have hrun :=
        run_takeWhile Numeral.Hexadecimal (fun _ => Numeral.isHexDigit_iff) hdigit cs
      have hsplit : c :: cs = (c :: cs.takeWhile Numeral.isHexDigit) ++
          cs.dropWhile Numeral.isHexDigit := by
        rw [List.cons_append, List.takeWhile_append_dropWhile]
      rcases Numeral.denotes_or_exceeds Machine.numberBound hrun.all with
        ⟨number, hvalue, hlt⟩ | hexceeds
      · exact Or.inl ⟨_, _, _, congrArg _ hsplit, .register hrun hvalue hlt⟩
      · rw [hsplit]
        exact Or.inr ⟨_, .largeRegister hrun hexceeds⟩
    · refine Or.inr ⟨_, .emptyRegister fun first hmem => ?_⟩
      rwa [← Option.some.inj hmem]

/-- A text that does not start with trivia starts with a lexeme or with a fault. -/
theorem means_or_faulty {c : Char} {cs : List Char} (hseparator : ¬Separates c)
    (hcomment : c ≠ ';') :
    (∃ text rest kind, c :: cs = text ++ rest ∧ Means text rest kind) ∨
      ∃ failure, Faulty (c :: cs) failure := by
  have hbound : 0 < Machine.numberBound := by decide
  by_cases hnumber : StartsNumber (c :: cs)
  · obtain ⟨digits, mark, rest, radix, htext, hliteral, hreadable⟩ := hnumber
    rcases hreadable with ⟨value, hvalue⟩ | hexceeds
    · rcases Nat.lt_or_ge value Machine.numberBound with hlt | hge
      · refine Or.inl ⟨digits ++ mark, rest, _, ?_, .integer hliteral hvalue hlt⟩
        rw [htext, List.append_assoc]
      · rw [htext]
        exact Or.inr ⟨_, .tooLarge hliteral ⟨digits, value, List.prefix_rfl, hvalue, hge⟩⟩
    · rw [htext]
      exact Or.inr ⟨_, .tooLarge hliteral hexceeds⟩
  · by_cases halpha : c.isAlpha = true
    · have hrun := run_takeWhile (·.isAlpha) (fun _ => Iff.rfl) halpha cs
      have hsplit : c :: cs = (c :: cs.takeWhile Char.isAlpha) ++ cs.dropWhile Char.isAlpha := by
        rw [List.cons_append, List.takeWhile_append_dropWhile]
      by_cases hknown : ∃ mnemonic : Mnemonic,
          mnemonic.text.toList = (c :: cs.takeWhile Char.isAlpha).map Char.toUpper
      · obtain ⟨mnemonic, htext⟩ := hknown
        rw [hsplit] at hnumber
        exact Or.inl ⟨_, _, _, hsplit, .keyword hrun hnumber htext.symm⟩
      · rw [hsplit] at hnumber ⊢
        exact Or.inr ⟨_, .unknownName hrun hnumber (not_exists.mp hknown)⟩
    · by_cases hcolon : c = ':'
      · subst hcolon
        exact means_or_faulty_colon cs
      · by_cases hdollar : c = '$'
        · subst hdollar
          exact means_or_faulty_dollar cs
        · refine Or.inr ⟨_, .unexpectedSymbol hseparator ?_ (Bool.not_eq_true _ ▸ halpha) hnumber⟩
          simp [hcomment, hcolon, hdollar]

end Lexeme

end ChipEight
