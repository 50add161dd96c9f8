import ChipEight.Proofs.Listing.Lines
import ChipEight.Proofs.Text.Division

/-!
# Annotated lines

The annotation of an instruction is appended behind the column of its operands. Where the column
has a blank left it is a comment, and the line has the tokens that it has without it. A label that
fills its column leaves no blank: its name then takes up the mark of the comment, and the line has
no tokens.
-/

namespace ChipEight

/-- Separators are trivia. -/
theorem Trivia.of_separators {text : List Char}
    (hall : ∀ c ∈ text, Lexeme.isSeparator c = true) : Trivia text := by
  induction text with
  | nil => exact .nil
  | cons c text ih =>
    obtain ⟨hhead, htail⟩ := List.forall_mem_cons.mp hall
    exact .separator (Lexeme.isSeparator_iff.mp hhead) (ih htail)

/-- Behind a front, a text divides into some tokens if a separator or nothing follows. -/
def DividesBehind (front text : List Char) (more : List Token) : Prop :=
  ∀ rest tokens, Lexeme.EndsToken rest → Divided front (text ++ rest) tokens →
    Divided (front ++ text) rest (tokens ++ more)

namespace DividesBehind

variable {front text : List Char} {more : List Token}

/-- A spelled token divides into itself. -/
theorem of_spelling {kind : Token.Kind} (hspelling : Spelling text kind) :
    DividesBehind front text [⟨kind, .behind front⟩] :=
  fun _ _ hends hdivided => .lexeme (hspelling.means hends) hdivided

/-- Texts with separators between them divide one after another. -/
theorem append {separators back : List Char} {others : List Token}
    (hfront : DividesBehind front text more) (hnonempty : separators ≠ [])
    (hall : ∀ c ∈ separators, Lexeme.isSeparator c = true)
    (hback : DividesBehind (front ++ text ++ separators) back others) :
    DividesBehind front (text ++ separators ++ back) (more ++ others) := by
  intro rest tokens hends hdivided
  rw [List.append_assoc, List.append_assoc] at hdivided
  have htext := hfront _ tokens (Lexeme.endsToken_append hnonempty hall (back ++ rest)) hdivided
  have hboth := hback rest _ hends (.trivia (.of_separators hall) htext)
  simpa only [List.append_assoc] using hboth

end DividesBehind

/-- The texts of operands divide into the operands. -/
theorem Operand.exists_dividesBehind {operands : List Operand}
    (hwritable : ∀ operand ∈ operands, operand.Writable) (front : List Char) :
    ∃ tokens : List Token, tokens.map (·.value) = operands.map Token.Kind.operand ∧
      DividesBehind front (", ".intercalate (operands.map Operand.text)).toList tokens := by
  have hcomma : ∀ c ∈ ", ".toList, Lexeme.isSeparator c = true := List.all_eq_true.mp (by decide)
  induction operands generalizing front with
  | nil =>
    refine ⟨[], rfl, fun rest tokens _ hdivided => ?_⟩
    simpa using hdivided
  | cons operand operands ih =>
    obtain ⟨hhead, htail⟩ := List.forall_mem_cons.mp hwritable
    have hfirst : DividesBehind front _ _ := .of_spelling hhead.spelling
    obtain _ | ⟨next, operands⟩ := operands
    · exact ⟨_, rfl, by simpa using hfirst⟩
    · obtain ⟨tokens, hkinds, hrest⟩ := ih htail (front ++ operand.text.toList ++ ", ".toList)
      refine ⟨⟨.operand operand, .behind front⟩ :: tokens, ?_, ?_⟩
      · rw [List.map_cons, hkinds]
        rfl
      · simpa using hfirst.append (by decide) hcomma hrest

namespace Listing

/-- What is appended to the line of an instruction to show its address and its word. -/
def annotationText (address : Nat) (word : Word) : String :=
  "; addr : " ++ Numeral.hex 1 address ++ "; opcode : " ++ Numeral.marked 4 word.toNat

/-- An annotated line is the line without an annotation and then the annotation. -/
theorem instructionLine_annotated (address : Nat) (word : Word) (label : Option String) :
    instructionLine address (.ofWord word) label true =
      instructionLine address (.ofWord word) label false ++ annotationText address word := by
  simp only [instructionLine, annotationText, Opcode.raw_ofWord, if_true, Bool.false_eq_true,
    if_false, String.append_assoc]

/-- An annotation is a comment that starts with a word. -/
theorem exists_annotationText_eq (address : Nat) (word : Word) :
    ∃ body, (annotationText address word).toList = ';' :: ' ' :: ("addr".toList ++ ' ' :: body) ∧
      '\n' ∉ body := by
  refine ⟨": ".toList ++ (Numeral.hex 1 address).toList ++ "; opcode : ".toList ++
    "0x".toList ++ (Numeral.hex 4 word.toNat).toList, ?_, ?_⟩
  · simp [annotationText, Numeral.marked]
  · have hwords : '\n' ∉ ": ".toList ∧ '\n' ∉ "; opcode : ".toList ∧ '\n' ∉ "0x".toList := by
      decide
    simp only [List.mem_append, not_or]
    exact ⟨⟨⟨⟨hwords.1, newline_not_mem_hex 1 address⟩, hwords.2.1⟩, hwords.2.2⟩,
      newline_not_mem_hex 4 word.toNat⟩

/-- Nothing of an annotation is a token. -/
theorem closes_annotationText (address : Nat) (word : Word) :
    Closes (annotationText address word).toList := by
  obtain ⟨body, htext, hbody⟩ := exists_annotationText_eq address word
  rw [htext]
  exact .comment (by simp [hbody])

/-- The texts of the operands of a word, with commas between them. -/
def operandsText (word : Word) (label : Option String) : String :=
  ", ".intercalate ((Opcode.listed word label).2.map Operand.text)

/-- Without an annotation the line of an instruction is its mnemonic and its operands, each in a
column. -/
theorem toList_instructionLine (address : Nat) (word : Word) (label : Option String) :
    (instructionLine address (.ofWord word) label false).toList =
      (column mnemonicWidth (Opcode.listed word label).1.mnemonic.text).toList ++
        (operandsText word label).toList ++
        List.replicate (operandsWidth - (operandsText word label).length) ' ' := by
  rw [instructionLine, Opcode.parts_ofWord]
  simp only [Bool.false_eq_true, if_false, String.toList_append, operandsText,
    toList_column operandsWidth, List.append_assoc]

/-- A mnemonic divides off in its column. -/
theorem dividesBehind_mnemonic (word : Word) (label : Option String) {back : List Char}
    {others : List Token}
    (hback : DividesBehind ((column mnemonicWidth
      (Opcode.listed word label).1.mnemonic.text).toList) back others) :
    DividesBehind [] ((column mnemonicWidth
      (Opcode.listed word label).1.mnemonic.text).toList ++ back)
        (⟨.instruction (Opcode.listed word label).1.mnemonic, .first⟩ :: others) := by
  have hmnemonic : ∀ mnemonic : Mnemonic, mnemonic.text.length < mnemonicWidth := by
    intro mnemonic
    cases mnemonic <;> decide
  have hblanks : List.replicate
      (mnemonicWidth - (Opcode.listed word label).1.mnemonic.text.length) ' ' ≠ [] := by
    rw [Ne, List.replicate_eq_nil_iff]
    exact Nat.sub_ne_zero_of_lt (hmnemonic _)
  have hspelled : DividesBehind [] _ _ :=
    .of_spelling (Mnemonic.spelling (Opcode.mnemonic_listed_ne word label))
  rw [toList_column] at hback ⊢
  exact hspelled.append hblanks (isSeparator_of_mem_replicate _) (by rwa [List.nil_append])

/-- The line of an instruction without an annotation divides into the tokens of the form and the
operands as which its word is written, unless they touch what follows. -/
theorem exists_divided_instructionLine (address : Nat) (word : Word) {label : Option String}
    (hlabel : ∀ name ∈ label, (Operand.label name).Writable) :
    ∃ tokens : List Token, tokens.map (·.value) =
        (Clause.instruction (Opcode.listed word label).1 (Opcode.listed word label).2).kinds ∧
      ∀ rest, Lexeme.EndsToken
          (List.replicate (operandsWidth - (operandsText word label).length) ' ' ++ rest) →
        Divided (instructionLine address (.ofWord word) label false).toList rest tokens := by
  obtain ⟨tokens, hkinds, hdivides⟩ := Operand.exists_dividesBehind
    (Opcode.writable_listed word hlabel)
    (column mnemonicWidth (Opcode.listed word label).1.mnemonic.text).toList
  refine ⟨⟨.instruction (Opcode.listed word label).1.mnemonic, .first⟩ :: tokens, ?_,
    fun rest hends => ?_⟩
  · rw [List.map_cons, hkinds]
    rfl
  have hline := dividesBehind_mnemonic word label hdivides _ [] hends .start
  rw [List.nil_append, List.nil_append] at hline
  rw [toList_instructionLine]
  exact hline.trivia (.of_separators (isSeparator_of_mem_replicate _))

/-- An annotation touches a label: the word is written with a label that leaves no blank in its
column. -/
def Touches (word : Word) (label : Option String) : Prop :=
  (Instruction.ofWord word).isFaithful = true ∧
    ∃ name, label = some name ∧ operandsWidth ≤ name.length + 1

/-- Operands that are not touched leave a blank in their column. -/
theorem length_operandsText_lt {word : Word} {label : Option String}
    (hfree : ¬Touches word label) : (operandsText word label).length < operandsWidth := by
  by_cases hfaithful : (Instruction.ofWord word).isFaithful = true
  · refine Opcode.length_listed_lt word fun name hname => ?_
    exact Nat.lt_of_not_le fun hfull => hfree ⟨hfaithful, name, hname, hfull⟩
  · have hlisted : Opcode.listed word label = Opcode.listed word none := by
      simp only [Opcode.listed, if_neg hfaithful]
    rw [operandsText, hlisted]
    exact Opcode.length_listed_lt word (by simp)

/-- The first word of an annotation is no mnemonic. -/
theorem faulty_addr (body : List Char) :
    Lexeme.Faulty ("addr".toList ++ ' ' :: body) ⟨.unknownName "ADDR", 0, 4⟩ := by
  have hrun : Lexeme.Run (·.isAlpha) "addr".toList (' ' :: body) := by
    refine ⟨by decide, List.all_eq_true.mp (by decide), fun c hmem => ?_⟩
    rw [← Option.some.inj hmem]
    decide
  have hnumber : ¬Lexeme.StartsNumber ("addr".toList ++ ' ' :: body) := by
    have htext : "addr".toList ++ ' ' :: body = 'a' :: ('d' :: 'd' :: 'r' :: ' ' :: body) := by
      simp
    have hdigits : Numeral.isHexDigit 'd' = true ∧ Numeral.isHexDigit 'r' = false := by decide
    have hradix : Lexeme.radixOf ('d' :: 'd' :: 'r' :: ' ' :: body) = 10 := by
      simp [Lexeme.radixOf, hdigits, Lexeme.radix?]
    rw [htext, Lexeme.startsNumber_iff]
    refine not_not.mpr (Lexeme.number?_eq_none ?_)
    rw [hradix]
    decide
  have hunknown : ∀ mnemonic : Mnemonic,
      mnemonic.text.toList ≠ "addr".toList.map Char.toUpper := by
    intro mnemonic
    cases mnemonic <;> decide
  exact .unknownName hrun hnumber hunknown

/-- A line whose annotation touches its label divides up to the annotation's first word, the mark
of the comment being part of the label. -/
theorem divided_touched (address : Nat) {word : Word} {name : String}
    (hlabel : (Operand.label name).Writable) (htouches : Touches word (some name))
    (rest : List Char) :
    Divided ((instructionLine address (.ofWord word) (some name) false).toList ++ [';', ' ']) rest
      [⟨.instruction (Opcode.listed word (some name)).1.mnemonic, .first⟩,
        ⟨.operand (.label (name ++ ";")), .behind
          (column mnemonicWidth (Opcode.listed word (some name)).1.mnemonic.text).toList⟩] := by
  obtain ⟨hfaithful, _, hsome, hfull⟩ := htouches
  obtain rfl := Option.some.inj hsome
  have hoperands : (Opcode.listed word (some name)).2 = [.label name] := by
    simp only [Opcode.listed, if_pos hfaithful]
  have hcolumn : List.replicate (operandsWidth - (operandsText word (some name)).length) ' ' =
      [] := by
    have hlength : (operandsText word (some name)).length = name.length + 1 := by
      rw [operandsText, hoperands, List.map_singleton, String.intercalate_singleton, Operand.text,
        String.length_append, Nat.add_comm]
      rfl
    rw [List.replicate_eq_nil_iff, hlength]
    omega
  have hmarked : (Operand.label (name ++ ";")).Writable := by
    cases hlabel with
    | label hnonempty hname =>
      refine .label (by simp) fun c hmem => ?_
      rw [String.toList_append, List.mem_append] at hmem
      rcases hmem with hmem | hmem
      · exact hname c hmem
      · obtain rfl : c = ';' := by simpa using hmem
        decide
  have hline := dividesBehind_mnemonic word (some name)
    (.of_spelling hmarked.spelling) (' ' :: rest) [] (fun c hmem => by
      rw [← Option.some.inj hmem]
      decide) .start
  rw [List.nil_append, List.nil_append] at hline
  have hspaced := @Divided.trivia _ [' '] rest _ (.separator (by decide) .nil) hline
  have htext : (operandsText word (some name)).toList ++ [';', ' '] =
      (Operand.label (name ++ ";")).text.toList ++ [' '] := by
    simp [operandsText, hoperands, Operand.text]
  rw [toList_instructionLine, hcolumn, List.append_nil, List.append_assoc, htext,
    ← List.append_assoc]
  exact hspaced

/-- The line of an instruction has the tokens of the form and the operands as which its word is
written. An annotation adds nothing to them and is no part of them, unless the word is written with
a label that fills its column. Then the annotated line has no tokens: its first word that does not
belong to the label is refused as an instruction. -/
theorem annotation_invisible_or_touches (address : Nat) (word : Word) {label : Option String}
    (hlabel : ∀ name ∈ label, (Operand.label name).Writable) :
    ∃ tokens : List Token, tokens.map (·.value) =
        (Clause.instruction (Opcode.listed word label).1 (Opcode.listed word label).2).kinds ∧
      tokenize (instructionLine address (.ofWord word) label false) = .ok (tokens ++
        [⟨.eof, .behind (instructionLine address (.ofWord word) label false).toList⟩]) ∧
      (¬Touches word label →
        tokenize (instructionLine address (.ofWord word) label true) = .ok (tokens ++
          [⟨.eof, .behind (instructionLine address (.ofWord word) label true).toList⟩]) ∧
        (instructionLine address (.ofWord word) label true =
          instructionLine address (.ofWord word) label false ++ annotationText address word) ∧
        Divided (instructionLine address (.ofWord word) label false).toList
          (annotationText address word).toList tokens ∧
        Closes (annotationText address word).toList) ∧
      (Touches word label → ∃ error,
        tokenize (instructionLine address (.ofWord word) label true) = .error error ∧
          error.fault = .unknownName "ADDR" ∧
          error.position = .behind
            ((instructionLine address (.ofWord word) label false).toList ++ [';', ' '])) := by
  obtain ⟨tokens, hkinds, hdivides⟩ := exists_divided_instructionLine address word hlabel
  refine ⟨tokens, hkinds, ?_, fun hfree => ?_, fun htouches => ?_⟩
  · have hends : Lexeme.EndsToken
        (List.replicate (operandsWidth - (operandsText word label).length) ' ' ++ []) := by
      intro c hmem
      rw [List.append_nil] at hmem
      exact isSeparator_of_mem_replicate _ c (List.mem_of_mem_head? hmem)
    exact Divides.tokenize_eq ⟨(List.append_nil _).symm, hdivides [] hends, .nil⟩
  · have hpadding : List.replicate (operandsWidth - (operandsText word label).length) ' ' ≠ [] := by
      rw [Ne, List.replicate_eq_nil_iff]
      exact Nat.sub_ne_zero_of_lt (length_operandsText_lt hfree)
    have hdivided := hdivides (annotationText address word).toList
      (Lexeme.endsToken_append hpadding (isSeparator_of_mem_replicate _) _)
    have hcloses := closes_annotationText address word
    have hline := instructionLine_annotated address word label
    refine ⟨Divides.tokenize_eq ⟨?_, hdivided, hcloses⟩, hline, hdivided, hcloses⟩
    rw [hline, String.toList_append]
  · obtain ⟨name, rfl⟩ : ∃ name, label = some name := htouches.2.imp fun _ hname => hname.1
    obtain ⟨body, hmark, _⟩ := exists_annotationText_eq address word
    have hdivided := divided_touched address (hlabel name rfl) htouches
      ("addr".toList ++ ' ' :: body)
    have htext : (instructionLine address (.ofWord word) (some name) true).toList =
        (instructionLine address (.ofWord word) (some name) false).toList ++ [';', ' '] ++
          ("addr".toList ++ ' ' :: body) := by
      rw [instructionLine_annotated, String.toList_append, hmark]
      simp
    refine ⟨_, (Breaks.mk htext hdivided (faulty_addr body)).tokenize_eq, rfl, ?_⟩
    rw [List.take_zero, List.append_nil]

/-- The annotation of a jump to a label is invisible. -/
theorem annotation_invisible_of_jump :
    ¬Touches 0x1206 (some "label-0x0206") ∧
      instructionLine 0x200 (.ofWord 0x1206) (some "label-0x0206") true =
        "JMP   :label-0x0206       ; addr : 200; opcode : 0x1206" ∧
      ∃ tokens : List Token,
        tokens.map (·.value) = [.instruction .jmp, .operand (.label "label-0x0206")] ∧
        tokenize "JMP   :label-0x0206       " = .ok (tokens ++ [⟨.eof, ⟨1, 27⟩⟩]) ∧
        tokenize "JMP   :label-0x0206       ; addr : 200; opcode : 0x1206" =
          .ok (tokens ++ [⟨.eof, ⟨1, 56⟩⟩]) := by
  have hwritable : ∀ name ∈ some "label-0x0206", (Operand.label name).Writable := by
    intro name hname
    obtain rfl := Option.some.inj hname
    have hseparators : "label-0x0206".toList.any Lexeme.isSeparator = false := by decide
    exact .label (by decide) (by simpa using hseparators)
  have hfree : ¬Touches 0x1206 (some "label-0x0206") := by
    rintro ⟨-, name, hname, hfull⟩
    obtain rfl := Option.some.inj hname
    exact absurd hfull (by decide)
  have hplain : instructionLine 0x200 (.ofWord 0x1206) (some "label-0x0206") false =
      "JMP   :label-0x0206       " := by decide +kernel
  have hline : instructionLine 0x200 (.ofWord 0x1206) (some "label-0x0206") true =
      "JMP   :label-0x0206       ; addr : 200; opcode : 0x1206" := by decide +kernel
  obtain ⟨tokens, hkinds, htokens, hinvisible, -⟩ :=
    annotation_invisible_or_touches 0x200 0x1206 hwritable
  have hannotated := (hinvisible hfree).1
  rw [hplain] at htokens
  rw [hline] at hannotated
  exact ⟨hfree, hline, tokens, hkinds, htokens, hannotated⟩

/-- A label of nineteen characters fills its column, so that the annotated line has no tokens. -/
theorem annotation_touches_long_label :
    (Operand.label "abcdefghijklmnopqrs").Writable ∧
      instructionLine 0x200 (.ofWord 0x1206) (some "abcdefghijklmnopqrs") true =
        "JMP   :abcdefghijklmnopqrs; addr : 200; opcode : 0x1206" ∧
      tokenize (instructionLine 0x200 (.ofWord 0x1206) (some "abcdefghijklmnopqrs") false) =
        .ok [⟨.instruction .jmp, ⟨1, 1⟩⟩, ⟨.operand (.label "abcdefghijklmnopqrs"), ⟨1, 7⟩⟩,
          ⟨.eof, ⟨1, 27⟩⟩] ∧
      ∀ tokens, tokenize (instructionLine 0x200 (.ofWord 0x1206) (some "abcdefghijklmnopqrs")
        true) ≠ .ok tokens := by
  have hseparators : "abcdefghijklmnopqrs".toList.any Lexeme.isSeparator = false := by decide
  have hline : instructionLine 0x200 (.ofWord 0x1206) (some "abcdefghijklmnopqrs") true =
      "JMP   :abcdefghijklmnopqrs; addr : 200; opcode : 0x1206" := by decide +kernel
  have hplain : tokenize (instructionLine 0x200 (.ofWord 0x1206) (some "abcdefghijklmnopqrs")
      false) = .ok [⟨.instruction .jmp, ⟨1, 1⟩⟩,
        ⟨.operand (.label "abcdefghijklmnopqrs"), ⟨1, 7⟩⟩, ⟨.eof, ⟨1, 27⟩⟩] := by decide +kernel
  have herror : (tokenize "JMP   :abcdefghijklmnopqrs; addr : 200; opcode : 0x1206").isOk =
      false := by decide +kernel
  refine ⟨.label (by decide) (by simpa using hseparators), hline, hplain, fun tokens htokens => ?_⟩
  rw [hline] at htokens
  rw [htokens] at herror
  cases herror

end Listing

end ChipEight
