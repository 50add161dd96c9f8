import ChipEight.Listing
import ChipEight.Proofs.Listing.Words
import ChipEight.Proofs.Text.Separation

/-!
# How the lines of a listing are read

Each line of a listing is read as one clause. Columns are padded with separators, operands
that are not labels leave a blank in their column, and so the comment of an instruction does
not touch its last operand.
-/

namespace ChipEight

/-- Different addresses have different labels. -/
theorem labelFor_injective : Function.Injective labelFor := by
  intro first second heq
  have htext := congrArg String.toList heq
  rw [labelFor, labelFor, String.toList_append, String.toList_append] at htext
  exact Numeral.hex_injective 4 (String.toList_injective (List.append_cancel_left htext))

/-- The label of an address can be written. -/
theorem writable_labelFor (address : Nat) : (Operand.label (labelFor address)).Writable := by
  have hprefix : "label-0x".toList.any Lexeme.isSeparator = false := by decide
  refine .label (fun hempty => ?_) fun c hmem => ?_
  · have htext := congrArg String.toList hempty
    rw [labelFor, String.toList_append] at htext
    exact absurd (List.append_eq_nil_iff.mp htext).1 (by decide)
  · rw [labelFor, String.toList_append] at hmem
    rcases List.mem_append.mp hmem with hmem | hmem
    · exact Bool.eq_false_iff.mpr (List.any_eq_false.mp hprefix c hmem)
    · exact Lexeme.not_separator_of_isHexDigit (Numeral.isHexDigit_of_mem_hex c hmem)

/-- The label of the target of an instruction is shorter than the column of operands. -/
theorem length_labelFor_target_lt (word : Word) :
    (labelFor (Instruction.ofWord word).target).length + 1 < Listing.operandsWidth := by
  have hlt : (Instruction.ofWord word).target < 16 ^ 4 := UInt16.toNat_lt _
  have hlength := @Numeral.length_hex_le 4 4 _ (by decide) (by decide) hlt
  have hprefix : "label-0x".length = 8 := by decide
  have hwidth : Listing.operandsWidth = 20 := rfl
  rw [labelFor, String.length_append]
  omega

namespace Slot

/-- The number of the operand that a word holds in a slot has sixteen bits. -/
theorem operand_cases (slot : Slot) (word : Word) :
    ∃ number < 65536, slot.operand word = .register number ∨
      slot.operand word = .integer number := by
  refine ⟨_, UInt16.toNat_lt (slot.read word (.ofWord word)), ?_⟩
  unfold operand
  cases slot.isRegister
  · exact Or.inr rfl
  · exact Or.inl rfl

end Slot

/-- A number of sixteen bits can be written in five characters as an operand. -/
theorem Operand.writable_of_lt {operand : Operand} {number : Nat} (hlt : number < 65536)
    (hnumber : operand = .register number ∨ operand = .integer number) :
    operand.Writable ∧ operand.text.length ≤ 5 := by
  have hbound : number < Machine.numberBound := Nat.lt_trans hlt (by decide)
  have hdigits := @Numeral.length_hex_le 1 4 number (by decide) (by decide) hlt
  have hmarks : "$".length = 1 ∧ "h".length = 1 := by decide
  rcases hnumber with rfl | rfl
  · refine ⟨.register hbound, ?_⟩
    rw [text, String.length_append]
    omega
  · refine ⟨.integer hbound, ?_⟩
    rw [text, String.length_append]
    omega

namespace Opcode

/-- The operands as which a word is written are numbers of sixteen bits, unless they are its
label. -/
theorem listed_cases (word : Word) (label : Option String) :
    (∃ name, label = some name ∧ (listed word label).2 = [.label name]) ∨
      ∀ operand ∈ (listed word label).2, ∃ number < 65536,
        operand = .register number ∨ operand = .integer number := by
  unfold listed
  split
  · cases label with
    | some name => exact Or.inl ⟨name, rfl, rfl⟩
    | none =>
      refine Or.inr fun operand hmem => ?_
      obtain ⟨slot, _, rfl⟩ := List.mem_map.mp hmem
      exact slot.operand_cases word
  · exact Or.inr (by simpa using word.toNat_lt)

/-- A word is written with at most three operands. -/
theorem length_operands_listed_le (word : Word) (label : Option String) :
    (listed word label).2.length ≤ 3 := by
  have hslots : ∀ shape : Shape, shape.slots.length ≤ 3 := by
    intro shape
    cases shape <;> decide
  unfold listed
  split
  · cases label with
    | some name => exact (by decide : 1 ≤ 3)
    | none =>
      rw [Shape.operands, List.length_map]
      exact hslots _
  · exact (by decide : 1 ≤ 3)

/-- The operands as which a word is written can be written, if its label can. -/
theorem writable_listed (word : Word) {label : Option String}
    (hlabel : ∀ name ∈ label, (Operand.label name).Writable) :
    ∀ operand ∈ (listed word label).2, operand.Writable := by
  rcases listed_cases word label with ⟨name, hname, hlisted⟩ | hnumbers
  · rw [hlisted]
    exact List.forall_mem_singleton.mpr (hlabel name hname)
  · intro operand hmem
    obtain ⟨number, hlt, hnumber⟩ := hnumbers operand hmem
    exact (Operand.writable_of_lt hlt hnumber).1

/-- The operands as which a word is written are shorter than their column, if its label is. -/
theorem length_listed_lt (word : Word) {label : Option String}
    (hlabel : ∀ name ∈ label, name.length + 1 < Listing.operandsWidth) :
    (", ".intercalate ((listed word label).2.map Operand.text)).length <
      Listing.operandsWidth := by
  rcases listed_cases word label with ⟨name, hname, hlisted⟩ | hnumbers
  · have hlength := hlabel name hname
    have hmark : ":".length = 1 := by decide
    rw [hlisted, List.map_singleton, String.intercalate_singleton, Operand.text,
      String.length_append, hmark]
    omega
  · have hall : ∀ text ∈ (listed word label).2.map Operand.text, text.length ≤ 5 := by
      intro text hmem
      obtain ⟨operand, hoperand, rfl⟩ := List.mem_map.mp hmem
      obtain ⟨number, hlt, hnumber⟩ := hnumbers operand hoperand
      exact (Operand.writable_of_lt hlt hnumber).2
    have hle := length_intercalate_le hall ", "
    have hcount := length_operands_listed_le word label
    have hseparator : ", ".length = 2 := by decide
    have hwidth : Listing.operandsWidth = 20 := rfl
    rw [List.length_map, hseparator] at hle
    omega

/-- No word is written as data. -/
theorem mnemonic_listed_ne (word : Word) (label : Option String) :
    (listed word label).1.mnemonic ≠ .data := by
  have hall : ∀ opcode ∈ table, opcode.mnemonic ≠ .data := by decide
  exact hall _ listed_mem_table

end Opcode

namespace Listing

/-- A column ends with blanks. -/
theorem toList_column (width : Nat) (text : String) :
    (column width text).toList =
      text.toList ++ List.replicate (width - text.length) ' ' := by
  rw [column, String.toList_ofList, List.rightpad, String.length_toList]

/-- Blanks are separators. -/
theorem isSeparator_of_mem_replicate (count : Nat) :
    ∀ c ∈ List.replicate count ' ', Lexeme.isSeparator c = true := by
  intro c hmem
  rw [List.eq_of_mem_replicate hmem]
  decide

/-- What is written in hexadecimal stays on its line. -/
theorem newline_not_mem_hex (width number : Nat) : '\n' ∉ (Numeral.hex width number).toList :=
  fun hmem => absurd (Numeral.isHexDigit_of_mem_hex '\n' hmem) (by decide)

/-- The line of an instruction is read as the form and the operands as which its word is
written, if the comment does not touch its label. -/
theorem reads_instructionLine (address : Nat) (word : Word) {label : Option String}
    {comments : Bool} (hlabel : ∀ name ∈ label, (Operand.label name).Writable)
    (hfits : comments = true → ∀ name ∈ label, name.length + 1 < operandsWidth) :
    Reads Lexeme.EndsLine
      (instructionLine address (.ofWord word) label comments).toList
      (Clause.instruction (Opcode.listed word label).1 (Opcode.listed word label).2).kinds := by
  have hmnemonic : ∀ mnemonic : Mnemonic, mnemonic.text.length < mnemonicWidth := by
    intro mnemonic
    cases mnemonic <;> decide
  have hblanks : List.replicate
      (mnemonicWidth - (Opcode.listed word label).1.mnemonic.text.length) ' ' ≠ [] := by
    rw [Ne, List.replicate_eq_nil_iff]
    exact Nat.sub_ne_zero_of_lt (hmnemonic _)
  have hreads := (Mnemonic.spelling (Opcode.mnemonic_listed_ne word label)).reads.append hblanks
    (isSeparator_of_mem_replicate _)
    (Operand.reads_intercalate (Opcode.writable_listed word hlabel))
  rw [instructionLine, Opcode.parts_ofWord, Opcode.raw_ofWord]
  cases comments with
  | false =>
    simp only [Bool.false_eq_true, if_false, String.toList_append, toList_column]
    rw [← List.append_assoc]
    exact (hreads.append_separators (isSeparator_of_mem_replicate _)).mono
      fun _ => Lexeme.EndsLine.endsToken
  | true =>
    have hlength := Opcode.length_listed_lt word (hfits rfl)
    have hpadding : List.replicate (operandsWidth -
        (", ".intercalate ((Opcode.listed word label).2.map Operand.text)).length) ' ' ≠ [] := by
      rw [Ne, List.replicate_eq_nil_iff]
      exact Nat.sub_ne_zero_of_lt hlength
    have hbody : '\n' ∉ " addr : ".toList ++ (Numeral.hex 1 address).toList ++
        "; opcode : ".toList ++ "0x".toList ++ (Numeral.hex 4 word.toNat).toList := by
      have hwords : '\n' ∉ " addr : ".toList ∧ '\n' ∉ "; opcode : ".toList ∧
          '\n' ∉ "0x".toList := by decide
      simp only [List.mem_append, not_or]
      exact ⟨⟨⟨⟨hwords.1, newline_not_mem_hex 1 address⟩, hwords.2.1⟩, hwords.2.2⟩,
        newline_not_mem_hex 4 word.toNat⟩
    have hline := hreads.append_comment hpadding (isSeparator_of_mem_replicate _) hbody
    have hmark : "; addr : ".toList = ';' :: " addr : ".toList := by decide
    simp only [if_true, String.toList_append, toList_column, Numeral.marked, hmark]
    simpa only [List.append_assoc, List.cons_append, List.nil_append, Clause.kinds] using hline

/-- The line of a byte is read as a block of one byte. -/
theorem reads_dataLine {address : Nat} (hlt : address < Machine.numberBound) (byte : UInt8) :
    Reads Lexeme.EndsLine (dataLine address byte).toList
      (Clause.data address [byte.toNat]).kinds := by
  have hbyte : byte.toNat < Machine.numberBound := Nat.lt_trans byte.toNat_lt (by decide)
  have hkeyword : Spelling Token.Kind.data.text.toList .data := .data (by decide)
  have hoperands := @Operand.reads_intercalate [.integer address, .integer byte.toNat]
    (by simp [Operand.Writable.integer hlt, Operand.Writable.integer hbyte])
  have htab : ∀ c ∈ "\t".toList, Lexeme.isSeparator c = true := List.all_eq_true.mp (by decide)
  have hreads := hkeyword.reads.append (by decide) htab hoperands
  refine Reads.mono ?_ fun _ => Lexeme.EndsLine.endsToken
  simpa [dataLine, String.toList_intercalate, Clause.kinds, Clause.number] using hreads

/-- The line of a label is read as its definition. -/
theorem reads_labelLine {name : String} (hname : (Operand.label name).Writable) :
    Reads Lexeme.EndsLine (labelLine name).toList (Clause.label name).kinds :=
  hname.spelling.reads.mono fun _ => Lexeme.EndsLine.endsToken

end Listing

end ChipEight
