import Mathlib.Data.List.Forall2
import ChipEight.Proofs.Text.Spellings

/-!
# Texts between separators

A text is read as tokens if it is read so in front of every text that may follow it. Texts
with separators between them are then read one after another, and a comment may end a line.
-/

namespace ChipEight

/-- A text is read as tokens of some kinds in front of every text with a given property. -/
def Reads (follows : List Char → Prop) (text : List Char) (kinds : List Token.Kind) : Prop :=
  ∀ tail more, follows tail → Lexes tail more → Lexes (text ++ tail) (kinds ++ more)

variable {follows : List Char → Prop} {text : List Char} {kinds : List Token.Kind}

/-- What is read in front of some texts is read in front of fewer. -/
theorem Reads.mono {other : List Char → Prop} (hreads : Reads follows text kinds)
    (himp : ∀ tail, other tail → follows tail) : Reads other text kinds :=
  fun tail more hfollows => hreads tail more (himp tail hfollows)

/-- No text is read as no tokens. -/
theorem Reads.nil : Reads follows [] [] :=
  fun _ _ _ hlexes => hlexes

/-- A spelled token is read where a separator or nothing follows. -/
theorem Spelling.reads {kind : Token.Kind} (hspelling : Spelling text kind) :
    Reads Lexeme.EndsToken text [kind] :=
  fun _ _ hends hlexes => Lexes.of_spelling hspelling hends hlexes

/-- The end of a line ends a token. -/
theorem Lexeme.EndsLine.endsToken {tail : List Char} (hends : EndsLine tail) : EndsToken tail := by
  intro c hmem
  rw [hends c hmem]
  decide

/-- Separators end a token. -/
theorem Lexeme.endsToken_append {separators : List Char} (hnonempty : separators ≠ [])
    (hall : ∀ c ∈ separators, isSeparator c = true) (tail : List Char) :
    EndsToken (separators ++ tail) := by
  obtain ⟨c, separators, rfl⟩ := List.exists_cons_of_ne_nil hnonempty
  intro first hmem
  obtain rfl := Option.some.inj hmem
  exact hall _ List.mem_cons_self

/-- Separators in front of a text do not matter. -/
theorem Lexes.separators_append {separators : List Char}
    (hall : ∀ c ∈ separators, Lexeme.isSeparator c = true) (hlexes : Lexes text kinds) :
    Lexes (separators ++ text) kinds :=
  hlexes.of_skip_eq (Lexeme.skip_separators_append hall text)

/-- Texts with separators between them are read one after another. -/
theorem Reads.append {separators back : List Char} {others : List Token.Kind}
    (hfront : Reads Lexeme.EndsToken text kinds) (hnonempty : separators ≠ [])
    (hall : ∀ c ∈ separators, Lexeme.isSeparator c = true) (hback : Reads follows back others) :
    Reads follows (text ++ separators ++ back) (kinds ++ others) := by
  intro tail more hfollows hlexes
  have hrest := (hback tail more hfollows hlexes).separators_append hall
  have hends := Lexeme.endsToken_append hnonempty hall (back ++ tail)
  simpa only [List.append_assoc] using hfront _ _ hends hrest

/-- Separators may follow a text. -/
theorem Reads.append_separators {separators : List Char}
    (hreads : Reads Lexeme.EndsToken text kinds)
    (hall : ∀ c ∈ separators, Lexeme.isSeparator c = true) :
    Reads Lexeme.EndsToken (text ++ separators) kinds := by
  obtain rfl | hnonempty := eq_or_ne separators []
  · rwa [List.append_nil]
  · have happend := hreads.append hnonempty hall (@Reads.nil Lexeme.EndsToken)
    rwa [List.append_nil, List.append_nil] at happend

/-- A comment up to the end of the line may follow a text and separators. -/
theorem Reads.append_comment {separators body : List Char}
    (hreads : Reads Lexeme.EndsToken text kinds) (hnonempty : separators ≠ [])
    (hall : ∀ c ∈ separators, Lexeme.isSeparator c = true) (hbody : '\n' ∉ body) :
    Reads Lexeme.EndsLine (text ++ separators ++ ';' :: body) kinds := by
  have hcomment : Reads Lexeme.EndsLine (';' :: body) [] := fun tail more hends hlexes =>
    hlexes.of_skip_eq (Lexeme.skip_comment hbody hends)
  have happend := hreads.append hnonempty hall hcomment
  rwa [List.append_nil] at happend

/-- Texts that are joined by separators are read one after another, if each is read in front
of the separators. -/
theorem Reads.intercalate {separators : List Char} {texts : List (List Char)}
    {kindss : List (List Token.Kind)} (hfollows : ∀ tail, follows (separators ++ tail))
    (hall : ∀ c ∈ separators, Lexeme.isSeparator c = true)
    (hreads : List.Forall₂ (Reads follows) texts kindss) :
    Reads follows (separators.intercalate texts) kindss.flatten := by
  induction hreads with
  | nil => exact .nil
  | @cons text kinds texts kindss hhead htail ih =>
    cases htail with
    | nil => simpa using hhead
    | cons =>
      intro tail more hend hlexes
      have hrest := (ih tail more hend hlexes).separators_append hall
      rw [List.intercalate_cons_cons]
      simpa only [List.append_assoc, List.flatten_cons] using hhead _ _ (hfollows _) hrest

/-- A text that is read in front of nothing has the kinds of its tokens and the end mark. -/
theorem Reads.exists_tokenize {source : String} (hreads : Reads follows source.toList kinds)
    (hend : follows []) :
    ∃ tokens, tokenize source = .ok tokens ∧ tokens.map (·.value) = kinds ++ [.eof] := by
  have hlexes := hreads [] [.eof] hend (.done rfl)
  rw [List.append_nil] at hlexes
  exact exists_tokenize_of_lexes hlexes

/-- An operand that can be written: its number is in range, and the name of a label holds no
separators. -/
inductive Operand.Writable : Operand → Prop
  | integer {value : Nat} (hlt : value < Machine.numberBound) : Writable (.integer value)
  | register {number : Nat} (hlt : number < Machine.numberBound) : Writable (.register number)
  | label {name : String} (hnonempty : name ≠ "")
      (hname : ∀ c ∈ name.toList, Lexeme.isSeparator c = false) : Writable (.label name)

/-- The text of an operand that can be written spells it. -/
theorem Operand.Writable.spelling {operand : Operand} (hwritable : operand.Writable) :
    Spelling operand.text.toList (.operand operand) := by
  cases hwritable with
  | integer hlt =>
    rw [text, String.toList_append]
    exact .integer (Numeral.read_hex 1 hlt)
  | register hlt =>
    rw [text, String.toList_append]
    exact .register (Numeral.read_hex 1 hlt)
  | @label name hnonempty hname =>
    have hlist : name.toList ≠ [] := mt String.toList_eq_nil_iff.mp hnonempty
    have hspelling := Spelling.label hlist hname
    rw [String.ofList_toList] at hspelling
    rwa [text, String.toList_append]

/-- The text of a mnemonic other than the keyword of data spells it. -/
theorem Mnemonic.spelling {mnemonic : Mnemonic} (hdata : mnemonic ≠ .data) :
    Spelling mnemonic.text.toList (.instruction mnemonic) := by
  refine .instruction hdata ?_
  cases mnemonic <;> decide

/-- Operands that can be written are read off their texts with commas between them. -/
theorem Operand.reads_intercalate {operands : List Operand}
    (hwritable : ∀ operand ∈ operands, operand.Writable) :
    Reads Lexeme.EndsToken (", ".intercalate (operands.map Operand.text)).toList
      (operands.map Token.Kind.operand) := by
  have hall : ∀ c ∈ ", ".toList, Lexeme.isSeparator c = true :=
    List.all_eq_true.mp (by decide)
  have hreads : List.Forall₂ (Reads Lexeme.EndsToken)
      ((operands.map Operand.text).map String.toList)
      (operands.map fun operand => [Token.Kind.operand operand]) := by
    rw [List.map_map, List.forall₂_map_left_iff, List.forall₂_map_right_iff, List.forall₂_same]
    exact fun operand hmem => (hwritable operand hmem).spelling.reads
  have hjoined := Reads.intercalate (Lexeme.endsToken_append (by decide) hall) hall hreads
  rw [← List.flatMap_def, ← List.map_eq_flatMap] at hjoined
  rwa [String.toList_intercalate]

end ChipEight
