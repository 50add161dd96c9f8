import ChipEight.Assembly.Draft
import ChipEight.Proofs.Assembly.Clauses

/-!
# Reading clauses from tokens

Reading a statement takes the tokens of one clause from the front. The lemmas here say
which tokens are taken; together they show that a program's tokens are read to the end
exactly if they spell clauses.
-/

namespace ChipEight

/-- The token of an operand. -/
def Operand.token (operand : Located Operand) : Token :=
  ⟨.operand operand.value, operand.position⟩

/-- Tokens whose kinds come from some values are those values at their positions. -/
theorem exists_located_of_map_value {α : Type} (kind : α → Token.Kind) {tokens : List Token}
    {values : List α} (hkinds : tokens.map (·.value) = values.map kind) :
    ∃ located : List (Located α), located.map (·.value) = values ∧
      tokens = located.map fun value => ⟨kind value.value, value.position⟩ := by
  induction tokens generalizing values with
  | nil =>
    obtain rfl := List.map_eq_nil_iff.mp hkinds.symm
    exact ⟨[], rfl, rfl⟩
  | cons token tokens ih =>
    obtain _ | ⟨value, values⟩ := values
    · cases hkinds
    · obtain ⟨hhead, htail⟩ := List.cons.inj hkinds
      obtain ⟨located, rfl, rfl⟩ := ih htail
      exact ⟨⟨value, token.position⟩ :: located, rfl, by rw [List.map_cons, ← hhead]⟩

namespace SourceInstruction

/-- Completing an instruction takes its operands from the front. -/
theorem complete_operands (instruction : SourceInstruction) (operands : List (Located Operand))
    (rest : List Token) :
    instruction.complete operands.length (operands.map Operand.token ++ rest) =
      .ok { instruction with operands := instruction.operands ++ operands } := by
  induction operands generalizing instruction with
  | nil => simp [complete]
  | cons operand operands ih =>
    simp [complete, addOperand, Operand.token, Token.Kind.operand?, bind, Except.bind, ih]

/-- A completed instruction has taken operands from the front. -/
theorem exists_operands_of_complete {instruction completed : SourceInstruction} {missing : Nat}
    {tokens : List Token} (hcomplete : instruction.complete missing tokens = .ok completed) :
    ∃ operands rest, tokens = operands.map Operand.token ++ rest ∧ operands.length = missing ∧
      completed = { instruction with operands := instruction.operands ++ operands } := by
  induction missing generalizing instruction tokens with
  | zero =>
    simp only [complete, Except.ok.injEq] at hcomplete
    exact ⟨[], tokens, rfl, rfl, by simp [← hcomplete]⟩
  | succ missing ih =>
    obtain _ | ⟨⟨kind, position⟩, tokens⟩ := tokens
    · cases hcomplete
    · cases kind with
      | operand operand =>
        obtain ⟨operands, rest, rfl, rfl, rfl⟩ := ih hcomplete
        exact ⟨⟨operand, position⟩ :: operands, rest, rfl, rfl, by simp⟩
      | instruction | data | eof => cases hcomplete

end SourceInstruction

namespace Statement

/-- The token of a number. -/
def numberToken (value : Located Nat) : Token :=
  ⟨Clause.number value.value, value.position⟩

/-- A token that is a number is the token of that number. -/
theorem eq_numberToken_of_integer? {token : Token} {value : Located Nat}
    (hvalue : integer? token = some value) : token = numberToken value := by
  unfold integer? at hvalue
  split at hvalue
  · cases hvalue
    rfl
  · cases hvalue

/-- Tokens divide into the numbers in front and the rest, which does not start with one. -/
theorem integers_append (tokens : List Token) :
    ∃ rest, tokens = (integers tokens).map numberToken ++ rest ∧
      ∀ value, (rest.map (·.value)).head? ≠ some (Clause.number value) := by
  induction tokens with
  | nil => exact ⟨[], rfl, by simp⟩
  | cons token tokens ih =>
    cases hnumber : integer? token with
    | none =>
      refine ⟨token :: tokens, by simp [integers, hnumber], fun value hhead => ?_⟩
      obtain ⟨kind, position⟩ := token
      simp only [List.map_cons, List.head?_cons, Option.some.injEq] at hhead
      simp [hhead, Clause.number, integer?] at hnumber
    | some value =>
      obtain ⟨rest, htokens, hrest⟩ := ih
      have hintegers : integers (token :: tokens) = value :: integers tokens := by
        simp [integers, hnumber]
      have htoken := eq_numberToken_of_integer? hnumber
      exact ⟨rest, by rw [hintegers, htoken, List.map_cons, List.cons_append, ← htokens], hrest⟩

/-- The numbers in front of some tokens end where the tokens stop being numbers. -/
theorem integers_of_maximal {values : List (Located Nat)} {rest : List Token}
    (hmaximal : ∀ value, (rest.map (·.value)).head? ≠ some (Clause.number value)) :
    integers (values.map numberToken ++ rest) = values := by
  induction values with
  | nil =>
    obtain _ | ⟨⟨kind, position⟩, rest⟩ := rest
    · rfl
    · have hnone : integer? ⟨kind, position⟩ = none := by
        unfold integer?
        split
        · next value _ heq =>
          cases heq
          exact absurd rfl (hmaximal value)
        · rfl
      simp [integers, hnone]
  | cons value values ih =>
    simpa [integers, numberToken, Clause.number, integer?] using ih

/-- The token after the first operand of an instruction is looked up by its kind. -/
theorem getElem?_map_value (operands : List (Located Operand)) (rest : List Token)
    (index : Nat) :
    (operands.map Operand.token ++ rest)[index]?.map (·.value) =
      ((operands.map (·.value)).map Token.Kind.operand ++ rest.map (·.value))[index]? := by
  rw [← List.getElem?_map, List.map_append, List.map_map, List.map_map]
  rfl

/-- An instruction that is read has a form, and its operands stand in front. -/
theorem exists_of_readInstruction {mnemonic : Mnemonic} {position : Position}
    {rest : List Token} {instruction : SourceInstruction}
    (hread : readInstruction mnemonic position rest = .ok instruction) :
    ∃ (opcode : Opcode) (tail : List Token), opcode.mnemonic = mnemonic ∧
      instruction.mnemonic = opcode.mnemonic ∧ instruction.shape = opcode.shape ∧
      opcode.Admits (instruction.operands.map (·.value)) ∧
      rest = instruction.operands.map Operand.token ++ tail := by
  unfold readInstruction at hread
  split at hread
  · next shape hshape =>
    obtain ⟨operands, tail, rfl, hlength, rfl⟩ :=
      SourceInstruction.exists_operands_of_complete hread
    rw [getElem?_map_value] at hshape
    obtain ⟨opcode, rfl, rfl, hadmits⟩ :=
      Opcode.admits_of_shapeFor? hshape (by rw [List.length_map, hlength])
    exact ⟨opcode, tail, rfl, rfl, rfl, hadmits, rfl⟩
  · cases hread

/-- A form that admits operands is read with them. -/
theorem readInstruction_of_admits {opcode : Opcode} {operands : List (Located Operand)}
    (hadmits : opcode.Admits (operands.map (·.value))) (position : Position)
    (rest : List Token) :
    readInstruction opcode.mnemonic position (operands.map Operand.token ++ rest) =
      .ok ⟨opcode.mnemonic, opcode.shape, operands, position⟩ := by
  have hlength : opcode.shape.arity = operands.length := by simpa using hadmits.length_eq.symm
  have hcomplete := SourceInstruction.complete_operands
    (.bare opcode.mnemonic opcode.shape position) operands rest
  simp only [readInstruction, getElem?_map_value, hadmits.shapeFor?_eq, hlength, hcomplete]
  rfl

/-- A statement that is read says a clause, whose tokens are taken and whose form admits its
operands. -/
theorem exists_clause_of_read {token : Token} {rest : List Token} {statement : Statement}
    {taken : Nat} (hread : read token rest = .ok (statement, taken)) :
    ∃ clause, statement.Says clause ∧ (∀ form ∈ clause.instruction?, form.1.Admits form.2) ∧
      token.value :: (rest.take taken).map (·.value) = clause.kinds := by
  obtain ⟨kind, position⟩ := token
  cases kind with
  | instruction mnemonic =>
    simp only [read] at hread
    cases hinstruction : readInstruction mnemonic position rest with
    | error error => simp [hinstruction, bind, Except.bind] at hread
    | ok instruction =>
      simp only [hinstruction, bind, Except.bind, pure, Except.pure, Except.ok.injEq,
        Prod.mk.injEq] at hread
      obtain ⟨rfl, rfl⟩ := hread
      obtain ⟨opcode, tail, rfl, hmnemonic, hshape, hadmits, rfl⟩ :=
        exists_of_readInstruction hinstruction
      have hlength : instruction.shape.arity =
          (instruction.operands.map Operand.token).length := by
        rw [hshape, ← hadmits.length_eq, List.length_map, List.length_map]
      refine ⟨_, .instruction hmnemonic hshape, fun form hform => ?_, ?_⟩
      · obtain rfl := Option.some.inj hform
        exact hadmits
      · rw [hlength, List.take_left]
        simp [Clause.kinds, Operand.token, Function.comp_def]
  | data =>
    simp only [read] at hread
    obtain _ | ⟨address, rest⟩ := rest
    · cases hread
    · cases hstart : integer? address with
      | none => simp [hstart] at hread
      | some start =>
        simp only [hstart, Except.ok.injEq, Prod.mk.injEq] at hread
        obtain ⟨rfl, rfl⟩ := hread
        obtain ⟨tail, htokens, _⟩ := integers_append rest
        generalize integers rest = bytes at htokens
        subst htokens
        refine ⟨_, .data, fun _ hform => absurd hform (Option.not_mem_none _), ?_⟩
        rw [List.take_succ_cons, List.take_left' (by rw [List.length_map]),
          eq_numberToken_of_integer? hstart]
        simp [Clause.kinds, numberToken, Function.comp_def]
  | operand operand =>
    cases operand with
    | label name =>
      simp only [read, Except.ok.injEq, Prod.mk.injEq] at hread
      obtain ⟨rfl, rfl⟩ := hread
      exact ⟨_, .label, fun _ hform => absurd hform (Option.not_mem_none _), rfl⟩
    | integer | register => cases hread
  | eof => cases hread

/-- The tokens that are taken to read a statement are those of any clause that it says. -/
theorem kinds_of_read {token : Token} {rest : List Token} {statement : Statement} {taken : Nat}
    {clause : Clause} (hread : read token rest = .ok (statement, taken))
    (hsaid : statement.Says clause) :
    token.value :: (rest.take taken).map (·.value) = clause.kinds := by
  obtain ⟨other, hother, _, hkinds⟩ := exists_clause_of_read hread
  rw [hkinds]
  cases hsaid with
  | label | data =>
    cases hother
    rfl
  | instruction hmnemonic _ =>
    cases hother with
    | instruction hmnemonic' _ => rw [Clause.kinds, Clause.kinds, ← hmnemonic, ← hmnemonic']

/-- A statement that is read says a clause, whose tokens it takes, unless it is a block
without bytes. -/
theorem spells_of_read {token : Token} {rest : List Token} {statement : Statement}
    {taken : Nat} (hread : read token rest = .ok (statement, taken)) :
    (∃ position start, statement = .data position start []) ∨
      ∃ clause, statement.Says clause ∧ ∀ clauses,
        Clause.Spells clauses ((rest.drop taken).map (·.value)) →
          Clause.Spells (clause :: clauses) ((token :: rest).map (·.value)) := by
  obtain ⟨clause, hsaid, hadmits, hkinds⟩ := exists_clause_of_read hread
  by_cases hblock : ∀ start, clause ≠ .data start []
  · refine Or.inr ⟨clause, hsaid, fun clauses htail => ?_⟩
    have hspells := htail.cons hblock hadmits
    rwa [← hkinds, List.cons_append, ← List.map_append, List.take_append_drop] at hspells
  · obtain ⟨start, hclause⟩ := not_forall_not.mp hblock
    cases hsaid with
    | @data position first bytes =>
      obtain ⟨_, hbytes⟩ := Clause.data.inj hclause
      exact Or.inl ⟨position, first, by rw [List.map_eq_nil_iff.mp hbytes]⟩
    | label | instruction => cases hclause

/-- Where tokens spell a clause and more, a statement that says the clause is read, and
what is left spells the rest. -/
theorem exists_read_of_spells {clause : Clause} {clauses : List Clause} {token : Token}
    {rest : List Token}
    (hspells : Clause.Spells (clause :: clauses) ((token :: rest).map (·.value))) :
    ∃ statement taken, read token rest = .ok (statement, taken) ∧ statement.Says clause ∧
      Clause.Spells clauses ((rest.drop taken).map (·.value)) := by
  obtain ⟨kind, position⟩ := token
  generalize hkinds : ((⟨kind, position⟩ : Token) :: rest).map (·.value) = kinds at hspells
  rw [List.map_cons] at hkinds
  cases hspells with
  | label hrest =>
    obtain ⟨rfl, rfl⟩ := List.cons.inj hkinds
    exact ⟨_, 0, rfl, .label, hrest⟩
  | @data start bytes _ _ hbytes hmaximal hrest =>
    obtain ⟨rfl, hblock⟩ := List.cons.inj hkinds
    obtain ⟨⟨_, place⟩, block, rfl, rfl, hbytes'⟩ := List.map_eq_cons_iff.mp hblock
    obtain ⟨taken, tail, rfl, htaken, rfl⟩ := List.map_eq_append_iff.mp hbytes'
    obtain ⟨located, rfl, rfl⟩ := exists_located_of_map_value Clause.number htaken
    have hintegers : integers (located.map numberToken ++ tail) = located :=
      integers_of_maximal hmaximal
    refine ⟨.data position ⟨start, place⟩ located, located.length + 1, ?_, .data, ?_⟩
    · change read ⟨.data, position⟩
        (numberToken ⟨start, place⟩ :: (located.map numberToken ++ tail)) = _
      simp only [read, numberToken, Clause.number, integer?]
      exact congrArg (fun bytes => Except.ok (Statement.data position ⟨start, place⟩ bytes,
        bytes.length + 1)) hintegers
    · rw [List.drop_succ_cons, List.drop_left' (by rw [List.length_map])]
      exact hrest
  | @instruction opcode operands _ _ hadmits hrest =>
    obtain ⟨rfl, hoperands⟩ := List.cons.inj hkinds
    obtain ⟨taken, tail, rfl, htaken, rfl⟩ := List.map_eq_append_iff.mp hoperands
    obtain ⟨located, rfl, rfl⟩ := exists_located_of_map_value .operand htaken
    have hlength : opcode.shape.arity = located.length := by simpa using hadmits.length_eq.symm
    refine ⟨.instruction ⟨opcode.mnemonic, opcode.shape, located, position⟩, located.length,
      ?_, .instruction rfl rfl, ?_⟩
    · have hread := readInstruction_of_admits hadmits position tail
      change read ⟨.instruction opcode.mnemonic, position⟩
        (located.map Operand.token ++ tail) = _
      simp [read, hread, hlength, bind, Except.bind, pure, Except.pure]
    · rw [List.drop_left' (by rw [List.length_map])]
      exact hrest

end Statement

end ChipEight
