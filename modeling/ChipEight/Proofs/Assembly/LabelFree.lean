import ChipEight.Proofs.Assembly.Arrangement

/-!
# Labels are notation

The definitions of labels may be left out of a program and their uses replaced by addresses.
What is left are clauses that take the same places and whose operands are numbers and registers,
so that the tokens without labels are assembled to the same bytes.
-/

namespace ChipEight

/-- A kind of token in which a label is replaced by its address, if it has one. -/
def Token.Kind.resolved (address? : String → Option Nat) : Token.Kind → Token.Kind
  | operand value => operand (value.resolved address?)
  | kind => kind

/-- A token in which a label is replaced by its address, if it has one. -/
def Token.resolved (address? : String → Option Nat) (token : Token) : Token :=
  ⟨token.value.resolved address?, token.position⟩

/-- The kinds of tokens are resolved with them. -/
theorem Token.map_value_resolved (address? : String → Option Nat) (tokens : List Token) :
    (tokens.map (·.resolved address?)).map (·.value) =
      (tokens.map (·.value)).map (Token.Kind.resolved address?) := by
  simp [Token.resolved, Function.comp_def]

/-- Tokens from which the definitions of labels are left out and in which the labels that are
operands are replaced by their addresses. What cannot be read stays as it is, and so does what
stands behind the end mark. -/
def Token.withoutLabels (address? : String → Option Nat) : List Token → List Token
  | [] => []
  | token :: rest =>
    match Statement.read token rest with
    | .error _ => token :: rest
    | .ok (statement, taken) =>
      match statement with
      | .label _ _ => withoutLabels address? (rest.drop taken)
      | .data _ _ _ | .instruction _ =>
        (token :: rest.take taken).map (·.resolved address?) ++
          withoutLabels address? (rest.drop taken)
termination_by tokens => tokens.length
decreasing_by all_goals exact Nat.lt_succ_of_le (List.drop_sublist _ _).length_le

namespace Operand

/-- Labels are replaced by numbers, so that registers are what they were. -/
theorem resolved_eq_register_iff {address? : String → Option Nat} {operand : Operand}
    {number : Nat} : operand.resolved address? = register number ↔ operand = register number := by
  cases operand with
  | label name => cases haddress : address? name <;> simp [resolved, haddress]
  | integer | register => exact Iff.rfl

/-- Without addresses nothing is replaced. -/
theorem resolved_none : resolved (fun _ => none) = id := by
  funext operand
  cases operand <;> rfl

end Operand

/-- A form admits operands whose labels are replaced by their addresses. -/
theorem Opcode.Admits.resolved {opcode : Opcode} {operands : List Operand}
    (hadmits : opcode.Admits operands) (address? : String → Option Nat) :
    opcode.Admits (operands.map (Operand.resolved address?)) where
  mem_table := hadmits.mem_table
  length_eq := by rw [List.length_map, hadmits.length_eq]
  second htwo := by
    rw [hadmits.second htwo]
    simp [Operand.resolved_eq_register_iff]

namespace Clause

variable {address? : String → Option Nat} {clause other : Clause} {clauses : List Clause}

/-- A clause in which the labels that are operands are replaced by their addresses, unless it
defines a label. -/
def withoutLabel? (address? : String → Option Nat) : Clause → Option Clause
  | label _ => none
  | data start bytes => some (.data start bytes)
  | instruction opcode operands =>
    some (.instruction opcode (operands.map (Operand.resolved address?)))

/-- The tokens of a clause without labels are those of the clause, each without labels. -/
theorem kinds_of_withoutLabel? (hother : clause.withoutLabel? address? = some other) :
    other.kinds = clause.kinds.map (Token.Kind.resolved address?) := by
  cases clause with
  | label name => cases hother
  | data start bytes =>
    cases hother
    simp [kinds, number, Token.Kind.resolved, Operand.resolved, Function.comp_def]
  | instruction opcode operands =>
    cases hother
    simp [kinds, Token.Kind.resolved, Function.comp_def]

/-- Blocks stay as they are. -/
theorem eq_data_of_withoutLabel? {start : Nat} {bytes : List Nat}
    (hother : clause.withoutLabel? address? = some (.data start bytes)) :
    clause = .data start bytes := by
  cases clause with
  | label | instruction => cases hother
  | data =>
    cases hother
    rfl

/-- The form of a clause admits its operands without labels. -/
theorem admits_of_withoutLabel? (hother : clause.withoutLabel? address? = some other)
    (hadmits : ∀ form ∈ clause.instruction?, form.1.Admits form.2) :
    ∀ form ∈ other.instruction?, form.1.Admits form.2 := by
  intro form hform
  cases clause with
  | label name => cases hother
  | data start bytes =>
    cases hother
    cases hform
  | instruction opcode operands =>
    cases hother
    cases hform
    exact (hadmits _ rfl).resolved address?

/-- Tokens without labels spell the clauses without labels. -/
theorem Spells.withoutLabels {tokens : List Token}
    (hspells : Spells clauses (tokens.map (·.value))) (address? : String → Option Nat) :
    Spells (clauses.filterMap (withoutLabel? address?))
      ((Token.withoutLabels address? tokens).map (·.value)) := by
  induction clauses generalizing tokens with
  | nil =>
    obtain _ | ⟨⟨kind, position⟩, rest⟩ := tokens
    · cases hspells
    · obtain rfl : kind = .eof := hspells.eq_nil_iff.mp rfl
      rw [Token.withoutLabels]
      exact .done
  | cons clause clauses ih =>
    obtain _ | ⟨token, rest⟩ := tokens
    · cases hspells
    · obtain ⟨statement, taken, hread, hsaid, hrest⟩ := Statement.exists_read_of_spells hspells
      -- Where a label starts a statement it is a definition, and anywhere else it is an operand.
      have hkept : ∀ other, clause.withoutLabel? address? = some other →
          Spells (other :: clauses.filterMap (withoutLabel? address?))
            (((token :: rest.take taken).map (·.resolved address?) ++
              Token.withoutLabels address? (rest.drop taken)).map (·.value)) := by
        intro other hother
        rw [List.map_append, Token.map_value_resolved, List.map_cons,
          Statement.kinds_of_read hread hsaid, ← kinds_of_withoutLabel? hother]
        refine (ih hrest).cons (fun start hblock => ?_)
          (admits_of_withoutLabel? hother fun form hform => hspells.admits form ?_)
        · obtain rfl := hblock
          exact hspells.ne_empty_block start (eq_data_of_withoutLabel? hother)
        · exact List.mem_filterMap.mpr ⟨clause, List.mem_cons_self, hform⟩
      rw [Token.withoutLabels, hread]
      cases hsaid with
      | label => exact ih hrest
      | data | instruction => exact hkept _ rfl

/-- Clauses give the same addresses the same bytes without labels. -/
theorem cells_withoutLabels (address? : String → Option Nat) (clauses : List Clause) :
    cells (clauses.filterMap (withoutLabel? address?)) = cells clauses := by
  induction clauses with
  | nil => rfl
  | cons clause clauses ih =>
    cases clause with
    | label name => exact ih
    | data start bytes => exact congrArg (cellsFrom start bytes ++ ·) ih
    | instruction opcode operands => exact ih

/-- Clauses without labels have the instructions of the clauses, each without labels. -/
theorem instructions_withoutLabels (address? : String → Option Nat) (clauses : List Clause) :
    instructions (clauses.filterMap (withoutLabel? address?)) =
      (instructions clauses).map fun instruction =>
        (instruction.1, instruction.2.map (Operand.resolved address?)) := by
  rw [instructions, instructions, List.filterMap_filterMap, List.map_filterMap]
  refine List.filterMap_congr fun clause _ => ?_
  cases clause <;> rfl

/-- Clauses without labels define none. -/
theorem definitionsFrom_withoutLabels (address? : String → Option Nat) (before : Nat)
    (clauses : List Clause) :
    definitionsFrom before (clauses.filterMap (withoutLabel? address?)) = [] := by
  induction clauses generalizing before with
  | nil => rfl
  | cons clause clauses ih =>
    cases clause with
    | label name => exact ih before
    | data start bytes => exact ih before
    | instruction opcode operands => exact ih (before + 1)

/-- Clauses without labels take the same places. -/
theorem samePlaces_withoutLabels (address? : String → Option Nat) (clauses : List Clause) :
    SamePlaces clauses (clauses.filterMap (withoutLabel? address?)) where
  cells_perm := .of_eq (cells_withoutLabels address? clauses).symm
  length_eq := by rw [instructions_withoutLabels, List.length_map]

/-- No label that is defined is left among operands. -/
theorem not_mem_label_withoutLabels {site : Nat → Nat}
    (hdefined : ∀ instruction ∈ instructions clauses, ∀ name, .label name ∈ instruction.2 →
      ∃ index, (name, index) ∈ definitions clauses) :
    ∀ instruction ∈ instructions
      (clauses.filterMap (withoutLabel? (addressOf? clauses site))), ∀ name,
      .label name ∉ instruction.2 := by
  rw [instructions_withoutLabels]
  intro _ hmem name hlabel
  obtain ⟨instruction, hinstruction, rfl⟩ := List.mem_map.mp hmem
  obtain ⟨operand, hoperand, hresolved⟩ := List.mem_map.mp hlabel
  obtain ⟨rfl, hnone⟩ := Operand.eq_none_of_resolved_eq_label hresolved
  obtain ⟨index, hindex⟩ := hdefined instruction hinstruction name hoperand
  rw [addressOf?, Option.map_eq_none_iff, List.lookup_eq_none_iff] at hnone
  simpa using hnone _ hindex

/-- No clause without labels is an empty block. -/
theorem not_mem_empty_block_withoutLabels (hempty : ∀ start, .data start [] ∉ clauses)
    (start : Nat) : .data start [] ∉ clauses.filterMap (withoutLabel? address?) := by
  intro hmem
  obtain ⟨clause, hclause, hother⟩ := List.mem_filterMap.mp hmem
  exact hempty start (eq_data_of_withoutLabel? hother ▸ hclause)

/-- A program of well-formed clauses is one of the clauses without labels, once it lists no
symbols. -/
theorem program_withoutLabels {site : Nat → Nat} (hempty : ∀ start, .data start [] ∉ clauses)
    (hformed : WellFormed clauses site) {program : Program}
    (hmeans : program.Means clauses site) :
    WellFormed (clauses.filterMap (withoutLabel? (addressOf? clauses site))) site ∧
      Program.Means ⟨program.bytes, []⟩
        (clauses.filterMap (withoutLabel? (addressOf? clauses site))) site := by
  have hplaces := samePlaces_withoutLabels (addressOf? clauses site) clauses
  have hdefinitions : definitions (clauses.filterMap (withoutLabel? (addressOf? clauses site))) =
      [] := definitionsFrom_withoutLabels _ 0 clauses
  have hinstructions := instructions_withoutLabels (addressOf? clauses site) clauses
  refine ⟨hplaces.wellFormed hformed hempty (not_mem_empty_block_withoutLabels hempty) ?_ ?_ ?_,
    hplaces.means hmeans ?_ List.nodup_nil ?_⟩
  · rw [hdefinitions]
    exact List.nodup_nil
  · intro instruction hmem name hlabel
    exact absurd hlabel (not_mem_label_withoutLabels hformed.defined instruction hmem name)
  · have haddress : addressOf?
        (clauses.filterMap (withoutLabel? (addressOf? clauses site))) site = fun _ => none := by
      funext name
      rw [addressOf?, hdefinitions]
      rfl
    rw [haddress, Operand.resolved_none, hinstructions, List.forall_mem_map]
    simpa using hformed.operands_fit
  · intro index opcode operands hindex
    rw [hinstructions, List.getElem?_map, Option.map_eq_some_iff] at hindex
    obtain ⟨⟨_, original⟩, hclause, heq⟩ := hindex
    obtain ⟨rfl, rfl⟩ := Prod.mk.inj heq
    have hnone : (List.lookup · ([] : List (String × Nat))) = fun _ => none := rfl
    rw [hnone, Operand.resolved_none, List.map_id, ← hmeans.lookup_symbols hformed.names_nodup]
    exact hmeans.code index _ original hclause
  · simp [hdefinitions]

end Clause

/-- The sites of well-formed clauses lie in memory or at its end, that after the last
instruction as well. -/
theorem Clause.WellFormed.site_le {clauses : List Clause} {site : Nat → Nat}
    (hformed : WellFormed clauses site) (hsites : Sites clauses site) {index : Nat}
    (hle : index ≤ (instructions clauses).length) : site index ≤ Machine.memorySize := by
  have hfree : ¬IsData clauses Machine.memorySize := fun hdata =>
    Nat.lt_irrefl _ (hformed.data_lt _ hdata)
  cases index with
  | zero => exact hsites.first.2 ⟨by decide, hfree⟩
  | succ index => exact (hsites.next index).2 ⟨hformed.code_le index hle, hfree⟩

/-- The addresses of labels are numbers. -/
theorem Program.Means.symbol_lt {program : Program} {clauses : List Clause} {site : Nat → Nat}
    (hmeans : program.Means clauses site) (hsites : Clause.Sites clauses site)
    (hformed : Clause.WellFormed clauses site) {name : String} {address : Nat}
    (hsymbol : (name, address) ∈ program.symbols) : address < Machine.numberBound := by
  obtain ⟨index, hindex, rfl⟩ := (hmeans.symbols_iff name address).mp hsymbol
  have hindex' := Clause.le_of_mem_definitionsFrom hindex
  rw [Nat.zero_add] at hindex'
  exact Nat.lt_of_le_of_lt (hformed.site_le hsites hindex') (by decide)

/-- The definitions of labels may be left out of tokens that are assembled to a program, and
their uses replaced by their addresses, which are numbers: the bytes stay the same. -/
theorem Program.ofTokens_withoutLabels {tokens : List Token} {program : Program}
    (hprogram : ofTokens tokens = .ok program) :
    (∀ entry ∈ program.symbols, entry.2 < Machine.numberBound) ∧
      ofTokens (Token.withoutLabels (List.lookup · program.symbols) tokens) =
        .ok ⟨program.bytes, []⟩ := by
  obtain ⟨clauses, hspells⟩ := exists_spells_of_ofTokens hprogram
  obtain ⟨site, hsites⟩ := Clause.exists_sites clauses
  obtain ⟨hformed, hmeans, _⟩ := (ofTokens_eq_ok_iff_means hspells hsites).mp hprogram
  refine ⟨fun entry hentry => hmeans.symbol_lt hsites hformed hentry, ?_⟩
  rw [hmeans.lookup_symbols hformed.names_nodup]
  obtain ⟨hformed', hmeans'⟩ :=
    Clause.program_withoutLabels hspells.not_mem_empty_block hformed hmeans
  have hsites' := (Clause.samePlaces_withoutLabels (Clause.addressOf? clauses site)
    clauses).sites hsites
  exact (ofTokens_eq_ok_iff_means (hspells.withoutLabels _) hsites').mpr
    ⟨hformed', hmeans', List.Pairwise.nil⟩

/-- Two jumps to each other over a block are assembled with numbers as with labels. -/
theorem Program.ofTokens_jumps_withoutLabels :
    Token.withoutLabels (List.lookup · [("a", 0x200), ("b", 0x203)])
        ([.operand (.label "a"), .instruction .jmp, .operand (.label "b"), .data,
          .operand (.integer 0x202), .operand (.integer 7), .operand (.label "b"),
          .instruction .jmp, .operand (.label "a"), .eof].map (⟨·, .first⟩)) =
      [.instruction .jmp, .operand (.integer 0x203), .data, .operand (.integer 0x202),
        .operand (.integer 7), .instruction .jmp, .operand (.integer 0x200), .eof].map
          (⟨·, .first⟩) ∧
      ofTokens ([.instruction .jmp, .operand (.integer 0x203), .data, .operand (.integer 0x202),
        .operand (.integer 7), .instruction .jmp, .operand (.integer 0x200), .eof].map
          (⟨·, .first⟩)) = .ok ⟨#[0x12, 0x03, 0x07, 0x12, 0x00], []⟩ := by
  have hprogram : ofTokens ([.operand (.label "a"), .instruction .jmp, .operand (.label "b"),
      .data, .operand (.integer 0x202), .operand (.integer 7), .operand (.label "b"),
      .instruction .jmp, .operand (.label "a"), .eof].map (⟨·, .first⟩)) =
        .ok ⟨#[0x12, 0x03, 0x07, 0x12, 0x00], [("a", 0x200), ("b", 0x203)]⟩ := by
    cbv
  suffices htokens : _ = _ from ⟨htokens, htokens ▸ (ofTokens_withoutLabels hprogram).2⟩
  decide +kernel

end ChipEight
