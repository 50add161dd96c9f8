import ChipEight.Assembly.Statement
import ChipEight.Proofs.Codec.Forms

/-!
# Clauses

A clause is a statement without its positions, and an instruction in it names its form.
The tokens of a program spell a sequence of clauses up to the first end mark that stands
where a clause could start. What a program says is read off its clauses: its instructions
in order, the byte that each address receives, and how many instructions stand before the
definition of each label.
-/

namespace ChipEight

/-- A statement without its positions. -/
inductive Clause
  | label (name : String)
  | data (start : Nat) (bytes : List Nat)
  | instruction (opcode : Opcode) (operands : List Operand)
  deriving DecidableEq, Repr

namespace Clause

/-- The token of a number. -/
def number (value : Nat) : Token.Kind :=
  .operand (.integer value)

/-- Some tokens spell clauses. Bytes run as far as there are numbers, and what stands
behind the end mark does not count. -/
inductive Spells : List Clause → List Token.Kind → Prop
  | done {rest : List Token.Kind} : Spells [] (.eof :: rest)
  | label {name : String} {clauses : List Clause} {rest : List Token.Kind}
      (hrest : Spells clauses rest) :
      Spells (.label name :: clauses) (.operand (.label name) :: rest)
  | data {start : Nat} {bytes : List Nat} {clauses : List Clause} {rest : List Token.Kind}
      (hbytes : bytes ≠ []) (hmaximal : ∀ value, rest.head? ≠ some (number value))
      (hrest : Spells clauses rest) :
      Spells (.data start bytes :: clauses) (.data :: number start :: (bytes.map number ++ rest))
  | instruction {opcode : Opcode} {operands : List Operand} {clauses : List Clause}
      {rest : List Token.Kind} (hadmits : opcode.Admits operands) (hrest : Spells clauses rest) :
      Spells (.instruction opcode operands :: clauses)
        (.instruction opcode.mnemonic :: (operands.map .operand ++ rest))

/-- The tokens of a clause. -/
def kinds : Clause → List Token.Kind
  | label name => [.operand (.label name)]
  | data start bytes => .data :: number start :: bytes.map number
  | instruction opcode operands => .instruction opcode.mnemonic :: operands.map .operand

/-- What spells clauses does not start with a number. -/
theorem Spells.head?_ne {clauses : List Clause} {kinds : List Token.Kind}
    (hspells : Spells clauses kinds) (value : Nat) : kinds.head? ≠ some (number value) := by
  cases hspells <;> simp [number]

/-- Tokens spell no clauses exactly if the end mark stands in front. -/
theorem Spells.eq_nil_iff {clauses : List Clause} {kind : Token.Kind} {rest : List Token.Kind}
    (hspells : Spells clauses (kind :: rest)) : clauses = [] ↔ kind = .eof := by
  cases hspells <;> simp

/-- No tokens spell a block without bytes. -/
theorem Spells.ne_empty_block {clause : Clause} {clauses : List Clause}
    {kinds : List Token.Kind} (hspells : Spells (clause :: clauses) kinds) (start : Nat) :
    clause ≠ .data start [] := by
  cases hspells with
  | data hbytes => simpa using fun _ => hbytes
  | label | instruction => simp

/-- The instruction of a clause. -/
def instruction? : Clause → Option (Opcode × List Operand)
  | instruction opcode operands => some (opcode, operands)
  | label _ | data _ _ => none

/-- The instructions of some clauses in order. -/
def instructions (clauses : List Clause) : List (Opcode × List Operand) :=
  clauses.filterMap instruction?

/-- The addresses that receive bytes from an address on, each with its byte. -/
def cellsFrom (address : Nat) : List Nat → List (Nat × Nat)
  | [] => []
  | byte :: bytes => (address, byte) :: cellsFrom (address + 1) bytes

/-- The addresses that some clauses give bytes to, each with its byte. -/
def cells (clauses : List Clause) : List (Nat × Nat) :=
  clauses.flatMap fun
    | data start bytes => cellsFrom start bytes
    | label _ | instruction _ _ => []

/-- The labels that some clauses define, each with the number of instructions before it,
of which `before` stand before the clauses. -/
def definitionsFrom (before : Nat) : List Clause → List (String × Nat)
  | [] => []
  | label name :: clauses => (name, before) :: definitionsFrom before clauses
  | data _ _ :: clauses => definitionsFrom before clauses
  | instruction _ _ :: clauses => definitionsFrom (before + 1) clauses

/-- The labels that some clauses define, each with the number of instructions before it. -/
def definitions (clauses : List Clause) : List (String × Nat) :=
  definitionsFrom 0 clauses

/-- Some clauses give an address a byte. -/
def IsData (clauses : List Clause) (address : Nat) : Prop :=
  ∃ byte, (address, byte) ∈ cells clauses

/-- Clauses do not contradict each other: no label is defined twice, blocks start in the
program's part of memory and hold bytes, no address receives two of them, and the address
after each of them is a number. -/
structure Consistent (clauses : List Clause) : Prop where
  names_nodup : ((definitions clauses).map (·.1)).Nodup
  blocks : ∀ start bytes, .data start bytes ∈ clauses →
    Machine.loadAddress ≤ start ∧ ∀ byte ∈ bytes, byte ≤ 0xFF
  addresses_nodup : ((cells clauses).map (·.1)).Nodup
  addresses_lt : ∀ address ∈ (cells clauses).map (·.1), address + 1 < Machine.numberBound

/-- The addresses of a block follow one another. -/
theorem map_fst_cellsFrom (start : Nat) (bytes : List Nat) :
    (cellsFrom start bytes).map (·.1) = List.range' start bytes.length := by
  induction bytes generalizing start with
  | nil => rfl
  | cons byte bytes ih => simp [cellsFrom, ih, List.range'_succ]

/-- The bytes of a block stand in order. -/
theorem map_snd_cellsFrom (start : Nat) (bytes : List Nat) :
    (cellsFrom start bytes).map (·.2) = bytes := by
  induction bytes generalizing start with
  | nil => rfl
  | cons byte bytes ih => simp [cellsFrom, ih]

/-- Instructions of more clauses come last. -/
theorem instructions_append (clauses more : List Clause) :
    instructions (clauses ++ more) = instructions clauses ++ instructions more :=
  List.filterMap_append

/-- Cells of more clauses come last. -/
theorem cells_append (clauses more : List Clause) :
    cells (clauses ++ more) = cells clauses ++ cells more :=
  List.flatMap_append

/-- Definitions in more clauses count the instructions of all clauses before them. -/
theorem definitionsFrom_append (before : Nat) (clauses more : List Clause) :
    definitionsFrom before (clauses ++ more) = definitionsFrom before clauses ++
      definitionsFrom (before + (instructions clauses).length) more := by
  induction clauses generalizing before with
  | nil => rfl
  | cons clause clauses ih =>
    cases clause with
    | label name => simp [definitionsFrom, ih, instructions, instruction?, List.filterMap_cons]
    | data start bytes =>
      simp [definitionsFrom, ih, instructions, instruction?, List.filterMap_cons]
    | instruction opcode operands =>
      simp [definitionsFrom, ih, instructions, instruction?, Nat.add_right_comm, Nat.add_assoc]

/-- The instruction of one more clause comes last. -/
theorem instructions_concat (clauses : List Clause) (clause : Clause) :
    instructions (clauses ++ [clause]) = instructions clauses ++ clause.instruction?.toList := by
  rw [instructions_append]
  cases clause <;> rfl

/-- The definition in one more clause counts the instructions before it. -/
theorem definitions_concat (clauses : List Clause) (clause : Clause) :
    definitions (clauses ++ [clause]) =
      definitions clauses ++ definitionsFrom (instructions clauses).length [clause] := by
  rw [definitions, definitionsFrom_append, Nat.zero_add, definitions]

/-- No label stands after more instructions than there are. -/
theorem le_of_mem_definitionsFrom {before index : Nat} {name : String} {clauses : List Clause}
    (hmem : (name, index) ∈ definitionsFrom before clauses) :
    index ≤ before + (instructions clauses).length := by
  induction clauses generalizing before with
  | nil => cases hmem
  | cons clause clauses ih =>
    cases clause with
    | label other =>
      rcases List.mem_cons.mp hmem with heq | hmem
      · cases heq
        exact Nat.le_add_right _ _
      · exact ih hmem
    | data start bytes => exact ih hmem
    | instruction opcode operands =>
      have hle := ih hmem
      simp only [instructions, List.filterMap_cons, instruction?, List.length_cons] at hle ⊢
      omega

/-- The forms of instructions that tokens spell admit their operands. -/
theorem Spells.admits {clauses : List Clause} {kinds : List Token.Kind}
    (hspells : Spells clauses kinds) :
    ∀ instruction ∈ instructions clauses, instruction.1.Admits instruction.2 := by
  induction hspells with
  | done => simp [instructions]
  | label _ ih => simpa [instructions, instruction?, List.filterMap_cons] using ih
  | data _ _ _ ih => simpa [instructions, instruction?, List.filterMap_cons] using ih
  | instruction hadmits _ ih =>
    simp only [instructions, instruction?, List.filterMap_cons, List.forall_mem_cons]
    exact ⟨hadmits, ih⟩

/-- Blocks of clauses that tokens spell hold bytes. -/
theorem Spells.not_mem_empty_block {clauses : List Clause} {kinds : List Token.Kind}
    (hspells : Spells clauses kinds) (start : Nat) : .data start [] ∉ clauses := by
  induction hspells with
  | done => exact List.not_mem_nil
  | label | instruction => simpa
  | data hbytes => simpa [hbytes]

/-- The tokens of a clause in front of those of others spell them all, if the clause is no empty
block and its form admits its operands. -/
theorem Spells.cons {clause : Clause} {clauses : List Clause} {rest : List Token.Kind}
    (hspells : Spells clauses rest) (hblock : ∀ start, clause ≠ .data start [])
    (hadmits : ∀ form ∈ clause.instruction?, form.1.Admits form.2) :
    Spells (clause :: clauses) (clause.kinds ++ rest) := by
  cases clause with
  | label name => exact .label hspells
  | data start bytes =>
    have hbytes : bytes ≠ [] := by
      rintro rfl
      exact hblock start rfl
    exact .data hbytes hspells.head?_ne hspells
  | instruction opcode operands => exact .instruction (hadmits _ rfl) hspells

/-- The tokens of clauses spell them, if no block is empty and forms admit their operands. -/
theorem spells_kinds {clauses : List Clause} (hblocks : ∀ start, .data start [] ∉ clauses)
    (hadmits : ∀ instruction ∈ instructions clauses, instruction.1.Admits instruction.2) :
    Spells clauses (clauses.flatMap kinds ++ [.eof]) := by
  induction clauses with
  | nil => exact .done
  | cons clause clauses ih =>
    have hrest := ih (fun start hmem => hblocks start (List.mem_cons_of_mem _ hmem))
      fun instruction hmem => hadmits instruction (by
        rw [instructions, List.filterMap_cons]
        split
        · exact hmem
        · exact List.mem_cons_of_mem _ hmem)
    rw [List.flatMap_cons, List.append_assoc]
    refine hrest.cons (fun start hclause => ?_) fun form hform => hadmits form ?_
    · exact hblocks start (hclause ▸ List.mem_cons_self)
    · rw [instructions, List.filterMap_cons_some hform]
      exact List.mem_cons_self

/-- No clauses do not contradict each other. -/
theorem consistent_nil : Consistent [] where
  names_nodup := List.Pairwise.nil
  blocks _ _ hmem := nomatch hmem
  addresses_nodup := List.Pairwise.nil
  addresses_lt _ hmem := nomatch hmem

/-- Clauses that do not contradict each other do so without the last ones. -/
theorem Consistent.of_append {clauses more : List Clause}
    (hconsistent : Consistent (clauses ++ more)) : Consistent clauses where
  names_nodup := by
    have hnodup := hconsistent.names_nodup
    rw [definitions, definitionsFrom_append, List.map_append] at hnodup
    exact (List.nodup_append.mp hnodup).1
  blocks start bytes hmem := hconsistent.blocks start bytes (List.mem_append_left _ hmem)
  addresses_nodup := by
    have hnodup := hconsistent.addresses_nodup
    rw [cells_append, List.map_append] at hnodup
    exact (List.nodup_append.mp hnodup).1
  addresses_lt address hmem := hconsistent.addresses_lt address (by
    rw [cells_append, List.map_append]
    exact List.mem_append_left _ hmem)

/-- A cell belongs to a block. -/
theorem exists_block_of_mem_cells {clauses : List Clause} {address value : Nat}
    (hmem : (address, value) ∈ cells clauses) :
    ∃ start bytes, .data start bytes ∈ clauses ∧ start ≤ address ∧ value ∈ bytes := by
  obtain ⟨clause, hclause, hcell⟩ := List.mem_flatMap.mp hmem
  cases clause with
  | data start bytes =>
    have haddress : address ∈ (cellsFrom start bytes).map (·.1) := List.mem_map_of_mem hcell
    have hvalue : value ∈ (cellsFrom start bytes).map (·.2) := List.mem_map_of_mem hcell
    rw [map_fst_cellsFrom] at haddress
    rw [map_snd_cellsFrom] at hvalue
    exact ⟨start, bytes, hclause, (List.mem_range'_1.mp haddress).1, hvalue⟩
  | label | instruction => cases hcell

/-- Data lies in the program's part of memory. -/
theorem Consistent.loadAddress_le {clauses : List Clause} (hconsistent : Consistent clauses)
    {address : Nat} (hdata : IsData clauses address) : Machine.loadAddress ≤ address := by
  obtain ⟨value, hmem⟩ := hdata
  obtain ⟨start, bytes, hclause, hle, _⟩ := exists_block_of_mem_cells hmem
  exact Nat.le_trans (hconsistent.blocks start bytes hclause).1 hle

/-- A label may follow clauses that do not define it. -/
theorem consistent_append_label_iff {clauses : List Clause} {name : String} :
    Consistent (clauses ++ [.label name]) ↔
      Consistent clauses ∧ ∀ index, (name, index) ∉ definitions clauses := by
  have hnames : (definitions (clauses ++ [.label name])).map (·.1) =
      (definitions clauses).map (·.1) ++ [name] := by
    simp [definitions_concat, definitionsFrom]
  have hcells : cells (clauses ++ [.label name]) = cells clauses := by
    simp [cells]
  constructor
  · intro hconsistent
    refine ⟨hconsistent.of_append, fun index hmem => ?_⟩
    have hnodup := hconsistent.names_nodup
    rw [hnames, List.nodup_append] at hnodup
    exact hnodup.2.2 name (List.mem_map_of_mem hmem) name (List.mem_singleton_self name) rfl
  · rintro ⟨hconsistent, hnew⟩
    refine ⟨?_, fun start bytes hmem => ?_, ?_, ?_⟩
    · rw [hnames]
      refine List.nodup_append.mpr ⟨hconsistent.names_nodup, List.pairwise_singleton _ name, ?_⟩
      rintro _ hmem _ hname rfl
      obtain ⟨⟨_, index⟩, hdefined, rfl⟩ := List.mem_map.mp hmem
      exact hnew index (List.mem_singleton.mp hname ▸ hdefined)
    · exact hconsistent.blocks start bytes (by simpa using hmem)
    · exact hcells ▸ hconsistent.addresses_nodup
    · exact hcells ▸ hconsistent.addresses_lt

/-- A block may follow clauses if it starts in the program's part of memory and holds bytes,
for which there is room. -/
theorem consistent_append_data_iff {clauses : List Clause} {start : Nat} {bytes : List Nat} :
    Consistent (clauses ++ [.data start bytes]) ↔
      Consistent clauses ∧ (Machine.loadAddress ≤ start ∧ ∀ byte ∈ bytes, byte ≤ 0xFF) ∧
        ∀ address ∈ List.range' start bytes.length,
          ¬IsData clauses address ∧ address + 1 < Machine.numberBound := by
  have hnames : definitions (clauses ++ [.data start bytes]) = definitions clauses := by
    simp [definitions_concat, definitionsFrom]
  have haddresses : (cells (clauses ++ [.data start bytes])).map (·.1) =
      (cells clauses).map (·.1) ++ List.range' start bytes.length := by
    simp [cells, map_fst_cellsFrom]
  constructor
  · intro hconsistent
    refine ⟨hconsistent.of_append, hconsistent.blocks start bytes (by simp), ?_⟩
    intro address haddress
    refine ⟨fun ⟨byte, hmem⟩ => ?_, hconsistent.addresses_lt address ?_⟩
    · have hnodup := hconsistent.addresses_nodup
      rw [haddresses, List.nodup_append] at hnodup
      exact hnodup.2.2 address (List.mem_map_of_mem hmem) address haddress rfl
    · rw [haddresses]
      exact List.mem_append_right _ haddress
  · rintro ⟨hconsistent, hblock, hroom⟩
    refine ⟨hnames ▸ hconsistent.names_nodup, fun first block hmem => ?_, ?_, ?_⟩
    · rcases List.mem_append.mp hmem with hmem | hmem
      · exact hconsistent.blocks first block hmem
      · cases List.mem_singleton.mp hmem
        exact hblock
    · rw [haddresses]
      refine List.nodup_append.mpr ⟨hconsistent.addresses_nodup, List.nodup_range', ?_⟩
      rintro address hmem _ haddress rfl
      obtain ⟨⟨_, byte⟩, hcell, rfl⟩ := List.mem_map.mp hmem
      exact (hroom _ haddress).1 ⟨byte, hcell⟩
    · rw [haddresses]
      intro address hmem
      rcases List.mem_append.mp hmem with hmem | hmem
      · exact hconsistent.addresses_lt address hmem
      · exact (hroom address hmem).2

/-- An instruction contradicts no clause. -/
theorem consistent_append_instruction_iff {clauses : List Clause} {opcode : Opcode}
    {operands : List Operand} :
    Consistent (clauses ++ [.instruction opcode operands]) ↔ Consistent clauses := by
  have hnames : definitions (clauses ++ [.instruction opcode operands]) = definitions clauses := by
    simp [definitions_concat, definitionsFrom]
  have hcells : cells (clauses ++ [.instruction opcode operands]) = cells clauses := by
    simp [cells]
  refine ⟨Consistent.of_append, fun hconsistent => ?_⟩
  refine ⟨hnames ▸ hconsistent.names_nodup, fun start bytes hmem => ?_,
    hcells ▸ hconsistent.addresses_nodup, hcells ▸ hconsistent.addresses_lt⟩
  exact hconsistent.blocks start bytes (by simpa using hmem)

end Clause

/-- A statement says what a clause says. -/
inductive Statement.Says : Statement → Clause → Prop
  | label {name : String} {position : Position} : Says (.label name position) (.label name)
  | data {position : Position} {start : Located Nat} {bytes : List (Located Nat)} :
      Says (.data position start bytes) (.data start.value (bytes.map (·.value)))
  | instruction {instruction : SourceInstruction} {opcode : Opcode}
      (hmnemonic : instruction.mnemonic = opcode.mnemonic)
      (hshape : instruction.shape = opcode.shape) :
      Says (.instruction instruction) (.instruction opcode (instruction.operands.map (·.value)))

end ChipEight
