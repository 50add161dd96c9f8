import ChipEight.Proofs.Assembly.Reading

/-!
# What a draft holds

A draft holds the clauses that have been added to it: their instructions in order, their
cells as data, and their definitions as labels. A statement can be added exactly if its
clause does not contradict the ones before it.
-/

namespace ChipEight

/-- What an instruction says, without positions. -/
def SourceInstruction.form (instruction : SourceInstruction) :
    Mnemonic × Shape × List Operand :=
  (instruction.mnemonic, instruction.shape, instruction.operands.map (·.value))

/-- What the instruction of a clause says. -/
def Clause.form (instruction : Opcode × List Operand) : Mnemonic × Shape × List Operand :=
  (instruction.1.mnemonic, instruction.1.shape, instruction.2)

namespace Draft

/-- A draft holds what some clauses say. -/
structure Holds (draft : Draft) (clauses : List Clause) : Prop where
  forms_eq : draft.instructions.toList.map SourceInstruction.form =
    (Clause.instructions clauses).map Clause.form
  label_iff : ∀ name index,
    draft.labels[name]? = some index ↔ (name, index) ∈ Clause.definitions clauses
  cell_iff : ∀ address value, (address, value) ∈ Clause.cells clauses ↔
    ∃ byte, draft.data[address]? = some byte ∧ byte.toNat = value

/-- The empty draft holds no clauses. -/
theorem holds_empty : empty.Holds [] where
  forms_eq := rfl
  label_iff name index := by simp [empty, Clause.definitions, Clause.definitionsFrom]
  cell_iff address value := by simp [empty, Clause.cells]

/-- Data that has been stored is the data there was and the bytes in their cells. -/
theorem getElem?_of_storeBytes {data stored : Std.TreeMap Nat UInt8} {start : Nat}
    {bytes : List (Located Nat)} (hstored : storeBytes data start bytes = .ok stored)
    (address value : Nat) :
    (∃ byte, stored[address]? = some byte ∧ byte.toNat = value) ↔
      (∃ byte, data[address]? = some byte ∧ byte.toNat = value) ∨
        (address, value) ∈ Clause.cellsFrom start (bytes.map (·.value)) := by
  induction bytes generalizing data start with
  | nil =>
    cases hstored
    simp [Clause.cellsFrom]
  | cons byte bytes ih =>
    simp only [storeBytes] at hstored
    split at hstored
    · cases hstored
    · next hbyte =>
      split at hstored
      · cases hstored
      · next hfree =>
        split at hstored
        · rw [ih hstored]
          simp only [List.map_cons, Clause.cellsFrom, List.mem_cons, Prod.mk.injEq,
            Std.TreeMap.getElem?_insert]
          have hkept : byte.value.toUInt8.toNat = byte.value := by
            rw [Nat.toUInt8_eq, UInt8.toNat_ofNat']
            omega
          have hnone : data[start]? = none := by simpa using hfree
          by_cases haddress : start = address
          · subst haddress
            simp [hnone, hkept, eq_comm]
          · simp [haddress, Ne.symm haddress]
        · cases hstored

/-- Bytes can be stored exactly if they are bytes, their addresses are free, and the
address after them is a number. -/
theorem exists_storeBytes_iff {data : Std.TreeMap Nat UInt8} {start : Nat}
    {bytes : List (Located Nat)} :
    (∃ stored, storeBytes data start bytes = .ok stored) ↔
      (∀ byte ∈ bytes.map (·.value), byte ≤ 0xFF) ∧
        (∀ address ∈ List.range' start bytes.length, data.contains address = false) ∧
        (bytes ≠ [] → start + bytes.length < Machine.numberBound) := by
  induction bytes generalizing data start with
  | nil => simp [storeBytes]
  | cons byte bytes ih =>
    have hinsert : (∀ address ∈ List.range' (start + 1) bytes.length,
        (data.insert start byte.value.toUInt8).contains address = false) ↔
        ∀ address ∈ List.range' (start + 1) bytes.length, data.contains address = false := by
      refine forall₂_congr fun address haddress => ?_
      have hlt : start < address := (List.mem_range'_1.mp haddress).1
      simp [Std.TreeMap.contains_insert, Nat.ne_of_lt hlt]
    have hbound : (start + 1 < Machine.numberBound ∧
        (bytes ≠ [] → start + 1 + bytes.length < Machine.numberBound)) ↔
        start + (bytes.length + 1) < Machine.numberBound := by
      obtain _ | ⟨second, bytes⟩ := bytes
      · simp
      · simp only [ne_eq, reduceCtorEq, not_false_eq_true, forall_const, List.length_cons]
        omega
    simp only [storeBytes, List.map_cons, List.forall_mem_cons, List.length_cons,
      List.range'_succ, ne_eq, reduceCtorEq, not_false_eq_true, forall_const, ← hbound, ← hinsert]
    by_cases hbyte : byte.value > 0xFF
    · simp [hbyte, Nat.not_le.mpr hbyte]
    by_cases hfree : data.contains start = true
    · simp [hbyte, hfree]
    by_cases hnext : start + 1 < Machine.numberBound
    · simp [hbyte, hfree, hnext, ih, Nat.not_lt.mp hbyte]
    · simp [hbyte, hfree, hnext]

/-- The references after an instruction with a number has used some labels. -/
def withUses (references : Std.TreeMap String (List Reference)) (instruction : Nat)
    (uses : List (String × Nat)) : Std.TreeMap String (List Reference) :=
  uses.foldl (fun references (name, operand) =>
    references.insert name (⟨instruction, operand⟩ :: references.getD name [])) references

/-- Adding an instruction appends it and notes the labels it uses. -/
theorem addInstruction_eq (draft : Draft) (instruction : SourceInstruction) :
    draft.addInstruction instruction =
      { draft with
        instructions := draft.instructions.push instruction
        references := withUses draft.references draft.instructions.size
          (labelUses instruction.operands) } := by
  have hnoted : ∀ (uses : List (String × Nat)) (draft : Draft),
      uses.foldl (fun draft (name, operand) => draft.refer name operand) draft =
        { draft with
          references := withUses draft.references draft.instructions.size uses } := by
    intro uses
    induction uses with
    | nil => exact fun _ => rfl
    | cons use uses ih => exact fun draft => ih (draft.refer use.1 use.2)
  simp only [addInstruction, hnoted]

/-- A label is added exactly if it is new, with the number of the instructions so far. -/
theorem add_label_eq_ok_iff {draft next : Draft} {name : String} {position : Position} :
    draft.add (.label name position) = .ok next ↔
      draft.labels[name]? = none ∧
        next = { draft with labels := draft.labels.insert name draft.instructions.size } := by
  simp only [add, define, Std.TreeMap.contains_eq_isSome_getElem?]
  cases draft.labels[name]? <;> simp [eq_comm]

/-- A block is added exactly if it starts in the program's memory, has bytes, and these can
be stored. -/
theorem add_data_eq_ok_iff {draft next : Draft} {position : Position} {start : Located Nat}
    {bytes : List (Located Nat)} :
    draft.add (.data position start bytes) = .ok next ↔
      Machine.loadAddress ≤ start.value ∧ bytes ≠ [] ∧
        ∃ stored, storeBytes draft.data start.value bytes = .ok stored ∧
          next = { draft with data := stored } := by
  simp only [add, addData]
  by_cases hlow : start.value < Machine.loadAddress
  · simp [hlow, Nat.not_le.mpr hlow]
  by_cases hempty : bytes = []
  · simp [hlow, hempty]
  cases storeBytes draft.data start.value bytes with
  | error error => simp [hlow, hempty, bind, Except.bind]
  | ok stored =>
    simp only [hlow, hempty, Nat.not_lt.mp hlow, List.isEmpty_iff, if_false, bind, Except.bind,
      pure, Except.pure, Except.ok.injEq, ne_eq, not_false_eq_true, true_and,
      exists_eq_left']
    exact eq_comm

/-- An instruction is always added, at the end and with the labels it uses. -/
theorem add_instruction_eq (draft : Draft) (instruction : SourceInstruction) :
    draft.add (.instruction instruction) =
      .ok { draft with
        instructions := draft.instructions.push instruction
        references := withUses draft.references draft.instructions.size
          (labelUses instruction.operands) } :=
  congrArg Except.ok (addInstruction_eq draft instruction)

/-- A draft holds as many instructions as the clauses do. -/
theorem Holds.size_eq {draft : Draft} {clauses : List Clause} (hholds : draft.Holds clauses) :
    draft.instructions.size = (Clause.instructions clauses).length := by
  simpa using congrArg List.length hholds.forms_eq

/-- The addresses of a draft's data are those of the clauses. -/
theorem Holds.contains_iff {draft : Draft} {clauses : List Clause}
    (hholds : draft.Holds clauses) (address : Nat) :
    draft.data.contains address = true ↔ Clause.IsData clauses address := by
  simp only [Clause.IsData, hholds.cell_iff, Std.TreeMap.contains_eq_isSome_getElem?,
    Option.isSome_iff_exists]
  constructor
  · rintro ⟨byte, hbyte⟩
    exact ⟨_, byte, hbyte, rfl⟩
  · rintro ⟨_, byte, hbyte, _⟩
    exact ⟨byte, hbyte⟩

/-- A draft to which a statement has been added also holds the statement's clause. -/
theorem Holds.add {draft next : Draft} {clauses : List Clause} {statement : Statement}
    {clause : Clause} (hholds : draft.Holds clauses) (hsaid : statement.Says clause)
    (hadd : draft.add statement = .ok next) : next.Holds (clauses ++ [clause]) := by
  cases hsaid with
  | @label name position =>
    obtain ⟨hnew, rfl⟩ := add_label_eq_ok_iff.mp hadd
    refine ⟨?_, fun other index => ?_, ?_⟩
    · rw [Clause.instructions_concat, Clause.instruction?, Option.toList_none, List.append_nil]
      exact hholds.forms_eq
    · have hundefined : ∀ index, (name, index) ∉ Clause.definitions clauses := by
        simp [← hholds.label_iff, hnew]
      simp only [Std.TreeMap.getElem?_insert, Clause.definitions_concat,
        Clause.definitionsFrom, List.mem_append, List.mem_singleton, Prod.mk.injEq,
        hholds.size_eq]
      by_cases hname : name = other
      · subst hname
        simp [hundefined, eq_comm]
      · simp [hname, Ne.symm hname, hholds.label_iff]
    · rw [Clause.cells_append, Clause.cells, Clause.cells, List.flatMap_singleton,
        List.append_nil]
      exact hholds.cell_iff
  | @data position start bytes =>
    obtain ⟨-, -, stored, hstored, rfl⟩ := add_data_eq_ok_iff.mp hadd
    refine ⟨?_, fun name index => ?_, fun address value => ?_⟩
    · rw [Clause.instructions_concat, Clause.instruction?, Option.toList_none, List.append_nil]
      exact hholds.forms_eq
    · rw [Clause.definitions_concat, Clause.definitionsFrom, Clause.definitionsFrom,
        List.append_nil]
      exact hholds.label_iff name index
    · rw [getElem?_of_storeBytes hstored, ← hholds.cell_iff, Clause.cells_append]
      simp [Clause.cells]
  | @instruction instruction opcode hmnemonic hshape =>
    rw [add_instruction_eq] at hadd
    cases hadd
    refine ⟨?_, fun name index => ?_, fun address value => ?_⟩
    · rw [Clause.instructions_concat, Clause.instruction?, List.map_append, ← hholds.forms_eq,
        Array.toList_push, List.map_append]
      simp [SourceInstruction.form, Clause.form, hmnemonic, hshape]
    · rw [Clause.definitions_concat, Clause.definitionsFrom, Clause.definitionsFrom,
        List.append_nil]
      exact hholds.label_iff name index
    · rw [Clause.cells_append, Clause.cells, Clause.cells, List.flatMap_singleton,
        List.append_nil]
      exact hholds.cell_iff address value

/-- A statement can be added exactly if its clause does not contradict the ones before it. -/
theorem Holds.exists_add_iff {draft : Draft} {clauses : List Clause} {statement : Statement}
    {clause : Clause} (hholds : draft.Holds clauses) (hconsistent : Clause.Consistent clauses)
    (hsaid : statement.Says clause) (hbytes : ∀ start, clause ≠ .data start []) :
    (∃ next, draft.add statement = .ok next) ↔ Clause.Consistent (clauses ++ [clause]) := by
  cases hsaid with
  | @label name position =>
    rw [Clause.consistent_append_label_iff]
    simp [hconsistent, ← hholds.label_iff, add_label_eq_ok_iff, Option.eq_none_iff_forall_ne_some]
  | @data position start bytes =>
    rw [Clause.consistent_append_data_iff, List.length_map]
    have hnonempty : bytes ≠ [] := by
      rintro rfl
      exact hbytes start.value rfl
    have hlast : (∀ address ∈ List.range' start.value bytes.length,
        address + 1 < Machine.numberBound) ↔
        start.value + bytes.length < Machine.numberBound := by
      have hpos := List.length_pos_iff.mpr hnonempty
      constructor
      · intro hall
        have hend := hall (start.value + bytes.length - 1) (List.mem_range'_1.mpr (by omega))
        omega
      · intro hlt address haddress
        have hrange := List.mem_range'_1.mp haddress
        omega
    have hfree : (∀ address ∈ List.range' start.value bytes.length,
        draft.data.contains address = false) ↔
        ∀ address ∈ List.range' start.value bytes.length, ¬Clause.IsData clauses address :=
      forall₂_congr fun address _ => by
        rw [← hholds.contains_iff, Bool.not_eq_true]
    have hadd : (∃ next, draft.add (.data position start bytes) = .ok next) ↔
        Machine.loadAddress ≤ start.value ∧
          ∃ stored, storeBytes draft.data start.value bytes = .ok stored := by
      simp [add_data_eq_ok_iff, hnonempty]
    rw [hadd, exists_storeBytes_iff, hfree, forall₂_and, hlast]
    simp [hconsistent, hnonempty, and_assoc]
  | @instruction instruction opcode hmnemonic hshape =>
    simp [add_instruction_eq, Clause.consistent_append_instruction_iff, hconsistent]

/-- A block without bytes cannot be added. -/
theorem add_empty_block_ne_ok (draft next : Draft) (position : Position)
    (start : Located Nat) : draft.add (.data position start []) ≠ .ok next := by
  simp [add_data_eq_ok_iff]

/-- A statement that can be added does not say a block without bytes. -/
theorem ne_empty_block_of_add {draft next : Draft} {statement : Statement} {clause : Clause}
    (hsaid : statement.Says clause) (hadd : draft.add statement = .ok next) (start : Nat) :
    clause ≠ .data start [] := by
  cases hsaid with
  | @data position first bytes =>
    intro hempty
    obtain ⟨-, hbytes⟩ := Clause.data.inj hempty
    rw [List.map_eq_nil_iff.mp hbytes] at hadd
    exact add_empty_block_ne_ok draft next position first hadd
  | label | instruction => simp

/-- A draft that tokens extend holds in addition the clauses that they spell. -/
theorem Holds.exists_of_extend {draft final : Draft} {clauses : List Clause}
    {tokens : List Token} (hholds : draft.Holds clauses)
    (hconsistent : Clause.Consistent clauses) (hextend : draft.extend tokens = .ok final) :
    ∃ more, Clause.Spells more (tokens.map (·.value)) ∧
      Clause.Consistent (clauses ++ more) ∧ final.Holds (clauses ++ more) := by
  induction draft, tokens using Draft.extend.induct generalizing clauses with
  | case1 draft => simp [extend] at hextend
  | case2 draft token rest hend =>
    rw [extend, if_pos hend] at hextend
    cases hextend
    refine ⟨[], ?_, by rwa [List.append_nil], by rwa [List.append_nil]⟩
    rw [List.map_cons, hend]
    exact .done
  | case3 draft token rest hend error hread =>
    rw [extend, if_neg hend, hread] at hextend
    cases hextend
  | case4 draft token rest hend statement taken hread error hadd =>
    rw [extend, if_neg hend, hread] at hextend
    simp [hadd] at hextend
  | case5 draft token rest hend statement taken hread next hadd ih =>
    rw [extend, if_neg hend, hread] at hextend
    simp only [hadd] at hextend
    rcases Statement.spells_of_read hread with ⟨position, start, rfl⟩ | ⟨clause, hsaid, hspells⟩
    · exact absurd hadd (add_empty_block_ne_ok draft next position start)
    · have hnext := (hholds.exists_add_iff hconsistent hsaid
        (ne_empty_block_of_add hsaid hadd)).mp ⟨next, hadd⟩
      obtain ⟨more, hmore, hconsistent', hfinal⟩ := ih (hholds.add hsaid hadd) hnext hextend
      refine ⟨clause :: more, hspells more hmore, ?_, ?_⟩
      · rwa [← List.append_cons] at hconsistent'
      · rwa [← List.append_cons] at hfinal

/-- Tokens that spell clauses extend a draft if its own clauses and theirs do not contradict
each other. -/
theorem Holds.exists_extend {draft : Draft} {clauses more : List Clause} {tokens : List Token}
    (hholds : draft.Holds clauses) (hspells : Clause.Spells more (tokens.map (·.value)))
    (hconsistent : Clause.Consistent (clauses ++ more)) :
    ∃ final, draft.extend tokens = .ok final ∧ final.Holds (clauses ++ more) := by
  induction more generalizing draft clauses tokens with
  | nil =>
    obtain _ | ⟨token, rest⟩ := tokens
    · cases hspells
    · have hend : token.value = .eof := hspells.eq_nil_iff.mp rfl
      refine ⟨draft, ?_, by rwa [List.append_nil]⟩
      rw [extend, if_pos hend]
  | cons clause more ih =>
    obtain _ | ⟨token, rest⟩ := tokens
    · cases hspells
    · obtain ⟨statement, taken, hread, hsaid, hrest⟩ := Statement.exists_read_of_spells hspells
      rw [List.append_cons] at hconsistent ⊢
      obtain ⟨next, hadd⟩ := (hholds.exists_add_iff hconsistent.of_append.of_append hsaid
        hspells.ne_empty_block).mpr hconsistent.of_append
      obtain ⟨final, hextend, hfinal⟩ := ih (hholds.add hsaid hadd) hrest hconsistent
      have hend : ¬token.value = .eof := by simp [← hspells.eq_nil_iff]
      refine ⟨final, ?_, hfinal⟩
      rw [extend, if_neg hend, hread]
      simp only [hadd, hextend]

/-- A draft that tokens hold, holds the clauses that they spell. -/
theorem exists_holds_of_ofTokens {tokens : List Token} {draft : Draft}
    (hdraft : ofTokens tokens = .ok draft) :
    ∃ clauses, Clause.Spells clauses (tokens.map (·.value)) ∧ Clause.Consistent clauses ∧
      draft.Holds clauses :=
  holds_empty.exists_of_extend Clause.consistent_nil hdraft

/-- Tokens that spell clauses without contradictions hold a draft. -/
theorem exists_ofTokens_of_spells {tokens : List Token} {clauses : List Clause}
    (hspells : Clause.Spells clauses (tokens.map (·.value)))
    (hconsistent : Clause.Consistent clauses) :
    ∃ draft, ofTokens tokens = .ok draft ∧ draft.Holds clauses :=
  holds_empty.exists_extend hspells hconsistent

end Draft

end ChipEight
