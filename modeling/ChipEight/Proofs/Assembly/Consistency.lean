import ChipEight.Proofs.Assembly.Unresolved

/-!
# Errors that cannot happen

Some errors say that the assembler has lost track of its own records: a noted use of a label is
no longer there, or an instruction has a shape that the table does not list or too few operands
for it. No tokens lead to one of them. Before the first word is made, every noted use of a label
has been replaced by the address of the label, and each only once.
-/

namespace ChipEight

namespace AssemblyError

/-- The error says that a use of a label is not where it was noted, that something other than an
operand was added to an instruction, or that an instruction has a shape that is not in the
table. -/
def IsInternal : AssemblyError → Prop
  | labelNotFound _ _ | labelMismatch _ _ | unsupportedShape _ _ _ |
    invalidOperand .operand _ _ => True
  | _ => False

/-- The error says that an operand of an instruction does not fit its slot. -/
def IsMisfit : AssemblyError → Prop
  | invalidOperand .register _ _ | invalidOperand .integerOrLabel _ _ |
    operandOutOfRange _ _ _ _ => True
  | _ => False

/-- An operand that does not fit its slot is no internal matter. -/
theorem IsMisfit.not_isInternal {error : AssemblyError} (hmisfit : error.IsMisfit) :
    ¬error.IsInternal := by
  cases error with
  | invalidOperand expected found position => cases expected <;> simp_all [IsMisfit, IsInternal]
  | operandOutOfRange => exact not_false
  | _ => exact hmisfit.elim

end AssemblyError

/-- Operands are only read from tokens that are operands. -/
theorem SourceInstruction.not_isInternal_of_complete {instruction : SourceInstruction}
    {missing : Nat} {tokens : List Token} {error : AssemblyError}
    (hcomplete : instruction.complete missing tokens = .error error) : ¬error.IsInternal := by
  induction missing generalizing instruction tokens with
  | zero => cases hcomplete
  | succ missing ih =>
    obtain _ | ⟨⟨kind, position⟩, tokens⟩ := tokens
    · cases hcomplete
      exact not_false
    · cases kind with
      | operand operand => exact ih hcomplete
      | instruction | data | eof =>
        cases hcomplete
        exact not_false

/-- A statement that cannot be read is no internal matter. -/
theorem Statement.not_isInternal_of_read {token : Token} {rest : List Token}
    {error : AssemblyError} (hread : read token rest = .error error) : ¬error.IsInternal := by
  obtain ⟨kind, position⟩ := token
  cases kind with
  | instruction mnemonic =>
    simp only [read] at hread
    cases hinstruction : readInstruction mnemonic position rest with
    | error other =>
      rw [hinstruction] at hread
      cases hread
      unfold readInstruction at hinstruction
      split at hinstruction
      · exact SourceInstruction.not_isInternal_of_complete hinstruction
      · cases hinstruction
        exact not_false
    | ok instruction =>
      rw [hinstruction] at hread
      cases hread
  | data =>
    simp only [read] at hread
    obtain _ | ⟨address, rest⟩ := rest
    · cases hread
      exact not_false
    · cases hstart : integer? address with
      | none =>
        simp only [hstart] at hread
        cases hread
        exact not_false
      | some start =>
        simp only [hstart] at hread
        cases hread
  | operand operand =>
    cases operand with
    | label name => cases hread
    | integer | register =>
      cases hread
      exact not_false
  | eof =>
    cases hread
    exact not_false

namespace Draft

/-- Bytes that cannot be stored are no internal matter. -/
theorem not_isInternal_of_storeBytes {data : Std.TreeMap Nat UInt8} {address : Nat}
    {bytes : List (Located Nat)} {error : AssemblyError}
    (hstore : storeBytes data address bytes = .error error) : ¬error.IsInternal := by
  induction bytes generalizing data address with
  | nil => cases hstore
  | cons byte bytes ih =>
    rw [storeBytes] at hstore
    split at hstore
    · cases hstore
      exact not_false
    · split at hstore
      · cases hstore
        exact not_false
      · split at hstore
        · exact ih hstore
        · cases hstore
          exact not_false

/-- A statement that cannot be added is no internal matter. -/
theorem not_isInternal_of_add {draft : Draft} {statement : Statement} {error : AssemblyError}
    (hadd : draft.add statement = .error error) : ¬error.IsInternal := by
  cases statement with
  | label name position =>
    simp only [add, define] at hadd
    split at hadd
    · cases hadd
      exact not_false
    · cases hadd
  | data position start bytes =>
    simp only [add, addData] at hadd
    split at hadd
    · cases hadd
      exact not_false
    · split at hadd
      · cases hadd
        exact not_false
      · cases hstore : storeBytes draft.data start.value bytes with
        | error other =>
          rw [hstore] at hadd
          cases hadd
          exact not_isInternal_of_storeBytes hstore
        | ok data =>
          rw [hstore] at hadd
          cases hadd
  | instruction instruction => cases hadd

/-- Tokens that hold no draft are no internal matter. -/
theorem not_isInternal_of_extend {draft : Draft} {tokens : List Token} {error : AssemblyError}
    (hextend : draft.extend tokens = .error error) : ¬error.IsInternal := by
  induction draft, tokens using Draft.extend.induct with
  | case1 draft =>
    rw [extend] at hextend
    cases hextend
    exact not_false
  | case2 draft token rest hend =>
    rw [extend, if_pos hend] at hextend
    cases hextend
  | case3 draft token rest hend other hread =>
    rw [extend, if_neg hend, hread] at hextend
    cases hextend
    exact Statement.not_isInternal_of_read hread
  | case4 draft token rest hend statement taken hread other hadd =>
    rw [extend, if_neg hend, hread] at hextend
    simp only [hadd] at hextend
    cases hextend
    exact not_isInternal_of_add hadd
  | case5 draft token rest hend statement taken hread next hadd ih =>
    rw [extend, if_neg hend, hread] at hextend
    simp only [hadd] at hextend
    exact ih hextend

/-- A draft that cannot be placed is no internal matter. -/
theorem not_isInternal_of_place {draft : Draft} {error : AssemblyError}
    (hplace : draft.place = .error error) : ¬error.IsInternal := by
  rw [place, ← Array.foldlM_toList] at hplace
  obtain ⟨instruction, _, placement, hadd⟩ := exists_of_foldlM_eq_error hplace
  simp only [Placement.add] at hadd
  split at hadd
  · cases hadd
    exact not_false
  · cases hadd

end Draft

/-- What a slot refuses in an operand without a label is that it does not fit. -/
theorem Slot.Refuses.isMisfit {slot : Slot} {mnemonic : Mnemonic} {operand : Located Operand}
    {error : AssemblyError} (hrefuses : slot.Refuses mnemonic operand error)
    (hvalue : ∀ name, operand.value ≠ .label name) : error.IsMisfit := by
  cases hrefuses with
  | @unresolved name => exact absurd rfl (hvalue name)
  | noRegister | noNumber | tooLarge => exact trivial

/-- An instruction of a form in the table, with as many operands as it takes and no label among
them, can only be refused for an operand that does not fit. -/
theorem SourceInstruction.isMisfit_of_encode {instruction : SourceInstruction}
    {error : AssemblyError} (hform : Opcode.InTable instruction.mnemonic instruction.shape)
    (hcount : instruction.operands.length = instruction.shape.arity)
    (hvalues : ∀ name, .label name ∉ instruction.operands.map (·.value))
    (hencode : instruction.encode = .error error) : error.IsMisfit := by
  cases encode_eq_error_iff.mp hencode with
  | count hwrong => exact absurd hcount hwrong
  | @operand before after slot operand _ _ hpairs _ hrefuses =>
    have hmem : (slot, operand) ∈ instruction.slotOperands := by simp [hpairs]
    have hoperand : operand ∈ instruction.operands := (List.of_mem_zip hmem).2
    refine hrefuses.isMisfit fun name hname => hvalues name ?_
    exact hname ▸ List.mem_map_of_mem hoperand
  | form _ _ hmissing => exact absurd hform hmissing

namespace Draft

/-- The instructions of a draft are of forms in the table and have all their operands. -/
theorem Holds.complete {draft : Draft} {clauses : List Clause} {tokens : List Token}
    (hholds : draft.Holds clauses) (hspells : Clause.Spells clauses (tokens.map (·.value)))
    {index : Nat} {instruction : SourceInstruction}
    (hindex : draft.instructions[index]? = some instruction) :
    Opcode.InTable instruction.mnemonic instruction.shape ∧
      instruction.operands.length = instruction.shape.arity := by
  obtain ⟨opcode, operands, hclause, hform⟩ := hholds.exists_clause hindex
  have hadmits := hspells.admits _ (List.mem_of_getElem? hclause)
  simp only [SourceInstruction.form, Clause.form, Prod.mk.injEq] at hform
  obtain ⟨hmnemonic, hshape, rfl⟩ := hform
  rw [hmnemonic, hshape]
  refine ⟨⟨opcode, hadmits.mem_table, rfl, rfl⟩, ?_⟩
  simpa using hadmits.length_eq

/-- A use of a label that a draft defines is patched exactly once. -/
theorem Indexed.count_patches {draft : Draft} (hindexed : draft.Indexed)
    (hdefined : draft.unresolved = []) (placement : Placement) {name : String}
    {reference : Reference} (hnoted : reference ∈ draft.references.getD name []) :
    ((draft.patches (draft.symbols placement)).map (·.reference)).count reference = 1 := by
  have hrequires := hindexed.requires_patches (draft.symbols placement)
  have hlabel : name ∈ draft.labels := by
    by_contra hmissing
    have hleft : name ∈ draft.unresolved :=
      hindexed.mem_unresolved_iff.mpr ⟨⟨reference, (hindexed.mem_iff _ _).mp hnoted⟩, hmissing⟩
    rw [hdefined] at hleft
    cases hleft
  obtain ⟨index, hindex⟩ := Option.isSome_iff_exists.mp
    (Std.TreeMap.mem_iff_isSome_getElem?.mp hlabel)
  have haddress : (draft.symbols placement)[name]? = some (placement.site index) := by
    simp [symbols, hindex]
  have hmem := hrequires.complete name _ haddress reference hnoted
  exact List.count_eq_one_of_mem hrequires.nodup (List.mem_map_of_mem hmem)

/-- If a draft defines all labels that it uses, its resolved instructions can only be refused for
operands that do not fit. -/
theorem Holds.isMisfit_of_encode {draft : Draft} {clauses : List Clause} {tokens : List Token}
    (hholds : draft.Holds clauses) (hspells : Clause.Spells clauses (tokens.map (·.value)))
    (hindexed : draft.Indexed) (hdefined : draft.unresolved = []) {placement : Placement}
    {index : Nat} {instruction : SourceInstruction} {error : AssemblyError}
    (hindex : draft.instructions[index]? = some instruction)
    (hencode : (instruction.resolved ((draft.symbols placement)[·]?)).encode = .error error) :
    error.IsMisfit := by
  obtain ⟨hform, hcount⟩ := hholds.complete hspells hindex
  have hvalues : ∀ name, .label name ∉
      (instruction.resolved ((draft.symbols placement)[·]?)).operands.map (·.value) := by
    intro name hlabel
    have hleft := hindexed.mem_unresolved_of_resolved hindex hlabel
    rw [hdefined] at hleft
    cases hleft
  refine SourceInstruction.isMisfit_of_encode ?_ ?_ hvalues hencode
  · exact hform
  · simpa [SourceInstruction.resolved] using hcount

end Draft

namespace Program

/-- A program that is refused is refused for something in its tokens. -/
theorem not_isInternal_of_ofTokens {tokens : List Token} {error : AssemblyError}
    (hprogram : ofTokens tokens = .error error) : ¬error.IsInternal := by
  cases hdraft : Draft.ofTokens tokens with
  | error other =>
    simp only [ofTokens, hdraft, bind, Except.bind, Except.error.injEq] at hprogram
    exact hprogram ▸ Draft.not_isInternal_of_extend hdraft
  | ok draft =>
    cases hplace : draft.place with
    | error other =>
      simp only [ofTokens, ofDraft, hdraft, hplace, bind, Except.bind, Except.error.injEq]
        at hprogram
      exact hprogram ▸ Draft.not_isInternal_of_place hplace
    | ok placement =>
      rw [ofTokens_eq_of_place hdraft hplace] at hprogram
      split at hprogram
      · next hdefined =>
        obtain ⟨clauses, hspells, _, hholds⟩ := Draft.exists_holds_of_ofTokens hdraft
        obtain ⟨_, rfl⟩ | ⟨index, instruction, hindex, hencode⟩ :=
          Layout.image_cases_of_error (map_eq_error_iff.mp hprogram)
        · exact not_false
        · rw [Array.getElem?_map, Option.map_eq_some_iff] at hindex
          obtain ⟨original, hindex, rfl⟩ := hindex
          exact (hholds.isMisfit_of_encode hspells (Draft.indexed_empty.extend hdraft) hdefined
            hindex hencode).not_isInternal
      · cases hprogram
        exact not_false

/-- No tokens make the assembler lose track of its records. Whatever they are, they are not
refused with an internal error. Patches of different uses that their draft has noted can be made
in any order. Once the draft has been placed, every use of a defined label is patched exactly
once, with one result in whatever order this is done, and only then words are made of the
instructions. Every placed number is that of an instruction, and if all labels are defined, no
label is left in it and it can only be refused for an operand that does not fit its slot. -/
theorem ofTokens_internally_consistent (tokens : List Token) :
    (∀ error, ofTokens tokens = .error error → ¬error.IsInternal) ∧
    ∀ draft, Draft.ofTokens tokens = .ok draft →
      (∀ address? patches, draft.Permits address? patches →
        ∃ result, patches.foldlM Patch.apply draft.instructions = .ok result) ∧
      ∀ placement, draft.place = .ok placement →
        draft.resolve (draft.symbols placement) =
          (draft.patches (draft.symbols placement)).foldlM Patch.apply draft.instructions ∧
        draft.Requires ((draft.symbols placement)[·]?)
          (draft.patches (draft.symbols placement)) ∧
        ∃ resolved,
          (∀ patches, draft.Requires ((draft.symbols placement)[·]?) patches →
            patches.foldlM Patch.apply draft.instructions = .ok resolved) ∧
          ofTokens tokens =
            (if draft.unresolved = [] then
              (placement.layout.image resolved).map fun bytes =>
                ⟨bytes, (draft.symbols placement).toList⟩
            else .error (.unresolvedLabels draft.unresolved)) ∧
          (∀ (address index : Nat), placement.layout.code[address]? = some index →
            ∃ instruction, resolved[index]? = some instruction) ∧
          (draft.unresolved = [] →
            (∀ name, ∀ reference ∈ draft.references.getD name [],
              ((draft.patches (draft.symbols placement)).map (·.reference)).count reference = 1 ∧
              ∀ other, ¬reference.Names resolved other) ∧
            ∀ instruction ∈ resolved, ∀ error,
              instruction.encode = .error error → error.IsMisfit) := by
  refine ⟨fun error => not_isInternal_of_ofTokens, fun draft hdraft => ⟨?_, ?_⟩⟩
  · intro address? patches hpermits
    obtain ⟨result, hresult, _⟩ := (Draft.indexed_empty.extend hdraft).exists_patched hpermits
    exact ⟨result, hresult⟩
  · intro placement hplace
    have hindexed := Draft.indexed_empty.extend hdraft
    obtain ⟨clauses, hspells, _, hholds⟩ := Draft.exists_holds_of_ofTokens hdraft
    refine ⟨draft.resolve_eq_foldlM_patches _, hindexed.requires_patches _, _,
      fun patches hrequires => hindexed.patched_eq hrequires,
      ofTokens_eq_of_place hdraft hplace, ?_, fun hdefined => ⟨?_, ?_⟩⟩
    · intro address index hplaced
      have hlt := (((Draft.packs_of_place hplace).code_iff address index).mp hplaced).1
      exact ⟨_, Array.getElem?_eq_getElem (by rwa [Array.size_map])⟩
    · intro name reference hnoted
      refine ⟨hindexed.count_patches hdefined placement hnoted, ?_⟩
      rintro other ⟨instruction, position, hinstruction, hoperand⟩
      rw [Array.getElem?_map, Option.map_eq_some_iff] at hinstruction
      obtain ⟨original, hindex, rfl⟩ := hinstruction
      have hleft := hindexed.mem_unresolved_of_resolved hindex
        (List.mem_map_of_mem (List.mem_of_getElem? hoperand))
      rw [hdefined] at hleft
      cases hleft
    · intro instruction hmem error hencode
      obtain ⟨original, horiginal, rfl⟩ := Array.mem_map.mp hmem
      obtain ⟨index, hindex⟩ := Array.mem_iff_getElem?.mp horiginal
      exact hholds.isMisfit_of_encode hspells hindexed hdefined hindex hencode

/-- A jump and a call to a label that is defined after them, a jump back, an end mark, and then
operands that belong to nothing. -/
def jumpsToBothSides : List Token :=
  [.operand (.label "start"), .instruction .jmp, .operand (.label "end"), .instruction .jsr,
    .operand (.label "end"), .operand (.label "end"), .instruction .jmp,
    .operand (.label "start"), .eof, .operand (.label "end"), .operand (.register 1)].map
      (⟨·, .first⟩)

/-- Both uses of the label that is defined after them are patched once, and both are gone. -/
theorem jumpsToBothSides_consistent :
    ofTokens jumpsToBothSides =
        .ok ⟨#[0x12, 0x04, 0x22, 0x04, 0x12, 0x00], [("end", 0x204), ("start", 0x200)]⟩ ∧
      ∃ draft placement resolved, Draft.ofTokens jumpsToBothSides = .ok draft ∧
        draft.place = .ok placement ∧ draft.references.getD "end" [] = [⟨1, 0⟩, ⟨0, 0⟩] ∧
        draft.resolve (draft.symbols placement) = .ok resolved ∧
        ∀ reference ∈ draft.references.getD "end" [],
          ((draft.patches (draft.symbols placement)).map (·.reference)).count reference = 1 ∧
          ∀ other, ¬reference.Names resolved other := by
  have hdrafted : (Draft.ofTokens jumpsToBothSides).toOption.map (fun draft =>
      (draft.references.getD "end" [], draft.unresolved, draft.place.isOk)) =
        some ([⟨1, 0⟩, ⟨0, 0⟩], [], true) := by cbv
  obtain ⟨-, hconsistent⟩ := ofTokens_internally_consistent jumpsToBothSides
  refine ⟨by cbv, ?_⟩
  cases hdraft : Draft.ofTokens jumpsToBothSides with
  | error error => simp [hdraft, Except.toOption] at hdrafted
  | ok draft =>
    simp only [hdraft, Except.toOption, Option.map_some, Option.some.injEq, Prod.mk.injEq]
      at hdrafted
    obtain ⟨huses, hdefined, hplaced⟩ := hdrafted
    cases hplace : draft.place with
    | error error => simp [hplace, Except.isOk, Except.toBool] at hplaced
    | ok placement =>
      obtain ⟨-, hplacement⟩ := hconsistent draft hdraft
      obtain ⟨hresolve, hrequires, resolved, hany, -, -, hfinal⟩ := hplacement placement hplace
      exact ⟨draft, placement, resolved, rfl, hplace, huses,
        hresolve.trans (hany _ hrequires), (hfinal hdefined).1 "end"⟩

end Program

end ChipEight
