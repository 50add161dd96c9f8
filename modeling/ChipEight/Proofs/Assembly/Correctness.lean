import Std.Data.TreeSet.Iterator
import ChipEight.Proofs.Assembly.Meaning
import ChipEight.Proofs.Assembly.PackedImages

/-!
# Assembled programs mean what their tokens say

The draft of some tokens holds the clauses that they spell: its instructions are packed at the
sites of the clauses, its labels have their addresses, and its instructions have words exactly
if the operands of the clauses fit. So tokens are assembled exactly if they spell well-formed
clauses, and the program means what these say.
-/

namespace ChipEight

namespace Program

/-- Placed instructions are refused if a label is left; otherwise the image is written. -/
theorem ofTokens_eq_of_place {tokens : List Token} {draft : Draft} {placement : Placement}
    (hdraft : Draft.ofTokens tokens = .ok draft) (hplace : draft.place = .ok placement) :
    ofTokens tokens =
      if draft.unresolved = [] then
        (placement.layout.image (draft.instructions.map
          (·.resolved ((draft.symbols placement)[·]?)))).map
            fun bytes => ⟨bytes, (draft.symbols placement).toList⟩
      else .error (.unresolvedLabels draft.unresolved) := by
  have hresolve := (Draft.indexed_empty.extend hdraft).resolve_eq (draft.symbols placement)
  by_cases hdefined : draft.unresolved = []
  · rw [if_pos hdefined]
    simp only [ofTokens, ofDraft, hdraft, hplace, hresolve, hdefined, bind, Except.bind]
    cases placement.layout.image (draft.instructions.map
      (·.resolved ((draft.symbols placement)[·]?))) <;> rfl
  · rw [if_neg hdefined]
    simp only [ofTokens, ofDraft, hdraft, hplace, hresolve, bind, Except.bind]
    rw [if_pos hdefined]
    rfl

/-- A program is assembled by placing a draft, whose labels must all be defined, and
writing the image of its resolved instructions. -/
theorem ofTokens_eq_ok_iff {tokens : List Token} {program : Program} :
    ofTokens tokens = .ok program ↔
      ∃ draft placement, Draft.ofTokens tokens = .ok draft ∧ draft.place = .ok placement ∧
        draft.unresolved = [] ∧
        placement.layout.image (draft.instructions.map
          (·.resolved ((draft.symbols placement)[·]?))) = .ok program.bytes ∧
        program.symbols = (draft.symbols placement).toList := by
  constructor
  · intro hprogram
    cases hdraft : Draft.ofTokens tokens with
    | error error => simp [ofTokens, hdraft, bind, Except.bind] at hprogram
    | ok draft =>
      cases hplace : draft.place with
      | error error => simp [ofTokens, ofDraft, hdraft, hplace, bind, Except.bind] at hprogram
      | ok placement =>
        rw [ofTokens_eq_of_place hdraft hplace] at hprogram
        split at hprogram
        · next hdefined =>
          obtain ⟨bytes, himage, rfl⟩ := map_eq_ok_iff.mp hprogram
          exact ⟨draft, placement, rfl, hplace, hdefined, himage, rfl⟩
        · cases hprogram
  · rintro ⟨draft, placement, hdraft, hplace, hdefined, himage, hsymbols⟩
    rw [ofTokens_eq_of_place hdraft hplace, if_pos hdefined, himage, Except.map, ← hsymbols]

end Program

namespace Draft

variable {draft : Draft} {clauses : List Clause}

/-- The layout of a draft has data where its clauses give bytes. -/
theorem Holds.isData_iff (hholds : draft.Holds clauses) (address : Nat) :
    (Layout.ofData draft.data).isData address = true ↔ Clause.IsData clauses address :=
  hholds.contains_iff address

/-- The data of a draft lies in the program's part of memory. -/
theorem Holds.loadAddress_le (hholds : draft.Holds clauses)
    (hconsistent : Clause.Consistent clauses) (address : Nat)
    (hdata : (Layout.ofData draft.data).isData address = true) : Machine.loadAddress ≤ address :=
  hconsistent.loadAddress_le ((hholds.isData_iff address).mp hdata)

/-- The sites of clauses are where the instructions of their draft are packed. -/
theorem Holds.sites (hholds : draft.Holds clauses) :
    Clause.Sites clauses (Layout.ofData draft.data).site := by
  have hfree : ∀ address, (Layout.ofData draft.data).isData address = false ↔
      ¬Clause.IsData clauses address := fun address => by
    rw [← hholds.isData_iff, Bool.not_eq_true]
  constructor
  · have hleast := (Layout.ofData draft.data).isLeast_nextFree Machine.loadAddress
    simp only [hfree] at hleast
    exact hleast
  · intro index
    have hleast := (Layout.ofData draft.data).isLeast_nextFree
      ((Layout.ofData draft.data).site index + Machine.instructionWidth)
    simp only [hfree] at hleast
    exact hleast

/-- The labels of a draft are found among the definitions. -/
theorem Holds.labels_eq (hholds : draft.Holds clauses)
    (hconsistent : Clause.Consistent clauses) (name : String) :
    draft.labels[name]? = (Clause.definitions clauses).lookup name := by
  refine Option.ext fun index => ?_
  rw [hholds.label_iff, lookup_eq_some_iff_mem (List.pairwise_map.mp hconsistent.names_nodup)]

/-- The symbols of a draft are the addresses of the labels. -/
theorem Holds.symbols_eq (hholds : draft.Holds clauses)
    (hconsistent : Clause.Consistent clauses) {placement : Placement}
    (hpacks : placement.Packs draft.data draft.instructions.size) (name : String) :
    (draft.symbols placement)[name]? =
      Clause.addressOf? clauses (Layout.ofData draft.data).site name := by
  rw [symbols, Std.TreeMap.getElem?_map, hholds.labels_eq hconsistent, Clause.addressOf?]
  refine Option.map_congr fun index hindex => hpacks.site_eq ?_
  have hmem := (lookup_eq_some_iff_mem (List.pairwise_map.mp hconsistent.names_nodup)).mp hindex
  have hle := Clause.le_of_mem_definitionsFrom hmem
  rwa [hholds.size_eq, ← Nat.zero_add (List.length _)]

/-- Each instruction of a draft has its clause. -/
theorem Holds.getElem?_instructions (hholds : draft.Holds clauses) (index : Nat) :
    draft.instructions[index]?.map SourceInstruction.form =
      (Clause.instructions clauses)[index]?.map Clause.form := by
  rw [← Array.getElem?_toList, ← List.getElem?_map, hholds.forms_eq, List.getElem?_map]

/-- Each instruction of a draft says what some clause says. -/
theorem Holds.exists_clause (hholds : draft.Holds clauses) {index : Nat}
    {instruction : SourceInstruction} (hindex : draft.instructions[index]? = some instruction) :
    ∃ opcode operands, (Clause.instructions clauses)[index]? = some (opcode, operands) ∧
      instruction.form = Clause.form (opcode, operands) := by
  have hclause := hholds.getElem?_instructions index
  rw [hindex, Option.map_some, eq_comm, Option.map_eq_some_iff] at hclause
  obtain ⟨⟨opcode, operands⟩, hclause, hform⟩ := hclause
  exact ⟨opcode, operands, hclause, hform.symm⟩

/-- What a clause says some instruction of its draft says. -/
theorem Holds.exists_instruction (hholds : draft.Holds clauses) {index : Nat} {opcode : Opcode}
    {operands : List Operand}
    (hclause : (Clause.instructions clauses)[index]? = some (opcode, operands)) :
    ∃ instruction, draft.instructions[index]? = some instruction ∧
      instruction.form = Clause.form (opcode, operands) := by
  have hindex := hholds.getElem?_instructions index
  rwa [hclause, Option.map_some, Option.map_eq_some_iff] at hindex

/-- An instruction that says what a clause says has its operands. -/
theorem map_value_eq_of_form {instruction : SourceInstruction} {opcode : Opcode}
    {operands : List Operand} (hform : instruction.form = Clause.form (opcode, operands)) :
    instruction.operands.map (·.value) = operands :=
  (Prod.mk.inj (Prod.mk.inj hform).2).2

/-- An instruction that says what a clause says has the word that the form of the clause
makes of its resolved operands. -/
theorem encode_resolved_eq_ok_iff {address? : String → Option Nat}
    {instruction : SourceInstruction} {opcode : Opcode} {operands : List Operand} {word : Word}
    (hform : instruction.form = Clause.form (opcode, operands)) (hmem : opcode ∈ Opcode.table) :
    (instruction.resolved address?).encode = .ok word ↔
      opcode.Encodes (operands.map (Operand.resolved address?)) word := by
  simp only [SourceInstruction.form, Clause.form, Prod.mk.injEq] at hform
  obtain ⟨hmnemonic, hshape, hoperands⟩ := hform
  have hlookup : Opcode.lookup? instruction.mnemonic instruction.shape = some opcode :=
    Opcode.lookup?_eq_some_iff.mpr ⟨hmem, hmnemonic.symm, hshape.symm⟩
  rw [SourceInstruction.encode_eq_ok_iff, SourceInstruction.map_value_resolved, hoperands]
  simp only [SourceInstruction.resolved, hlookup, Option.some.injEq, exists_eq_left']

/-- The labels that a draft refers to are those that its clauses use. -/
theorem Holds.exists_names_iff (hholds : draft.Holds clauses) (name : String) :
    (∃ reference : Reference, reference.Names draft.instructions name) ↔
      ∃ instruction ∈ Clause.instructions clauses, .label name ∈ instruction.2 := by
  constructor
  · rintro ⟨⟨index, place⟩, instruction, position, hinstruction, hoperand⟩
    obtain ⟨opcode, operands, hindex, hform⟩ := hholds.exists_clause hinstruction
    refine ⟨_, List.mem_of_getElem? hindex, ?_⟩
    rw [← map_value_eq_of_form hform]
    exact List.mem_map_of_mem (List.mem_of_getElem? hoperand)
  · rintro ⟨⟨opcode, operands⟩, hmem, hlabel⟩
    obtain ⟨index, hindex⟩ := List.mem_iff_getElem?.mp hmem
    obtain ⟨instruction, hinstruction, hform⟩ := hholds.exists_instruction hindex
    rw [← map_value_eq_of_form hform] at hlabel
    obtain ⟨⟨_, position⟩, hoperand, rfl⟩ := List.mem_map.mp hlabel
    obtain ⟨place, hplace⟩ := List.mem_iff_getElem?.mp hoperand
    exact ⟨⟨index, place⟩, instruction, position, hinstruction, hplace⟩

/-- The unresolved labels of a draft are those that its clauses use and do not define. -/
theorem Holds.mem_unresolved_iff (hholds : draft.Holds clauses) (hindexed : draft.Indexed)
    {name : String} :
    name ∈ draft.unresolved ↔
      (∃ instruction ∈ Clause.instructions clauses, .label name ∈ instruction.2) ∧
        ¬∃ index, (name, index) ∈ Clause.definitions clauses := by
  have hdefined : name ∈ draft.labels ↔
      ∃ index, (name, index) ∈ Clause.definitions clauses := by
    simp only [Std.TreeMap.mem_iff_isSome_getElem?, Option.isSome_iff_exists, hholds.label_iff]
  rw [hindexed.mem_unresolved_iff, hholds.exists_names_iff, hdefined]

/-- A draft has no unresolved labels exactly if its clauses define every label they use. -/
theorem Holds.unresolved_eq_nil_iff (hholds : draft.Holds clauses) (hindexed : draft.Indexed) :
    draft.unresolved = [] ↔ ∀ instruction ∈ Clause.instructions clauses, ∀ name,
      .label name ∈ instruction.2 → ∃ index, (name, index) ∈ Clause.definitions clauses := by
  simp only [List.eq_nil_iff_forall_not_mem, hholds.mem_unresolved_iff hindexed, not_and, not_not]
  constructor
  · intro hall instruction hmem name hlabel
    exact hall name ⟨instruction, hmem, hlabel⟩
  · rintro hall name ⟨instruction, hmem, hlabel⟩
    exact hall instruction hmem name hlabel

end Draft

section Draft

variable {draft : Draft} {placement : Placement} {clauses : List Clause} {program : Program}

/-- The symbols of a program are found in its list as in its draft. -/
theorem lookup_toList_symbols (draft : Draft) (placement : Placement) (name : String) :
    (draft.symbols placement).toList.lookup name = (draft.symbols placement)[name]? := by
  have hdistinct : (draft.symbols placement).toList.Pairwise
      fun first second => first.1 ≠ second.1 :=
    Std.TreeMap.distinct_keys_toList.imp fun hne heq =>
      hne (Std.LawfulEqCmp.compare_eq_iff_eq.mpr heq)
  refine Option.ext fun address => ?_
  rw [lookup_eq_some_iff_mem hdistinct, Std.TreeMap.mem_toList_iff_getElem?_eq_some]

/-- The resolved instruction of a clause has a word exactly if the form of the clause makes
one of its resolved operands. -/
theorem Draft.Holds.wordOf?_eq_some_iff (hholds : draft.Holds clauses)
    {address? : String → Option Nat} {index : Nat} {opcode : Opcode} {operands : List Operand}
    {word : Word} (hclause : (Clause.instructions clauses)[index]? = some (opcode, operands))
    (hmem : opcode ∈ Opcode.table) :
    Layout.wordOf? (draft.instructions.map (·.resolved address?)) index = some word ↔
      opcode.Encodes (operands.map (Operand.resolved address?)) word := by
  obtain ⟨instruction, hinstruction, hform⟩ := hholds.exists_instruction hclause
  rw [← Draft.encode_resolved_eq_ok_iff hform hmem, Layout.wordOf?, Array.getElem?_map,
    hinstruction, Option.map_some, Option.bind_some]
  cases (instruction.resolved address?).encode <;> simp [Except.toOption]

/-- The resolved instructions of a draft have words exactly if the forms of its clauses make
them of their resolved operands. -/
theorem Draft.Holds.encodable_iff (hholds : draft.Holds clauses)
    (hpacks : placement.Packs draft.data draft.instructions.size)
    {address? : String → Option Nat}
    (hadmits : ∀ instruction ∈ Clause.instructions clauses,
      instruction.1.Admits instruction.2) :
    placement.layout.Encodable (draft.instructions.map (·.resolved address?)) ↔
      ∀ instruction ∈ Clause.instructions clauses, ∃ word,
        instruction.1.Encodes (instruction.2.map (Operand.resolved address?)) word := by
  rw [hpacks.encodable_iff]
  constructor
  · rintro hall ⟨opcode, operands⟩ hmem
    obtain ⟨index, hclause⟩ := List.mem_iff_getElem?.mp hmem
    obtain ⟨instruction, hinstruction, hform⟩ := hholds.exists_instruction hclause
    have hlt := (Array.getElem?_eq_some_iff.mp hinstruction).1
    obtain ⟨word, hword⟩ := hall index hlt _ (by rw [Array.getElem?_map, hinstruction]; rfl)
    exact ⟨word, (encode_resolved_eq_ok_iff hform (hadmits _ hmem).mem_table).mp hword⟩
  · intro hall index _ resolved hresolved
    rw [Array.getElem?_map, Option.map_eq_some_iff] at hresolved
    obtain ⟨instruction, hinstruction, rfl⟩ := hresolved
    obtain ⟨opcode, operands, hclause, hform⟩ := hholds.exists_clause hinstruction
    have hmem := List.mem_of_getElem? hclause
    obtain ⟨word, hword⟩ := hall _ hmem
    exact ⟨word, (encode_resolved_eq_ok_iff hform (hadmits _ hmem).mem_table).mpr hword⟩

/-- The layout of a placed draft is the least image with room for all that is said. -/
theorem Draft.Holds.isLeast_size (hholds : draft.Holds clauses)
    (hconsistent : Clause.Consistent clauses)
    (hpacks : placement.Packs draft.data draft.instructions.size) :
    IsLeast {size | Clause.Covers clauses (Layout.ofData draft.data).site size}
      placement.layout.size := by
  have hdata := hholds.isData_iff
  have hlow := hholds.loadAddress_le hconsistent
  have hcovers : ∀ size, placement.layout.size ≤ size ↔
      Clause.Covers clauses (Layout.ofData draft.data).site size := by
    intro size
    simp only [Clause.Covers, hpacks.size_le_iff hlow, hdata, ← hholds.size_eq, or_imp,
      forall_and, forall_exists_index, and_imp]
    refine and_congr_right fun _ => ⟨?_, fun hall index hlt => hall _ index hlt rfl⟩
    rintro hall _ index hlt rfl
    exact hall index hlt
  exact ⟨(hcovers _).mp (Nat.le_refl _), fun size hmem => (hcovers size).mpr hmem⟩

/-- A program that is assembled from a draft means what the draft holds. -/
theorem Program.means_of_draft (hholds : draft.Holds clauses)
    (hconsistent : Clause.Consistent clauses)
    (hadmits : ∀ instruction ∈ Clause.instructions clauses, instruction.1.Admits instruction.2)
    (hplace : draft.place = .ok placement)
    (himage : placement.layout.image (draft.instructions.map
      (·.resolved ((draft.symbols placement)[·]?))) = .ok program.bytes)
    (hsymbols : program.symbols = (draft.symbols placement).toList) :
    program.Means clauses (Layout.ofData draft.data).site := by
  have hpacks := Draft.packs_of_place hplace
  have hsize := hholds.size_eq
  have hdata := hholds.isData_iff
  have hlow := hholds.loadAddress_le hconsistent
  have hlookup : (List.lookup · program.symbols) = ((draft.symbols placement)[·]?) := by
    funext name
    rw [hsymbols, lookup_toList_symbols]
  refine ⟨fun index hlt => ?_, fun address value hmem => ?_,
    fun index opcode operands hclause => ?_, fun offset hoffset hfree hother => ?_, ?_, ?_,
    fun name address => ?_⟩
  · rw [← hdata, ← hdata, Bool.not_eq_true, Bool.not_eq_true]
    exact ⟨(Layout.ofData draft.data).isData_nextFree _, hpacks.clear index (hsize ▸ hlt)⟩
  · obtain ⟨byte, hbyte, rfl⟩ := (hholds.cell_iff address value).mp hmem
    exact ⟨byte, hpacks.getElem?_data hlow himage hbyte, rfl⟩
  · have hmem := List.mem_of_getElem? hclause
    have hlt := (List.getElem?_eq_some_iff.mp hclause).1
    obtain ⟨_, hencodable, _⟩ := Layout.image_eq_ok_iff.mp himage
    obtain ⟨word, hword⟩ := (hholds.encodable_iff hpacks hadmits).mp hencodable _ hmem
    have hfound := (hholds.wordOf?_eq_some_iff hclause (hadmits _ hmem).mem_table).mpr hword
    rw [hlookup]
    exact ⟨word, hword, hpacks.getElem?_code hlow himage (hsize ▸ hlt) hfound⟩
  · rw [← hdata] at hfree
    exact hpacks.getElem?_zero hlow himage hoffset hfree fun index hlt =>
      hother index (hsize ▸ hlt)
  · rw [hpacks.size_image hlow himage]
    exact hholds.isLeast_size hconsistent hpacks
  · rw [hsymbols, Std.TreeMap.map_fst_toList_eq_keys]
    exact Std.TreeMap.nodup_keys
  · rw [hsymbols, Std.TreeMap.mem_toList_iff_getElem?_eq_some,
      hholds.symbols_eq hconsistent hpacks, Clause.addressOf?, Option.map_eq_some_iff]
    simp only [lookup_eq_some_iff_mem (List.pairwise_map.mp hconsistent.names_nodup), eq_comm]

/-- The clauses of a draft are coherent exactly if the draft can be placed, its labels are
defined, and its resolved instructions have words. -/
theorem Draft.Holds.coherent_iff (hholds : draft.Holds clauses) (hindexed : draft.Indexed)
    (hconsistent : Clause.Consistent clauses)
    (hadmits : ∀ instruction ∈ Clause.instructions clauses, instruction.1.Admits instruction.2) :
    Clause.Coherent clauses (Layout.ofData draft.data).site ↔
      ∃ placement, draft.place = .ok placement ∧ draft.unresolved = [] ∧
        placement.layout.Encodable (draft.instructions.map
          (·.resolved ((draft.symbols placement)[·]?))) := by
  have hclear : (∀ index < draft.instructions.size,
      (Layout.ofData draft.data).collides ((Layout.ofData draft.data).site index) = false) ↔
      ∀ index < (Clause.instructions clauses).length,
        ¬Clause.IsData clauses ((Layout.ofData draft.data).site index + 1) := by
    simp only [Layout.collides, ← hholds.isData_iff, Bool.not_eq_true, hholds.size_eq]
  have hsymbols : ∀ placement : Placement,
      placement.Packs draft.data draft.instructions.size →
        ((draft.symbols placement)[·]?) =
          Clause.addressOf? clauses (Layout.ofData draft.data).site :=
    fun placement hpacks => funext fun name => hholds.symbols_eq hconsistent hpacks name
  constructor
  · intro hcoherent
    obtain ⟨placement, hplace⟩ := Draft.exists_place_iff.mpr (hclear.mpr hcoherent.clear)
    have hpacks := Draft.packs_of_place hplace
    refine ⟨placement, hplace, (hholds.unresolved_eq_nil_iff hindexed).mpr hcoherent.defined, ?_⟩
    rw [hholds.encodable_iff hpacks hadmits, hsymbols placement hpacks]
    intro instruction hmem
    exact (Opcode.exists_encodes_iff (hadmits _ hmem).mem_table).mpr
      (hcoherent.operands_fit instruction hmem)
  · rintro ⟨placement, hplace, hdefined, hencodable⟩
    have hpacks := Draft.packs_of_place hplace
    rw [hholds.encodable_iff hpacks hadmits, hsymbols placement hpacks] at hencodable
    exact {
      names_nodup := hconsistent.names_nodup
      defined := (hholds.unresolved_eq_nil_iff hindexed).mp hdefined
      blocks := hconsistent.blocks
      addresses_nodup := hconsistent.addresses_nodup
      clear := hclear.mp hpacks.clear
      operands_fit := fun instruction hmem =>
        (Opcode.exists_encodes_iff (hadmits _ hmem).mem_table).mp (hencodable instruction hmem) }

/-- A placed draft fits into memory exactly if its data and instructions lie there. -/
theorem Draft.Holds.size_le_programLimit_iff (hholds : draft.Holds clauses)
    (hconsistent : Clause.Consistent clauses)
    (hpacks : placement.Packs draft.data draft.instructions.size) :
    placement.layout.size ≤ Machine.programLimit ↔
      (∀ address, Clause.IsData clauses address → address < Machine.memorySize) ∧
      ∀ index < (Clause.instructions clauses).length,
        (Layout.ofData draft.data).site index + Machine.instructionWidth ≤
          Machine.memorySize := by
  have hdata := hholds.isData_iff
  have hlow := hholds.loadAddress_le hconsistent
  have hlimit : Machine.loadAddress + Machine.programLimit = Machine.memorySize := by decide
  simp only [hpacks.size_le_iff hlow, hdata, hlimit, hholds.size_eq]

/-- The clauses of a draft are well formed exactly if the draft can be placed, its labels are
defined, and the image of its resolved instructions can be written. -/
theorem Draft.Holds.wellFormed_iff (hholds : draft.Holds clauses) (hindexed : draft.Indexed)
    (hconsistent : Clause.Consistent clauses)
    (hadmits : ∀ instruction ∈ Clause.instructions clauses, instruction.1.Admits instruction.2) :
    Clause.WellFormed clauses (Layout.ofData draft.data).site ↔
      ∃ placement bytes, draft.place = .ok placement ∧ draft.unresolved = [] ∧
        placement.layout.image (draft.instructions.map
          (·.resolved ((draft.symbols placement)[·]?))) = .ok bytes := by
  constructor
  · intro hformed
    obtain ⟨placement, hplace, hdefined, hencodable⟩ :=
      (hholds.coherent_iff hindexed hconsistent hadmits).mp hformed.toCoherent
    have hle := (hholds.size_le_programLimit_iff hconsistent (Draft.packs_of_place hplace)).mpr
      ⟨hformed.data_lt, hformed.code_le⟩
    exact ⟨placement, _, hplace, hdefined, Layout.image_eq_ok_iff.mpr ⟨hle, hencodable, rfl⟩⟩
  · rintro ⟨placement, bytes, hplace, hdefined, himage⟩
    obtain ⟨hle, hencodable, _⟩ := Layout.image_eq_ok_iff.mp himage
    have hcoherent := (hholds.coherent_iff hindexed hconsistent hadmits).mpr
      ⟨placement, hplace, hdefined, hencodable⟩
    obtain ⟨hdata_lt, hcode_le⟩ :=
      (hholds.size_le_programLimit_iff hconsistent (Draft.packs_of_place hplace)).mp hle
    exact ⟨hcoherent, hdata_lt, hcode_le⟩

end Draft

/-- Assembling tokens gives the program that they mean: the tokens spell clauses, whose
instructions are packed around their data, and each byte and each symbol of the program is
the one that the clauses determine. -/
theorem Program.exists_means_of_ofTokens {tokens : List Token} {program : Program}
    (hprogram : Program.ofTokens tokens = .ok program) :
    ∃ clauses site, Clause.Spells clauses (tokens.map (·.value)) ∧
      Clause.Sites clauses site ∧ program.Means clauses site := by
  obtain ⟨draft, placement, hdraft, hplace, _, himage, hsymbols⟩ :=
    ofTokens_eq_ok_iff.mp hprogram
  obtain ⟨clauses, hspells, hconsistent, hholds⟩ := Draft.exists_holds_of_ofTokens hdraft
  exact ⟨clauses, _, hspells, hholds.sites,
    means_of_draft hholds hconsistent hspells.admits hplace himage hsymbols⟩

/-- A jump to a label behind a data byte means what its clauses say. -/
theorem Program.means_of_jump_over_data :
    ∃ program, Program.ofTokens ([.operand (.label "start"), .instruction .jmp,
        .operand (.label "end"), .data, .operand (.integer 0x202), .operand (.integer 0xAA),
        .operand (.label "end"), .instruction .cls, .eof].map (⟨·, .first⟩)) = .ok program ∧
      program = ⟨#[0x12, 0x03, 0xAA, 0x00, 0xE0], [("end", 0x203), ("start", 0x200)]⟩ ∧
      ∃ clauses site, Clause.Spells clauses [.operand (.label "start"), .instruction .jmp,
        .operand (.label "end"), .data, .operand (.integer 0x202), .operand (.integer 0xAA),
        .operand (.label "end"), .instruction .cls, .eof] ∧
      Clause.Sites clauses site ∧ program.Means clauses site := by
  have hprogram : Program.ofTokens ([.operand (.label "start"), .instruction .jmp,
      .operand (.label "end"), .data, .operand (.integer 0x202), .operand (.integer 0xAA),
      .operand (.label "end"), .instruction .cls, .eof].map (⟨·, .first⟩)) =
        .ok ⟨#[0x12, 0x03, 0xAA, 0x00, 0xE0], [("end", 0x203), ("start", 0x200)]⟩ := by
    cbv
  exact ⟨_, hprogram, rfl, exists_means_of_ofTokens hprogram⟩

/-- Tokens can be assembled exactly if they spell well-formed clauses. -/
theorem Program.exists_ofTokens_iff (tokens : List Token) :
    (∃ program, Program.ofTokens tokens = .ok program) ↔
      ∃ clauses site, Clause.Spells clauses (tokens.map (·.value)) ∧
        Clause.Sites clauses site ∧ Clause.WellFormed clauses site := by
  constructor
  · rintro ⟨program, hprogram⟩
    obtain ⟨draft, placement, hdraft, hplace, hdefined, himage, hsymbols⟩ :=
      ofTokens_eq_ok_iff.mp hprogram
    obtain ⟨clauses, hspells, hconsistent, hholds⟩ := Draft.exists_holds_of_ofTokens hdraft
    have hindexed := Draft.indexed_empty.extend hdraft
    exact ⟨clauses, _, hspells, hholds.sites,
      (hholds.wellFormed_iff hindexed hconsistent hspells.admits).mpr
        ⟨placement, _, hplace, hdefined, himage⟩⟩
  · rintro ⟨clauses, site, hspells, hsites, hformed⟩
    have hconsistent := hformed.toCoherent.consistent fun _ => hformed.addresses_lt
    obtain ⟨draft, hdraft, hholds⟩ :=
      Draft.exists_ofTokens_of_spells hspells hconsistent
    have hindexed := Draft.indexed_empty.extend hdraft
    obtain rfl := hsites.unique hholds.sites
    obtain ⟨placement, bytes, hplace, hdefined, himage⟩ :=
      (hholds.wellFormed_iff hindexed hconsistent hspells.admits).mp hformed
    exact ⟨⟨bytes, _⟩, ofTokens_eq_ok_iff.mpr
      ⟨draft, placement, hdraft, hplace, hdefined, himage, rfl⟩⟩

/-- Coherent clauses are assembled exactly if the least image with room for them is not too
large. -/
theorem Program.ofTokens_cases_of_coherent {tokens : List Token} {clauses : List Clause}
    {site : Nat → Nat} (hspells : Clause.Spells clauses (tokens.map (·.value)))
    (hsites : Clause.Sites clauses site) (hcoherent : Clause.Coherent clauses site)
    (haddresses : ∀ address, Clause.IsData clauses address → address + 1 < Machine.numberBound) :
    ∃ size, IsLeast {size | Clause.Covers clauses site size} size ∧
      (size ≤ Machine.programLimit →
        ∃ program, ofTokens tokens = .ok program ∧ program.Means clauses site) ∧
      (Machine.programLimit < size →
        ofTokens tokens = .error (.programTooLarge size Machine.programLimit)) := by
  have hconsistent := hcoherent.consistent haddresses
  obtain ⟨draft, hdraft, hholds⟩ := Draft.exists_ofTokens_of_spells hspells hconsistent
  have hindexed := Draft.indexed_empty.extend hdraft
  obtain rfl := hsites.unique hholds.sites
  obtain ⟨placement, hplace, hdefined, hencodable⟩ :=
    (hholds.coherent_iff hindexed hconsistent hspells.admits).mp hcoherent
  refine ⟨_, hholds.isLeast_size hconsistent (Draft.packs_of_place hplace),
    fun hle => ?_, fun hlt => ?_⟩
  · obtain ⟨bytes, himage⟩ : ∃ bytes, placement.layout.image (draft.instructions.map
        (·.resolved ((draft.symbols placement)[·]?))) = .ok bytes :=
      ⟨_, Layout.image_eq_ok_iff.mpr ⟨hle, hencodable, rfl⟩⟩
    refine ⟨⟨bytes, _⟩, ofTokens_eq_ok_iff.mpr
      ⟨draft, placement, hdraft, hplace, hdefined, himage, rfl⟩, ?_⟩
    exact means_of_draft hholds hconsistent hspells.admits hplace himage rfl
  · have hresolve := hindexed.resolve_eq (draft.symbols placement)
    simp [ofTokens, ofDraft, hdraft, hplace, hresolve, hdefined, Layout.image, hlt, bind,
      Except.bind]

end ChipEight
