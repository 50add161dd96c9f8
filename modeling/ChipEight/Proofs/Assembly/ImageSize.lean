import Mathlib.Data.List.Perm.Subperm
import ChipEight.Proofs.Assembly.Bounded
import ChipEight.Proofs.Assembly.Correctness
import ChipEight.Proofs.Codec.Refusals

/-!
# The size of an image

The size that is found by counting is the distance to the last byte that data or an instruction
claims. Few tokens claim few bytes, so that every number computed on the way from tokens to an
image has 32 bits, and every byte is stored inside the image.
-/

namespace ChipEight

/-- No instruction is refused because of the size of its program. -/
theorem SourceInstruction.encode_ne_programTooLarge (instruction : SourceInstruction)
    (size limit : Nat) : instruction.encode ≠ .error (.programTooLarge size limit) := by
  intro hencode
  cases encode_eq_error_iff.mp hencode with
  | operand _ _ _ hrefuses => cases hrefuses

namespace Layout

/-- The address after the last instruction, or the load address if there is none. -/
def codeEnd (layout : Layout) : Nat :=
  match layout.code.maxKey? with
  | some address => address + Machine.instructionWidth
  | none => Machine.loadAddress

/-- An image that is not written is too large, or one of its instructions has no word. -/
theorem image_cases_of_error {layout : Layout} {instructions : Array SourceInstruction}
    {error : AssemblyError} (himage : layout.image instructions = .error error) :
    (Machine.programLimit < layout.size ∧
      error = .programTooLarge layout.size Machine.programLimit) ∨
    ∃ (index : Nat) (instruction : SourceInstruction),
      instructions[index]? = some instruction ∧ instruction.encode = .error error := by
  by_cases hsize : layout.size ≤ Machine.programLimit
  · obtain ⟨_, ⟨index, _, instruction, hinstruction, hencode⟩, _⟩ :=
      (image_eq_error_iff hsize).mp himage
    exact .inr ⟨index, instruction, hinstruction, hencode⟩
  · have hlarge := Nat.lt_of_not_le hsize
    rw [image, if_pos hlarge] at himage
    cases himage
    exact .inl ⟨hlarge, rfl⟩

/-- The only images that are refused for their size are those that do not fit. -/
theorem image_eq_programTooLarge_iff {layout : Layout} {instructions : Array SourceInstruction}
    {size limit : Nat} :
    layout.image instructions = .error (.programTooLarge size limit) ↔
      Machine.programLimit < layout.size ∧ size = layout.size ∧ limit = Machine.programLimit := by
  constructor
  · intro himage
    obtain ⟨hlarge, herror⟩ | ⟨_, instruction, _, hencode⟩ := image_cases_of_error himage
    · exact ⟨hlarge, AssemblyError.programTooLarge.inj herror⟩
    · exact absurd hencode (instruction.encode_ne_programTooLarge size limit)
  · rintro ⟨hlarge, hsize, hlimit⟩
    rw [image, if_pos hlarge, hsize, hlimit]

end Layout

namespace Placement.Packs

variable {placement : Placement} {data : Std.TreeMap Nat UInt8} {count : Nat}

/-- Placed instructions leave the data as it is. -/
theorem isData_eq (hpacks : placement.Packs data count) (address : Nat) :
    placement.layout.isData address = (Layout.ofData data).isData address := by
  rw [Layout.isData, hpacks.data_eq]
  rfl

/-- The addresses of packed instructions are their sites. -/
theorem mem_code_iff (hpacks : placement.Packs data count) (address : Nat) :
    address ∈ placement.layout.code ↔
      ∃ index < count, (Layout.ofData data).site index = address := by
  rw [Std.TreeMap.mem_iff_isSome_getElem?, Option.isSome_iff_exists]
  exact exists_congr fun index => hpacks.code_iff address index

/-- Packed instructions end with the one at the highest address. -/
theorem codeEnd_eq (hpacks : placement.Packs data count) :
    placement.layout.codeEnd = (Layout.ofData data).edge count := by
  rw [Layout.codeEnd]
  cases hmax : placement.layout.code.maxKey? with
  | none =>
    have hempty := Std.TreeMap.maxKey?_eq_none_iff.mp hmax
    rw [Std.TreeMap.isEmpty_eq_size_eq_zero, hpacks.code_size, beq_iff_eq] at hempty
    rw [hempty, Layout.edge]
  | some address =>
    obtain ⟨hmem, hall⟩ := Std.TreeMap.maxKey?_eq_some_iff_mem_and_forall.mp hmax
    obtain ⟨index, hindex, rfl⟩ := (hpacks.mem_code_iff address).mp hmem
    obtain ⟨last, rfl⟩ : ∃ last, count = last + 1 := ⟨count - 1, by omega⟩
    have hlast := hall _ ((hpacks.mem_code_iff _).mpr ⟨last, Nat.lt_succ_self last, rfl⟩)
    have hle : (Layout.ofData data).site last ≤ (Layout.ofData data).site index :=
      Nat.isLE_compare.mp hlast
    obtain rfl : index = last := by
      by_contra hne
      have hnext := (Layout.ofData data).site_add_width_le_of_lt
        (Nat.lt_of_le_of_ne (Nat.le_of_lt_succ hindex) hne)
      have hwidth : Machine.instructionWidth = 2 := rfl
      omega
    rfl

/-- Instructions lie in an image of the size of their layout. -/
theorem code_lt (hpacks : placement.Packs data count)
    (hlow : ∀ address, (Layout.ofData data).isData address = true →
      Machine.loadAddress ≤ address) :
    ∀ address ∈ placement.layout.code, Machine.loadAddress ≤ address ∧
      address + 1 < Machine.loadAddress + placement.layout.size := by
  intro address hmem
  obtain ⟨index, hindex, rfl⟩ := (hpacks.mem_code_iff address).mp hmem
  have hend : (Layout.ofData data).site index + 2 ≤ (Layout.ofData data).edge count :=
    (Layout.ofData data).edge_mono hindex
  have hsize := hpacks.size_eq hlow
  have hle := (Layout.ofData data).loadAddress_le_site index
  exact ⟨hle, by omega⟩

end Placement.Packs

/-- There are no more instructions and bytes of data than tokens. -/
theorem Clause.Spells.length_le {clauses : List Clause} {kinds : List Token.Kind}
    (hspells : Spells clauses kinds) :
    (instructions clauses).length + (cells clauses).length ≤ kinds.length := by
  induction hspells with
  | done => exact Nat.zero_le _
  | @label name clauses rest _ ih => exact Nat.le_succ_of_le ih
  | @data start bytes clauses rest _ _ _ ih =>
    have hinstructions : instructions (.data start bytes :: clauses) = instructions clauses := rfl
    have hblock : (cells (.data start bytes :: clauses)).length =
        bytes.length + (cells clauses).length := by
      have haddresses := congrArg List.length (map_fst_cellsFrom start bytes)
      rw [List.length_map, List.length_range'] at haddresses
      rw [cells, List.flatMap_cons, List.length_append, haddresses, cells]
    simp only [List.length_cons, List.length_append, List.length_map]
    rw [hinstructions, hblock]
    omega
  | @instruction opcode operands clauses rest _ _ ih =>
    have hcells : cells (.instruction opcode operands :: clauses) = cells clauses := rfl
    have hlength : (instructions (.instruction opcode operands :: clauses)).length =
        (instructions clauses).length + 1 := rfl
    simp only [List.length_cons, List.length_append, List.length_map]
    rw [hcells, hlength]
    omega

/-- A draft has no more bytes of data than its clauses give. -/
theorem Draft.Holds.size_data_le {draft : Draft} {clauses : List Clause}
    (hholds : draft.Holds clauses) : draft.data.size ≤ (Clause.cells clauses).length := by
  have hkeys : draft.data.keys ⊆ (Clause.cells clauses).map (·.1) := by
    intro address hmem
    obtain ⟨value, hcell⟩ := (hholds.contains_iff address).mp
      (Std.TreeMap.contains_iff_mem.mpr (Std.TreeMap.mem_keys.mp hmem))
    exact List.mem_map_of_mem hcell
  rw [← Std.TreeMap.length_keys, ← List.length_map (fun cell : Nat × Nat => cell.1)]
  exact (Std.TreeMap.nodup_keys.subperm hkeys).length_le

/-- The instructions and the data of the draft of few tokens could follow one another in numbers
of 32 bits, and so could the data end where it does. -/
theorem Draft.size_lt_of_ofTokens {tokens : List Token} {draft : Draft}
    (hlength : tokens.length < 0x40000000) (hdraft : ofTokens tokens = .ok draft) :
    Machine.loadAddress + draft.instructions.size * Machine.instructionWidth + draft.data.size +
      Machine.instructionWidth < Machine.numberBound := by
  obtain ⟨clauses, hspells, _, hholds⟩ := exists_holds_of_ofTokens hdraft
  have htokens := hspells.length_le
  have hdata := hholds.size_data_le
  rw [List.length_map, ← hholds.size_eq] at htokens
  simp only [Machine.loadAddress, Machine.instructionWidth, Machine.numberBound]
  omega

/-- The data of a draft lies in the program's part of memory, and ends at a number. -/
theorem Draft.data_of_ofTokens {tokens : List Token} {draft : Draft}
    (hdraft : ofTokens tokens = .ok draft) :
    (∀ address, (Layout.ofData draft.data).isData address = true →
      Machine.loadAddress ≤ address) ∧
      (Layout.ofData draft.data).dataEnd < Machine.numberBound := by
  obtain ⟨clauses, _, hconsistent, hholds⟩ := exists_holds_of_ofTokens hdraft
  refine ⟨hholds.loadAddress_le hconsistent, ?_⟩
  have hle : (Layout.ofData draft.data).dataEnd ≤ Machine.numberBound - 1 := by
    refine (Layout.dataEnd_le_iff (by decide)).mpr fun address hdata => ?_
    obtain ⟨value, hcell⟩ := (hholds.isData_iff address).mp hdata
    have hlt := hconsistent.addresses_lt address (List.mem_map_of_mem hcell)
    omega
  exact Nat.lt_of_le_of_lt hle (by decide)

/-- The image of a draft of few tokens ends at a number. -/
theorem Draft.size_add_lt {tokens : List Token} {draft : Draft} {placement : Placement}
    (hlength : tokens.length < 0x40000000) (hdraft : ofTokens tokens = .ok draft)
    (hpacks : placement.Packs draft.data draft.instructions.size) :
    placement.layout.size + Machine.loadAddress < Machine.numberBound := by
  obtain ⟨hlow, hend⟩ := data_of_ofTokens hdraft
  have hbound := size_lt_of_ofTokens hlength hdraft
  have hsite : (Layout.ofData draft.data).site draft.instructions.size ≤ _ + draft.data.size :=
    Layout.site_le hlow hpacks.clear
  have hedge : (Layout.ofData draft.data).edge draft.instructions.size ≤
      (Layout.ofData draft.data).site draft.instructions.size := Layout.le_nextFree _ _
  have hstop := Layout.loadAddress_le_dataEnd hlow
  rw [hpacks.size_eq hlow]
  omega

/-- The draft of few tokens is placed in numbers of 32 bits as in numbers without bounds. -/
theorem Bounded.placeDraft_eq {tokens : List Token} {draft : Draft}
    (hlength : tokens.length < 0x40000000) (hdraft : Draft.ofTokens tokens = .ok draft) :
    draft.instructions.foldlM place (.start draft.data) = untrapped draft.place := by
  have hbound := Draft.size_lt_of_ofTokens hlength hdraft
  rw [← Array.foldlM_toList, Draft.place, ← Array.foldlM_toList]
  refine placeAll_eq (Placement.packs_start draft.data) (Draft.data_of_ofTokens hdraft).1 ?_
  rw [Nat.zero_add, Array.length_toList]
  exact Nat.lt_of_le_of_lt (Nat.le_add_right _ _) hbound

/-- Few tokens are assembled in numbers of 32 bits as in numbers without bounds. -/
theorem Bounded.assemble_eq {tokens : List Token} (hlength : tokens.length < 0x40000000) :
    assemble tokens = untrapped (Program.ofTokens tokens) := by
  rw [assemble, Program.ofTokens, extend_eq, ← Draft.ofTokens]
  cases hdraft : Draft.ofTokens tokens with
  | error error => rfl
  | ok draft =>
    obtain ⟨hlow, _⟩ := Draft.data_of_ofTokens hdraft
    have hbound := Draft.size_lt_of_ofTokens hlength hdraft
    change (untrapped (.ok draft) >>= fun draft => _) = untrapped (Program.ofDraft draft)
    rw [untrapped_ok, ok_bind, placeDraft_eq hlength hdraft, Program.ofDraft]
    cases hplace : draft.place with
    | error error => rfl
    | ok placement =>
      have hpacks := Draft.packs_of_place hplace
      have hsite : (Layout.ofData draft.data).site draft.instructions.size ≤
          _ + draft.data.size := Layout.site_le hlow hpacks.clear
      have hlast := @nextFree_eq placement.layout placement.next (by
        rw [hpacks.nextFree_eq]
        omega)
      rw [untrapped_ok, ok_bind, hlast, ok_bind]
      -- Resolving labels computes nothing, and finds the same addresses.
      change (untrapped (draft.resolve (draft.symbols placement)) >>= fun instructions => _) =
        untrapped (draft.resolve (draft.symbols placement) >>= fun instructions => _)
      cases draft.resolve (draft.symbols placement) with
      | error error => rfl
      | ok instructions =>
        have himage := @image_eq placement.layout instructions
          (Draft.size_add_lt hlength hdraft hpacks)
          (fun address hdata => hlow address (hpacks.isData_eq address ▸ hdata))
          (hpacks.code_lt hlow)
        rw [untrapped_ok, ok_bind, ok_bind]
        by_cases hdefined : draft.unresolved ≠ []
        · simp only [if_pos hdefined]
          rfl
        · simp only [if_neg hdefined, himage]
          cases placement.layout.image instructions <;> rfl

/-- Data at the last address but one is refused for the size of the image, not trapped. -/
example : Bounded.assemble ([.instruction .cls, .data, .operand (.integer 0xFFFFFFFE),
    .operand (.integer 1), .eof].map (⟨·, .first⟩)) =
      .error (.refused (.programTooLarge 0xFFFFFDFF 0xE00)) := by
  cbv

namespace Program

/-- The assembly of some tokens comes to the image of a layout with some instructions. -/
def Emits (tokens : List Token) (layout : Layout) (instructions : Array SourceInstruction) : Prop :=
  ∃ draft placement, Draft.ofTokens tokens = .ok draft ∧ draft.place = .ok placement ∧
    draft.resolve (draft.symbols placement) = .ok instructions ∧ draft.unresolved = [] ∧
    placement.layout = layout

/-- The assembly of a program has come to its image. -/
theorem exists_emits {tokens : List Token} {program : Program}
    (hprogram : ofTokens tokens = .ok program) :
    ∃ layout instructions, Emits tokens layout instructions ∧
      layout.image instructions = .ok program.bytes := by
  obtain ⟨draft, placement, hdraft, hplace, hdefined, himage, _⟩ := ofTokens_eq_ok_iff.mp hprogram
  exact ⟨placement.layout, _, ⟨draft, placement, hdraft, hplace,
    (Draft.indexed_empty.extend hdraft).resolve_eq _, hdefined, rfl⟩, himage⟩

/-- If the assembly of few tokens comes to an image, the size found by counting is the distance
from the load address to the last byte that an instruction or data claims; the image is too large
exactly if this size is; data and instructions lie inside it; and all numbers on the way to it
have 32 bits, with no store outside the image. -/
theorem Emits.image_in_bounds {tokens : List Token} {layout : Layout}
    {instructions : Array SourceInstruction} (hemits : Emits tokens layout instructions)
    (hlength : tokens.length < 0x40000000) :
    layout.size = max (max layout.codeEnd layout.dataEnd) Machine.loadAddress -
        Machine.loadAddress ∧
      (∀ size limit, layout.image instructions = .error (.programTooLarge size limit) ↔
        Machine.programLimit < layout.size ∧ size = layout.size ∧
          limit = Machine.programLimit) ∧
      (∀ address ∈ layout.data, Machine.loadAddress ≤ address ∧
        address < Machine.loadAddress + layout.size) ∧
      (∀ address ∈ layout.code, Machine.loadAddress ≤ address ∧
        address + 1 < Machine.loadAddress + layout.size) ∧
      (∀ bytes, layout.image instructions = .ok bytes → bytes.size = layout.size) ∧
      Bounded.assemble tokens = Bounded.untrapped (ofTokens tokens) := by
  obtain ⟨draft, placement, hdraft, hplace, _, _, rfl⟩ := hemits
  have hpacks := Draft.packs_of_place hplace
  obtain ⟨hlow, _⟩ := Draft.data_of_ofTokens hdraft
  have hsize := hpacks.size_eq hlow
  have hstop := Layout.loadAddress_le_dataEnd hlow
  refine ⟨?_, fun size limit => Layout.image_eq_programTooLarge_iff, fun address hmem => ?_,
    hpacks.code_lt hlow, fun bytes => hpacks.size_image hlow, Bounded.assemble_eq hlength⟩
  · rw [hsize, hpacks.codeEnd_eq, hpacks.dataEnd_eq]
    omega
  · have hdata : (Layout.ofData draft.data).isData address = true := by
      rw [← hpacks.isData_eq]
      exact Std.TreeMap.contains_iff_mem.mpr hmem
    have hlt := Layout.lt_dataEnd_of_isData hdata
    exact ⟨hlow address hdata, by omega⟩

/-- An instruction between data and a gap before the last byte are counted alike. -/
theorem image_in_bounds_of_gap :
    ∃ layout instructions, Emits ([.instruction .jmp, .operand (.label "end"), .data,
        .operand (.integer 0x202), .operand (.integer 7), .operand (.label "end"),
        .instruction .cls, .data, .operand (.integer 0x206), .operand (.integer 9), .eof].map
          (⟨·, .first⟩)) layout instructions ∧
      layout.image instructions = .ok #[0x12, 0x03, 0x07, 0x00, 0xE0, 0x00, 0x09] ∧
      max (max layout.codeEnd layout.dataEnd) Machine.loadAddress - Machine.loadAddress = 7 ∧
      Bounded.assemble ([.instruction .jmp, .operand (.label "end"), .data,
        .operand (.integer 0x202), .operand (.integer 7), .operand (.label "end"),
        .instruction .cls, .data, .operand (.integer 0x206), .operand (.integer 9), .eof].map
          (⟨·, .first⟩)) =
        .ok ⟨#[0x12, 0x03, 0x07, 0x00, 0xE0, 0x00, 0x09], [("end", 0x203)]⟩ := by
  have hprogram : ofTokens ([.instruction .jmp, .operand (.label "end"), .data,
      .operand (.integer 0x202), .operand (.integer 7), .operand (.label "end"),
      .instruction .cls, .data, .operand (.integer 0x206), .operand (.integer 9), .eof].map
        (⟨·, .first⟩)) =
      .ok ⟨#[0x12, 0x03, 0x07, 0x00, 0xE0, 0x00, 0x09], [("end", 0x203)]⟩ := by
    cbv
  obtain ⟨layout, instructions, hemits, himage⟩ := exists_emits hprogram
  obtain ⟨hsize, _, _, _, hbytes, hbounded⟩ := hemits.image_in_bounds (by decide)
  refine ⟨layout, instructions, hemits, himage, ?_, ?_⟩
  · rw [← hsize, ← hbytes _ himage]
    rfl
  · rw [hbounded, hprogram]
    rfl

end Program

end ChipEight
