import ChipEight.Proofs.Assembly.ImageSize
import ChipEight.Proofs.Text.ByteOrder

/-!
# Labels that are used and not defined

Tokens that spell a program whose instructions can be placed are refused for their labels exactly
if they use one that they do not define. All such labels are then named, in the order of their
bytes. Nothing else can be wrong before: the words are made only after all labels have addresses.
-/

namespace ChipEight

/-- Clauses use a label as an operand, and none of them defines it. -/
def Clause.Unresolved (clauses : List Clause) (name : String) : Prop :=
  (∃ instruction ∈ instructions clauses, .label name ∈ instruction.2) ∧
    ¬∃ index, (name, index) ∈ definitions clauses

/-- An instruction that is refused for a label has it as an operand. -/
theorem SourceInstruction.exists_label_of_encode {instruction : SourceInstruction}
    {names : List String} (hencode : instruction.encode = .error (.unresolvedLabels names)) :
    ∃ name, .label name ∈ instruction.operands.map (·.value) := by
  cases encode_eq_error_iff.mp hencode with
  | @operand before after slot operand _ _ hpairs _ hrefuses =>
    have hmem : (slot, operand) ∈ instruction.slotOperands := by simp [hpairs]
    have hoperand : operand ∈ instruction.operands := (List.of_mem_zip hmem).2
    cases hrefuses with
    | @unresolved name _ _ => exact ⟨name, List.mem_map_of_mem hoperand⟩

namespace Draft

/-- The unresolved labels of a draft are listed in the order of their bytes. -/
theorem unresolved_pairwise (draft : Draft) :
    draft.unresolved.Pairwise fun first second =>
      first.toUTF8.data.toList < second.toUTF8.data.toList := by
  have hkeys : draft.references.keys.Pairwise fun first second => compare first second = .lt :=
    Std.TreeMap.ordered_keys
  refine (hkeys.filter _).imp fun hlt => bytes_lt_of_lt ?_
  exact compareOfLessAndEq_eq_lt.mp hlt

/-- A label that is left among the operands when all symbols have been put in is unresolved. -/
theorem Indexed.mem_unresolved_of_resolved {draft : Draft} (hindexed : draft.Indexed)
    {placement : Placement} {index : Nat} {instruction : SourceInstruction}
    (hindex : draft.instructions[index]? = some instruction) {name : String}
    (hlabel : .label name ∈
      (instruction.resolved ((draft.symbols placement)[·]?)).operands.map (·.value)) :
    name ∈ draft.unresolved := by
  rw [SourceInstruction.map_value_resolved] at hlabel
  obtain ⟨operand, hoperand, hresolved⟩ := List.mem_map.mp hlabel
  obtain ⟨rfl, hnone⟩ := Operand.eq_none_of_resolved_eq_label hresolved
  obtain ⟨⟨_, position⟩, hmem, rfl⟩ := List.mem_map.mp hoperand
  obtain ⟨place, hplace⟩ := List.mem_iff_getElem?.mp hmem
  have hnames : Reference.Names ⟨index, place⟩ draft.instructions name :=
    ⟨instruction, position, hindex, hplace⟩
  refine hindexed.mem_unresolved_iff.mpr ⟨⟨_, hnames⟩, ?_⟩
  simpa [symbols] using hnone

/-- If a draft defines all labels that it uses, then no word is missing for a label. -/
theorem Indexed.image_ne_unresolvedLabels {draft : Draft} (hindexed : draft.Indexed)
    (hdefined : draft.unresolved = []) (placement : Placement) (names : List String) :
    placement.layout.image (draft.instructions.map
      (·.resolved ((draft.symbols placement)[·]?))) ≠ .error (.unresolvedLabels names) := by
  intro himage
  obtain ⟨_, herror⟩ | ⟨index, instruction, hindex, hencode⟩ :=
    Layout.image_cases_of_error himage
  · cases herror
  · rw [Array.getElem?_map, Option.map_eq_some_iff] at hindex
    obtain ⟨original, hindex, rfl⟩ := hindex
    obtain ⟨name, hlabel⟩ := SourceInstruction.exists_label_of_encode hencode
    have hunresolved := hindexed.mem_unresolved_of_resolved hindex hlabel
    rw [hdefined] at hunresolved
    cases hunresolved

end Draft

namespace Program

variable {tokens : List Token} {draft : Draft} {placement : Placement}

/-- A placed draft is refused for the labels that it uses and does not define. -/
theorem ofTokens_eq_unresolvedLabels_iff (hdraft : Draft.ofTokens tokens = .ok draft)
    (hplace : draft.place = .ok placement) {names : List String} :
    ofTokens tokens = .error (.unresolvedLabels names) ↔
      draft.unresolved ≠ [] ∧ names = draft.unresolved := by
  rw [ofTokens_eq_of_place hdraft hplace]
  split
  · next hdefined =>
    have himage := (Draft.indexed_empty.extend hdraft).image_ne_unresolvedLabels hdefined
      placement names
    refine iff_of_false (fun hprogram => himage ?_) fun hleft => hleft.1 hdefined
    exact map_eq_error_iff.mp hprogram
  · next hdefined =>
    rw [Except.error.injEq, AssemblyError.unresolvedLabels.injEq, eq_comm]
    exact (and_iff_right hdefined).symm

/-- Tokens that spell clauses whose instructions can be placed are refused for their labels exactly
if some label is used and not defined. The labels that are named are all such labels, each once, in
the order of their bytes, whatever else is wrong. -/
theorem ofTokens_names_unresolved (hdraft : Draft.ofTokens tokens = .ok draft)
    (hplace : draft.place = .ok placement) :
    ∃ clauses, Clause.Spells clauses (tokens.map (·.value)) ∧
      ((∃ names, ofTokens tokens = .error (.unresolvedLabels names)) ↔
        ∃ name, Clause.Unresolved clauses name) ∧
      ∀ names, ofTokens tokens = .error (.unresolvedLabels names) →
        (names.Pairwise fun first second =>
          first.toUTF8.data.toList < second.toUTF8.data.toList) ∧
        ∀ name, name ∈ names ↔ Clause.Unresolved clauses name := by
  obtain ⟨clauses, hspells, _, hholds⟩ := Draft.exists_holds_of_ofTokens hdraft
  have hmem := @Draft.Holds.mem_unresolved_iff _ _ hholds (Draft.indexed_empty.extend hdraft)
  refine ⟨clauses, hspells, ?_, fun names hprogram => ?_⟩
  · simp only [ofTokens_eq_unresolvedLabels_iff hdraft hplace, Clause.Unresolved, ← hmem]
    constructor
    · rintro ⟨_, hsome, -⟩
      exact List.exists_mem_of_ne_nil _ hsome
    · rintro ⟨name, hname⟩
      exact ⟨_, List.ne_nil_of_mem hname, rfl⟩
  · obtain ⟨-, rfl⟩ := (ofTokens_eq_unresolvedLabels_iff hdraft hplace).mp hprogram
    exact ⟨draft.unresolved_pairwise, fun name => hmem⟩

/-- Jumps to two labels that are not defined, one of them twice, a jump to one that is, and a move
of a byte that is too large. -/
def jumpsToNowhere : List Token :=
  [.instruction .jmp, .operand (.label "b"), .instruction .mov, .operand (.register 1),
    .operand (.integer 0x1FF), .operand (.label "c"), .instruction .jmp,
    .operand (.label "a"), .instruction .jmp, .operand (.label "c"),
    .instruction .jmp, .operand (.label "b"), .eof].map (⟨·, .first⟩)

/-- Labels that are not defined are named in order and once, and before a byte that is too large. -/
theorem jumpsToNowhere_names_unresolved :
    ∃ draft placement, Draft.ofTokens jumpsToNowhere = .ok draft ∧ draft.place = .ok placement ∧
      ofTokens jumpsToNowhere = .error (.unresolvedLabels ["a", "b"]) ∧
      ∃ clauses, Clause.Spells clauses (jumpsToNowhere.map (·.value)) ∧
        ∀ name, name ∈ ["a", "b"] ↔ Clause.Unresolved clauses name := by
  have hplaced : (Draft.ofTokens jumpsToNowhere >>= Draft.place).isOk = true := by cbv
  have hprogram : ofTokens jumpsToNowhere = .error (.unresolvedLabels ["a", "b"]) := by cbv
  obtain ⟨draft, placement, hdraft, hplace⟩ := exists_of_isOk_bind hplaced
  obtain ⟨clauses, hspells, -, hnames⟩ := ofTokens_names_unresolved hdraft hplace
  exact ⟨draft, placement, hdraft, hplace, hprogram, clauses, hspells, (hnames _ hprogram).2⟩

end Program

end ChipEight
