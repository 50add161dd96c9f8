import Mathlib.Data.List.Sigma
import ChipEight.Proofs.Assembly.Drafts

/-!
# The uses of labels

A draft notes every operand that is a label under the label's name, each exactly once.
-/

namespace ChipEight

/-- The operand that a reference points at is a label with some name. -/
def Reference.Names (reference : Reference) (instructions : Array SourceInstruction)
    (name : String) : Prop :=
  ∃ instruction position, instructions[reference.instruction]? = some instruction ∧
    instruction.operands[reference.operand]? = some ⟨.label name, position⟩

/-- An operand that is a label has one name. -/
theorem Reference.Names.unique {reference : Reference} {instructions : Array SourceInstruction}
    {name other : String} (hname : reference.Names instructions name)
    (hother : reference.Names instructions other) : name = other := by
  obtain ⟨instruction, position, hinstruction, hoperand⟩ := hname
  obtain ⟨_, _, hinstruction', hoperand'⟩ := hother
  cases hinstruction.symm.trans hinstruction'
  cases hoperand.symm.trans hoperand'
  rfl

namespace Draft

/-- The uses of labels among some operands are the operands that are labels. -/
theorem mem_labelUses_iff {operands : List (Located Operand)} {name : String} {index : Nat} :
    (name, index) ∈ labelUses operands ↔
      ∃ position, operands[index]? = some ⟨.label name, position⟩ := by
  simp only [labelUses, List.mem_filterMap, Prod.exists, List.mem_zipIdx_iff_getElem?]
  constructor
  · rintro ⟨⟨operand, position⟩, _, hoperand, huse⟩
    cases operand with
    | label other =>
      cases huse
      exact ⟨position, hoperand⟩
    | integer | register => cases huse
  · rintro ⟨position, hoperand⟩
    exact ⟨_, index, hoperand, rfl⟩

/-- No use of a label is listed twice. -/
theorem nodup_labelUses (operands : List (Located Operand)) : (labelUses operands).Nodup := by
  have hindices : operands.zipIdx.Pairwise fun first second => first.2 ≠ second.2 :=
    List.pairwise_map.mp (List.nodup_zipIdx_map_snd operands)
  refine List.pairwise_filterMap.mpr (hindices.imp ?_)
  rintro ⟨⟨operand, _⟩, index⟩ ⟨⟨other, _⟩, index'⟩ hne use huse use' huse' rfl
  cases operand <;> cases other <;> simp at huse huse'
  exact hne (congrArg (·.2) (huse.trans huse'.symm))

/-- The references to the uses of a label by an instruction. -/
def usesOf (name : String) (instruction : Nat) (uses : List (String × Nat)) : List Reference :=
  (uses.filter (·.1 = name)).map fun use => ⟨instruction, use.2⟩

/-- The references to the uses of a label by an instruction are the uses with its name. -/
theorem mem_usesOf_iff {name : String} {instruction : Nat} {uses : List (String × Nat)}
    {reference : Reference} :
    reference ∈ usesOf name instruction uses ↔
      reference.instruction = instruction ∧ (name, reference.operand) ∈ uses := by
  simp only [usesOf, List.mem_map, List.mem_filter, decide_eq_true_eq, Prod.exists]
  constructor
  · rintro ⟨_, operand, ⟨hmem, rfl⟩, rfl⟩
    exact ⟨rfl, hmem⟩
  · rintro ⟨rfl, hmem⟩
    exact ⟨name, _, ⟨hmem, rfl⟩, rfl⟩

/-- Different uses of a label have different references. -/
theorem nodup_usesOf {name : String} {instruction : Nat} {uses : List (String × Nat)}
    (hnodup : uses.Nodup) : (usesOf name instruction uses).Nodup := by
  refine (hnodup.filter _).map_on ?_
  rintro ⟨first, operand⟩ hfirst ⟨second, other⟩ hsecond heq
  simp only [List.mem_filter, decide_eq_true_eq] at hfirst hsecond
  exact Prod.ext (hfirst.2.trans hsecond.2.symm) (Reference.mk.inj heq).2

/-- The uses of a label after an instruction are its own, the latest first, and then those
before it. -/
theorem getD_withUses (references : Std.TreeMap String (List Reference)) (instruction : Nat)
    (uses : List (String × Nat)) (name : String) :
    (withUses references instruction uses).getD name [] =
      (usesOf name instruction uses).reverse ++ references.getD name [] := by
  induction uses generalizing references with
  | nil => rfl
  | cons use uses ih =>
    obtain ⟨other, operand⟩ := use
    rw [withUses, List.foldl_cons, ← withUses, ih, Std.TreeMap.getD_insert]
    by_cases hname : other = name
    · subst hname
      simp [usesOf]
    · simp [usesOf, hname]

/-- The labels in use after an instruction are its own and those before it. -/
theorem mem_withUses (references : Std.TreeMap String (List Reference)) (instruction : Nat)
    (uses : List (String × Nat)) (name : String) :
    name ∈ withUses references instruction uses ↔
      name ∈ references ∨ ∃ operand, (name, operand) ∈ uses := by
  induction uses generalizing references with
  | nil => simp [withUses]
  | cons use uses ih =>
    obtain ⟨other, operand⟩ := use
    rw [withUses, List.foldl_cons, ← withUses, ih, Std.TreeMap.mem_insert]
    by_cases hname : other = name
    · simp [hname]
    · simp [hname, Ne.symm hname]

/-- The references of a draft are the operands that are labels, by name and each once. -/
structure Indexed (draft : Draft) : Prop where
  mem_iff : ∀ name reference, reference ∈ draft.references.getD name [] ↔
    reference.Names draft.instructions name
  nodup : ∀ name, (draft.references.getD name []).Nodup
  nonempty : ∀ name ∈ draft.references, draft.references.getD name [] ≠ []

/-- An operand that is a label is among the uses noted under its name. -/
theorem Indexed.exists_uses {draft : Draft} (hindexed : draft.Indexed) {reference : Reference}
    {name : String} (hnames : reference.Names draft.instructions name) :
    ∃ uses, draft.references[name]? = some uses ∧ reference ∈ uses := by
  have huse := (hindexed.mem_iff name reference).mpr hnames
  rw [Std.TreeMap.getD_eq_getD_getElem?] at huse
  cases huses : draft.references[name]? with
  | none =>
    rw [huses] at huse
    cases huse
  | some uses => exact ⟨uses, rfl, by rwa [huses] at huse⟩

/-- The empty draft has no references. -/
theorem indexed_empty : empty.Indexed where
  mem_iff name reference := by simp [empty, Reference.Names]
  nodup name := by simp [empty]
  nonempty name hmem := by simp [empty] at hmem

/-- The references to an instruction at the end are its own uses. -/
theorem names_push_iff {instructions : Array SourceInstruction}
    {instruction : SourceInstruction} {reference : Reference} {name : String} :
    reference.Names (instructions.push instruction) name ↔
      reference.Names instructions name ∨ reference.instruction = instructions.size ∧
        (name, reference.operand) ∈ labelUses instruction.operands := by
  simp only [Reference.Names, Array.getElem?_push, mem_labelUses_iff]
  by_cases hlast : reference.instruction = instructions.size
  · simp [hlast]
  · simp [hlast]

/-- A draft to which a statement has been added still has its references in order. -/
theorem Indexed.add {draft next : Draft} {statement : Statement} (hindexed : draft.Indexed)
    (hadd : draft.add statement = .ok next) : next.Indexed := by
  cases statement with
  | label name position =>
    obtain ⟨-, rfl⟩ := add_label_eq_ok_iff.mp hadd
    exact ⟨hindexed.mem_iff, hindexed.nodup, hindexed.nonempty⟩
  | data position start bytes =>
    obtain ⟨-, -, stored, -, rfl⟩ := add_data_eq_ok_iff.mp hadd
    exact ⟨hindexed.mem_iff, hindexed.nodup, hindexed.nonempty⟩
  | instruction instruction =>
    rw [add_instruction_eq] at hadd
    cases hadd
    refine ⟨fun name reference => ?_, fun name => ?_, fun name hmem => ?_⟩
    · rw [getD_withUses, List.mem_append, List.mem_reverse, mem_usesOf_iff, hindexed.mem_iff,
        names_push_iff, or_comm]
    · rw [getD_withUses, List.nodup_append, List.nodup_reverse]
      refine ⟨nodup_usesOf (nodup_labelUses _), hindexed.nodup name, ?_⟩
      rintro reference hlast _ hearlier rfl
      rw [List.mem_reverse, mem_usesOf_iff] at hlast
      obtain ⟨_, _, hinstruction, _⟩ := (hindexed.mem_iff name reference).mp hearlier
      have hlt := (Array.getElem?_eq_some_iff.mp hinstruction).1
      omega
    · rw [getD_withUses]
      rcases (mem_withUses _ _ _ _).mp hmem with hmem | ⟨operand, hmem⟩
      · exact List.append_ne_nil_of_right_ne_nil _ (hindexed.nonempty name hmem)
      · have huse : (⟨draft.instructions.size, operand⟩ : Reference) ∈
            (usesOf name draft.instructions.size (labelUses instruction.operands)).reverse := by
          rw [List.mem_reverse, mem_usesOf_iff]
          exact ⟨rfl, hmem⟩
        exact List.append_ne_nil_of_left_ne_nil (List.ne_nil_of_mem huse) _

/-- A draft that tokens extend still has its references in order. -/
theorem Indexed.extend {draft final : Draft} {tokens : List Token} (hindexed : draft.Indexed)
    (hextend : draft.extend tokens = .ok final) : final.Indexed := by
  induction draft, tokens using Draft.extend.induct with
  | case1 draft => simp [Draft.extend] at hextend
  | case2 draft token rest hend =>
    rw [Draft.extend, if_pos hend] at hextend
    cases hextend
    exact hindexed
  | case3 draft token rest hend error hread =>
    rw [Draft.extend, if_neg hend, hread] at hextend
    cases hextend
  | case4 draft token rest hend statement taken hread error hadd =>
    rw [Draft.extend, if_neg hend, hread] at hextend
    simp [hadd] at hextend
  | case5 draft token rest hend statement taken hread next hadd ih =>
    rw [Draft.extend, if_neg hend, hread] at hextend
    simp only [hadd] at hextend
    exact ih (hindexed.add hadd) hextend

end Draft

end ChipEight
