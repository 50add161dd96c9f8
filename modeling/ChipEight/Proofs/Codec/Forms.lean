import ChipEight.Proofs.Codec.Operands

/-!
# The form in which a mnemonic is used

A mnemonic with one form is always used in it. The four mnemonics with two forms are used
with two registers if their second operand is a register, and with a register and a byte
otherwise, so that the operands alone select the form.
-/

namespace ChipEight

namespace Opcode

/-- The operands that an instruction of a form may have: as many as the shape takes, and a
register as the second one if the mnemonic has two forms and this is the one with two
registers. -/
structure Admits (opcode : Opcode) (operands : List Operand) : Prop where
  mem_table : opcode ∈ table
  length_eq : operands.length = opcode.shape.arity
  second : opcode.mnemonic ∈ [.skeq, .skne, .mov, .add] →
    (opcode.shape = .registerRegister ↔ ∃ number, operands[1]? = some (.register number))

end Opcode

namespace Mnemonic

/-- The shapes of a mnemonic are those of its forms in the table. -/
theorem mem_shapes_iff {mnemonic : Mnemonic} {shape : Shape} :
    shape ∈ mnemonic.shapes ↔
      ∃ opcode ∈ Opcode.table, opcode.mnemonic = mnemonic ∧ opcode.shape = shape := by
  simp [shapes, and_assoc]

/-- Four mnemonics have two shapes, and the others have at most one. -/
theorem shapes_cases (mnemonic : Mnemonic) :
    mnemonic ∈ [.skeq, .skne, .mov, .add] ∧
        mnemonic.shapes = [.registerByte, .registerRegister] ∨
      mnemonic ∉ [.skeq, .skne, .mov, .add] ∧ mnemonic.shapes.length ≤ 1 := by
  cases mnemonic <;> decide

/-- A mnemonic with two shapes is used with two registers exactly if a register follows the
first operand. -/
theorem shapeFor?_of_two {mnemonic : Mnemonic} {second : Option Token.Kind} {shape : Shape}
    (htwo : mnemonic.shapes = [.registerByte, .registerRegister]) :
    mnemonic.shapeFor? second = some shape ↔
      shape ∈ [.registerByte, .registerRegister] ∧
        (shape = .registerRegister ↔ ∃ number, second = some (.operand (.register number))) := by
  simp only [shapeFor?, htwo]
  split
  · cases shape <;> simp
  · next hother =>
    have hnone : ¬∃ number, second = some (.operand (.register number)) := by
      rintro ⟨number, heq⟩
      exact hother number heq
    cases shape <;> simp [hnone]

/-- A mnemonic is used in a shape if the table has the form and the token after the first
operand selects it. -/
theorem shapeFor?_eq_some_iff {mnemonic : Mnemonic} {second : Option Token.Kind}
    {shape : Shape} :
    mnemonic.shapeFor? second = some shape ↔
      (∃ opcode ∈ Opcode.table, opcode.mnemonic = mnemonic ∧ opcode.shape = shape) ∧
        (mnemonic ∈ [.skeq, .skne, .mov, .add] →
          (shape = .registerRegister ↔
            ∃ number, second = some (.operand (.register number)))) := by
  rw [← mem_shapes_iff]
  rcases shapes_cases mnemonic with ⟨hmem, htwo⟩ | ⟨hmem, hle⟩
  · rw [shapeFor?_of_two htwo, htwo]
    simp only [hmem, forall_const]
  · simp only [hmem, false_implies, and_true]
    unfold shapeFor?
    match hshapes : mnemonic.shapes with
    | [] => simp
    | [only] => simp [eq_comm]
    | _ :: _ :: _ =>
      rw [hshapes] at hle
      simp at hle

end Mnemonic

namespace Opcode

/-- A mnemonic with two forms has two operands, so the token after the first operand is
the second one, whatever follows. -/
theorem second_register_iff {opcode : Opcode} (hmem : opcode ∈ table)
    (htwo : opcode.mnemonic ∈ [.skeq, .skne, .mov, .add]) {operands : List Operand}
    (hlength : operands.length = opcode.shape.arity) (rest : List Token.Kind) :
    (∃ number, (operands.map Token.Kind.operand ++ rest)[1]? =
        some (.operand (.register number))) ↔
      ∃ number, operands[1]? = some (.register number) := by
  have hall : ∀ opcode ∈ table, opcode.mnemonic ∈ [.skeq, .skne, .mov, .add] →
      opcode.shape.arity = 2 := by decide
  have hlt : 1 < (operands.map Token.Kind.operand).length := by
    rw [List.length_map, hlength, hall opcode hmem htwo]
    exact Nat.one_lt_two
  rw [List.getElem?_append_left hlt, List.getElem?_map]
  simp

/-- Operands select the form that admits them, whatever follows them. -/
theorem Admits.shapeFor?_eq {opcode : Opcode} {operands : List Operand}
    (hadmits : opcode.Admits operands) (rest : List Token.Kind) :
    opcode.mnemonic.shapeFor? ((operands.map Token.Kind.operand ++ rest)[1]?) =
      some opcode.shape := by
  refine Mnemonic.shapeFor?_eq_some_iff.mpr
    ⟨⟨opcode, hadmits.mem_table, rfl, rfl⟩, fun htwo => ?_⟩
  rw [hadmits.second htwo, second_register_iff hadmits.mem_table htwo hadmits.length_eq]

/-- A mnemonic has one form that admits given operands. -/
theorem Admits.unique {opcode other : Opcode} {operands : List Operand}
    (hadmits : opcode.Admits operands) (hother : other.Admits operands)
    (hmnemonic : opcode.mnemonic = other.mnemonic) : opcode = other := by
  have hshape := hadmits.shapeFor?_eq []
  rw [hmnemonic, hother.shapeFor?_eq] at hshape
  have hlookup := lookup?_eq_some_iff.mpr ⟨hadmits.mem_table, hmnemonic, rfl⟩
  have hlookup' := lookup?_eq_some_iff.mpr ⟨hother.mem_table, rfl, Option.some.inj hshape⟩
  exact Option.some.inj (hlookup.symm.trans hlookup')

/-- A form that is selected by the token after the first operand admits the operands. -/
theorem admits_of_shapeFor? {mnemonic : Mnemonic} {shape : Shape} {operands : List Operand}
    {rest : List Token.Kind}
    (hshape : mnemonic.shapeFor? ((operands.map Token.Kind.operand ++ rest)[1]?) = some shape)
    (hlength : operands.length = shape.arity) :
    ∃ opcode : Opcode, opcode.mnemonic = mnemonic ∧ opcode.shape = shape ∧
      opcode.Admits operands := by
  obtain ⟨⟨opcode, hmem, rfl, rfl⟩, hsecond⟩ := Mnemonic.shapeFor?_eq_some_iff.mp hshape
  refine ⟨opcode, rfl, rfl, hmem, hlength, fun htwo => ?_⟩
  rw [hsecond htwo, second_register_iff hmem htwo hlength]

end Opcode

end ChipEight
