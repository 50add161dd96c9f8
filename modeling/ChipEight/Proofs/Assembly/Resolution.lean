import ChipEight.Program
import ChipEight.Proofs.Assembly.References

/-!
# Resolving labels

Going through the references of a draft replaces each use of a defined label by the
label's address, and nothing else, so that the result is each instruction with its
operands resolved one by one. In which order the uses are replaced does not matter.
-/

namespace ChipEight

/-- An operand in which a label is replaced by its address, if it has one. -/
def Operand.resolved (address? : String → Option Nat) : Operand → Operand
  | label name =>
    match address? name with
    | some address => integer address
    | none => label name
  | operand => operand

/-- A label that is left has no address. -/
theorem Operand.eq_none_of_resolved_eq_label {address? : String → Option Nat} {operand : Operand}
    {name : String} (hlabel : operand.resolved address? = .label name) :
    operand = .label name ∧ address? name = none := by
  cases operand with
  | label other =>
    cases haddress : address? other with
    | none =>
      simp only [Operand.resolved, haddress] at hlabel
      cases hlabel
      exact ⟨rfl, haddress⟩
    | some address => simp [Operand.resolved, haddress] at hlabel
  | integer | register => cases hlabel

namespace SourceInstruction

/-- An instruction in which the labels that have addresses are replaced by them. -/
def resolved (address? : String → Option Nat) (instruction : SourceInstruction) :
    SourceInstruction :=
  { instruction with
    operands := instruction.operands.map fun operand =>
      ⟨operand.value.resolved address?, operand.position⟩ }

/-- The operands of a resolved instruction are resolved one by one. -/
theorem map_value_resolved (address? : String → Option Nat) (instruction : SourceInstruction) :
    (instruction.resolved address?).operands.map (·.value) =
      (instruction.operands.map (·.value)).map (Operand.resolved address?) := by
  simp [resolved, Function.comp_def]

/-- Replacing one label by its address leaves the resolved instruction as it is. -/
theorem resolved_set {address? : String → Option Nat} {instruction : SourceInstruction}
    {index : Nat} {name : String} {address : Nat} {position : Position}
    (haddress : address? name = some address)
    (hoperand : instruction.operands[index]? = some ⟨.label name, position⟩) :
    resolved address? { instruction with
      operands := instruction.operands.set index ⟨.integer address, position⟩ } =
        instruction.resolved address? := by
  obtain ⟨hlt, hlabel⟩ := List.getElem?_eq_some_iff.mp hoperand
  simp only [resolved, mk.injEq, true_and, and_true]
  refine List.ext_getElem? fun place => ?_
  by_cases hplace : index = place
  · subst hplace
    simp [hlt, hlabel, Operand.resolved, haddress]
  · simp [hplace]

end SourceInstruction

/-- The replacement of one use of a label by an address. -/
structure Patch where
  name : String
  reference : Reference
  address : Nat
  deriving DecidableEq, Repr

/-- Makes a replacement among some instructions. -/
def Patch.apply (instructions : Array SourceInstruction) (patch : Patch) :
    Except AssemblyError (Array SourceInstruction) :=
  Draft.resolveReference patch.name patch.address instructions patch.reference

namespace Draft

/-- Instructions from which some uses of labels have been removed by resolving them. -/
structure Resolves (address? : String → Option Nat) (instructions : Array SourceInstruction)
    (done : Reference → Prop) (result : Array SourceInstruction) : Prop where
  names_iff : ∀ reference name,
    reference.Names result name ↔ reference.Names instructions name ∧ ¬done reference
  map_eq : result.map (·.resolved address?) = instructions.map (·.resolved address?)

/-- A use of a label with an address is resolved. -/
theorem exists_resolveReference {address? : String → Option Nat}
    {instructions : Array SourceInstruction} {reference : Reference} {name : String}
    {address : Nat} (haddress : address? name = some address)
    (hnames : reference.Names instructions name) :
    ∃ result, resolveReference name address instructions reference = .ok result ∧
      Resolves address? instructions (· = reference) result := by
  obtain ⟨instruction, position, hinstruction, hoperand⟩ := hnames
  obtain ⟨hlt, rfl⟩ := Array.getElem?_eq_some_iff.mp hinstruction
  obtain ⟨hlt', hoperand'⟩ := List.getElem?_eq_some_iff.mp hoperand
  refine ⟨instructions.setIfInBounds reference.instruction
    { instructions[reference.instruction] with
      operands := instructions[reference.instruction].operands.set reference.operand
        ⟨.integer address, position⟩ }, ?_, ?_, ?_⟩
  · simp [resolveReference, hinstruction, SourceInstruction.resolve, hoperand, bind, Except.bind,
      pure, Except.pure]
  · rintro ⟨number, operand⟩ other
    have hreference : (⟨number, operand⟩ : Reference) = reference ↔
        reference.instruction = number ∧ reference.operand = operand := by
      constructor
      · rintro rfl
        exact ⟨rfl, rfl⟩
      · rintro ⟨rfl, rfl⟩
        rfl
    by_cases hnumber : reference.instruction = number
    · subst hnumber
      by_cases hplace : reference.operand = operand
      · subst hplace
        simp [Reference.Names, hlt, hlt']
      · simp [Reference.Names, hlt, hplace, hreference]
    · simp [Reference.Names, hnumber, hreference]
  · rw [Array.map_setIfInBounds, SourceInstruction.resolved_set haddress hoperand]
    refine Array.ext_getElem? fun index => ?_
    by_cases hnumber : reference.instruction = index
    · subst hnumber
      simp [hlt]
    · simp [hnumber]

/-- Different uses of labels with addresses are patched one after another. -/
theorem exists_foldlM_apply {address? : String → Option Nat}
    {instructions : Array SourceInstruction} {patches : List Patch}
    (haddress : ∀ patch ∈ patches, address? patch.name = some patch.address)
    (hnodup : (patches.map (·.reference)).Nodup)
    (hnames : ∀ patch ∈ patches, patch.reference.Names instructions patch.name) :
    ∃ result, patches.foldlM Patch.apply instructions = .ok result ∧
      Resolves address? instructions (· ∈ patches.map (·.reference)) result := by
  induction patches generalizing instructions with
  | nil => exact ⟨instructions, rfl, by simp, rfl⟩
  | cons patch patches ih =>
    rw [List.forall_mem_cons] at haddress hnames
    rw [List.map_cons, List.nodup_cons] at hnodup
    obtain ⟨next, hnext, hresolves⟩ := exists_resolveReference haddress.1 hnames.1
    -- what has been patched is no longer a label, so the rest must be other uses
    have hkept : ∀ other ∈ patches, other.reference.Names next other.name := by
      intro other hmem
      rw [hresolves.names_iff]
      refine ⟨hnames.2 other hmem, fun hsame => hnodup.1 ?_⟩
      exact hsame ▸ List.mem_map_of_mem hmem
    obtain ⟨result, hresult, hrest⟩ := ih haddress.2 hnodup.2 hkept
    refine ⟨result, ?_, fun reference name => ?_, hrest.map_eq.trans hresolves.map_eq⟩
    · rw [List.foldlM_cons, Patch.apply, hnext]
      exact hresult
    · rw [hrest.names_iff, hresolves.names_iff, List.map_cons, List.mem_cons, not_or, and_assoc]

/-- Instructions without a label that has an address are their own resolution. -/
theorem map_resolved_eq_self {address? : String → Option Nat}
    {instructions : Array SourceInstruction}
    (hnone : ∀ (reference : Reference) name,
      reference.Names instructions name → address? name = none) :
    instructions.map (·.resolved address?) = instructions := by
  refine Array.ext (by simp) fun index hindex hindex' => ?_
  rw [Array.getElem_map]
  have hoperands : instructions[index].operands.map
      (fun operand => (⟨operand.value.resolved address?, operand.position⟩ : Located Operand)) =
        instructions[index].operands := by
    refine List.ext_getElem (by simp) fun place hplace hplace' => ?_
    rw [List.getElem_map]
    cases hoperand : instructions[index].operands[place] with
    | mk operand position =>
      cases operand with
      | label name =>
        have haddress := hnone ⟨index, place⟩ name ⟨_, position,
          Array.getElem?_eq_getElem hindex', by rw [List.getElem?_eq_getElem hplace', hoperand]⟩
        simp [Operand.resolved, haddress]
      | integer | register => rfl
  simp only [SourceInstruction.resolved, hoperands]

/-- Patches replace different uses of labels that a draft has noted, by the addresses of the
labels. -/
structure Permits (draft : Draft) (address? : String → Option Nat) (patches : List Patch) :
    Prop where
  noted : ∀ patch ∈ patches, patch.reference ∈ draft.references.getD patch.name []
  address_eq : ∀ patch ∈ patches, address? patch.name = some patch.address
  nodup : (patches.map (·.reference)).Nodup

/-- Patches replace all uses of labels that a draft has noted and that have addresses, each
once. -/
structure Requires (draft : Draft) (address? : String → Option Nat) (patches : List Patch) : Prop
    extends draft.Permits address? patches where
  complete : ∀ name address, address? name = some address →
    ∀ reference ∈ draft.references.getD name [], ⟨name, reference, address⟩ ∈ patches

/-- Patches of different uses can be made one after another, whatever their order. -/
theorem Indexed.exists_patched {draft : Draft} (hindexed : draft.Indexed)
    {address? : String → Option Nat} {patches : List Patch}
    (hpermits : draft.Permits address? patches) :
    ∃ result, patches.foldlM Patch.apply draft.instructions = .ok result ∧
      Resolves address? draft.instructions (· ∈ patches.map (·.reference)) result :=
  exists_foldlM_apply hpermits.address_eq hpermits.nodup fun patch hmem =>
    (hindexed.mem_iff _ _).mp (hpermits.noted patch hmem)

/-- All patches together resolve every operand, whatever their order. -/
theorem Indexed.patched_eq {draft : Draft} (hindexed : draft.Indexed)
    {address? : String → Option Nat} {patches : List Patch}
    (hrequires : draft.Requires address? patches) :
    patches.foldlM Patch.apply draft.instructions =
      .ok (draft.instructions.map (·.resolved address?)) := by
  obtain ⟨result, hresult, hresolves⟩ := hindexed.exists_patched hrequires.toPermits
  have hnone : ∀ (reference : Reference) name,
      reference.Names result name → address? name = none := by
    intro reference name hname
    obtain ⟨horiginal, hleft⟩ := (hresolves.names_iff _ _).mp hname
    cases haddress : address? name with
    | none => rfl
    | some address =>
      have hnoted := (hindexed.mem_iff _ _).mpr horiginal
      have hmem := hrequires.complete name address haddress reference hnoted
      exact absurd (List.mem_map_of_mem hmem) hleft
  rw [hresult, ← hresolves.map_eq, map_resolved_eq_self hnone]

/-- The patches of the uses of one label. -/
def patchesOf (symbols : Std.TreeMap String Nat) (entry : String × List Reference) :
    List Patch :=
  match symbols[entry.1]? with
  | some address => entry.2.map (⟨entry.1, ·, address⟩)
  | none => []

/-- The patches of a draft, label by label. -/
def patches (draft : Draft) (symbols : Std.TreeMap String Nat) : List Patch :=
  draft.references.toList.flatMap (patchesOf symbols)

/-- Resolving the labels of a draft makes its patches. -/
theorem resolve_eq_foldlM_patches (draft : Draft) (symbols : Std.TreeMap String Nat) :
    draft.resolve symbols = (draft.patches symbols).foldlM Patch.apply draft.instructions := by
  rw [resolve, Std.TreeMap.foldlM_eq_foldlM_toList, patches]
  generalize draft.references.toList = entries
  generalize draft.instructions = instructions
  induction entries generalizing instructions with
  | nil => rfl
  | cons entry entries ih =>
    rw [List.foldlM_cons, List.flatMap_cons, List.foldlM_append, patchesOf]
    simp only [ih]
    cases symbols[entry.1]? with
    | none => rfl
    | some address =>
      rw [List.foldlM_map]
      rfl

/-- A patch is one of a draft exactly if it replaces a noted use by the label's address. -/
theorem mem_patches_iff {draft : Draft} {symbols : Std.TreeMap String Nat} {patch : Patch} :
    patch ∈ draft.patches symbols ↔ patch.reference ∈ draft.references.getD patch.name [] ∧
      symbols[patch.name]? = some patch.address := by
  simp only [patches, List.mem_flatMap, patchesOf]
  rw [Std.TreeMap.getD_eq_getD_getElem?]
  constructor
  · rintro ⟨⟨name, uses⟩, hentry, hmem⟩
    have huses := Std.TreeMap.mem_toList_iff_getElem?_eq_some.mp hentry
    split at hmem
    · next address haddress =>
      obtain ⟨reference, huse, rfl⟩ := List.mem_map.mp hmem
      exact ⟨by rwa [huses], haddress⟩
    · cases hmem
  · rintro ⟨hnoted, haddress⟩
    cases huses : draft.references[patch.name]? with
    | none =>
      rw [huses] at hnoted
      cases hnoted
    | some uses =>
      rw [huses] at hnoted
      refine ⟨(patch.name, uses), Std.TreeMap.mem_toList_iff_getElem?_eq_some.mpr huses, ?_⟩
      simp only [haddress]
      exact List.mem_map.mpr ⟨patch.reference, hnoted, rfl⟩

/-- No use of a label is patched twice. -/
theorem Indexed.nodup_patches {draft : Draft} (hindexed : draft.Indexed)
    (symbols : Std.TreeMap String Nat) :
    ((draft.patches symbols).map (·.reference)).Nodup := by
  have huses : ∀ entry ∈ draft.references.toList,
      draft.references.getD entry.1 [] = entry.2 := by
    intro entry hmem
    have hentry := Std.TreeMap.mem_toList_iff_getElem?_eq_some.mp hmem
    rw [Std.TreeMap.getD_eq_getD_getElem?, hentry, Option.getD_some]
  have hmap : ∀ entry : String × List Reference,
      ((patchesOf symbols entry).map (·.reference)).Sublist entry.2 := by
    intro entry
    rw [patchesOf]
    cases symbols[entry.1]? with
    | none => exact List.nil_sublist _
    | some address => simp [Function.comp_def]
  have hdistinct : draft.references.toList.Pairwise fun first second => first.1 ≠ second.1 :=
    Std.TreeMap.distinct_keys_toList.imp fun hne heq =>
      hne (Std.LawfulEqCmp.compare_eq_iff_eq.mpr heq)
  rw [patches, List.map_flatMap, List.nodup_flatMap]
  refine ⟨fun entry hmem => ?_, hdistinct.imp_of_mem fun {first second} hfirst hsecond hne => ?_⟩
  · have hnodup := hindexed.nodup entry.1
    rw [huses entry hmem] at hnodup
    exact (hmap entry).nodup hnodup
  · -- one operand is a label of one name only
    intro reference hmem hmem'
    have huse := (hmap first).subset hmem
    have huse' := (hmap second).subset hmem'
    rw [← huses first hfirst, hindexed.mem_iff] at huse
    rw [← huses second hsecond, hindexed.mem_iff] at huse'
    exact hne (huse.unique huse')

/-- The patches of a draft are all that it requires. -/
theorem Indexed.requires_patches {draft : Draft} (hindexed : draft.Indexed)
    (symbols : Std.TreeMap String Nat) :
    draft.Requires (symbols[·]?) (draft.patches symbols) where
  noted _ hmem := (mem_patches_iff.mp hmem).1
  address_eq _ hmem := (mem_patches_iff.mp hmem).2
  nodup := hindexed.nodup_patches symbols
  complete _ _ haddress _ hnoted := mem_patches_iff.mpr ⟨hnoted, haddress⟩

/-- Resolving the labels of a draft resolves every operand, one by one. -/
theorem Indexed.resolve_eq {draft : Draft} (hindexed : draft.Indexed)
    (symbols : Std.TreeMap String Nat) :
    draft.resolve symbols = .ok (draft.instructions.map (·.resolved (symbols[·]?))) := by
  rw [resolve_eq_foldlM_patches, hindexed.patched_eq (hindexed.requires_patches symbols)]

/-- The unresolved labels of a draft are those that it uses and does not define. -/
theorem Indexed.mem_unresolved_iff {draft : Draft} (hindexed : draft.Indexed) {name : String} :
    name ∈ draft.unresolved ↔
      (∃ reference : Reference, reference.Names draft.instructions name) ∧
        name ∉ draft.labels := by
  simp only [unresolved, List.mem_filter, Std.TreeMap.mem_keys, Bool.not_eq_true',
    ← Std.TreeMap.contains_iff_mem, Bool.not_eq_true]
  rw [Std.TreeMap.contains_iff_mem]
  refine and_congr_left fun _ => ⟨fun hmem => ?_, ?_⟩
  · obtain ⟨reference, huse⟩ := List.exists_mem_of_ne_nil _ (hindexed.nonempty name hmem)
    exact ⟨reference, (hindexed.mem_iff name reference).mp huse⟩
  · rintro ⟨reference, hname⟩
    obtain ⟨uses, hentry, _⟩ := hindexed.exists_uses hname
    exact Std.TreeMap.mem_iff_isSome_getElem?.mpr (by rw [hentry]; rfl)

end Draft

end ChipEight
