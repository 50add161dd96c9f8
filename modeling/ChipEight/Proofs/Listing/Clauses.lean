import ChipEight.Listing
import ChipEight.Proofs.Assembly.Meaning
import ChipEight.Proofs.Listing.Items
import ChipEight.Proofs.Listing.Lines

/-!
# The clauses of a listing

A listing has a clause for each item, after the definition of the label of its address, if
there is one. Because the items follow one another without gaps, the sites of the clauses are
the addresses of the instruction items, and the clauses are coherent.
-/

namespace ChipEight

namespace Item

/-- The instruction of an item with its address. -/
def code? : Item → Option (Nat × Instruction)
  | instruction address found => some (address, found)
  | data _ _ => none

/-- The byte of an item with its address. -/
def cell? : Item → Option (Nat × Nat)
  | instruction _ _ => none
  | data address byte => some (address, byte.toNat)

/-- The instruction items among some items. -/
theorem mem_codes_iff {items : List Item} {address : Nat} {found : Instruction} :
    (address, found) ∈ items.filterMap code? ↔ .instruction address found ∈ items := by
  rw [List.mem_filterMap]
  constructor
  · rintro ⟨item, hmem, hcode⟩
    cases item with
    | instruction start other =>
      cases hcode
      exact hmem
    | data => cases hcode
  · exact fun hmem => ⟨_, hmem, rfl⟩

/-- The data items among some items. -/
theorem mem_cells_iff {items : List Item} {address value : Nat} :
    (address, value) ∈ items.filterMap cell? ↔
      ∃ byte : UInt8, byte.toNat = value ∧ .data address byte ∈ items := by
  rw [List.mem_filterMap]
  constructor
  · rintro ⟨item, hmem, hcell⟩
    cases item with
    | instruction => cases hcell
    | data start byte =>
      cases hcell
      exact ⟨byte, rfl, hmem⟩
  · rintro ⟨byte, rfl, hmem⟩
    exact ⟨_, hmem, rfl⟩

end Item

namespace Disassembly

variable (disassembly : Disassembly)

/-- The form and the operands as which an instruction is listed. -/
def listed (found : Instruction) : Opcode × List Operand :=
  Opcode.listed found.raw (Listing.operandLabel? disassembly disassembly.starts found)

/-- The clause as which an item is listed. -/
def clauseOf : Item → Clause
  | .instruction _ found =>
    .instruction (disassembly.listed found).1 (disassembly.listed found).2
  | .data address byte => .data address [byte.toNat]

/-- The clauses of an item: the definition of the label of its address, if there is one, and
the item itself. -/
def clausesOf (item : Item) : List Clause :=
  (disassembly.labels[item.address]?).toList.map Clause.label ++ [disassembly.clauseOf item]

/-- The clauses of the listing. -/
def clauses : List Clause :=
  disassembly.items.flatMap disassembly.clausesOf

/-- The instructions of items are those that they are listed as. -/
theorem instructions_clausesOf (items : List Item) :
    Clause.instructions (items.flatMap disassembly.clausesOf) =
      (items.filterMap Item.code?).map fun code => disassembly.listed code.2 := by
  induction items with
  | nil => rfl
  | cons item items ih =>
    rw [List.flatMap_cons, Clause.instructions_append, ih, clausesOf]
    cases disassembly.labels[item.address]? <;> cases item <;> rfl

/-- The cells of items are their data. -/
theorem cells_clausesOf (items : List Item) :
    Clause.cells (items.flatMap disassembly.clausesOf) = items.filterMap Item.cell? := by
  induction items with
  | nil => rfl
  | cons item items ih =>
    rw [List.flatMap_cons, Clause.cells_append, ih, clausesOf]
    cases disassembly.labels[item.address]? <;> cases item <;> rfl

/-- The labels that are defined before items are those of their addresses. -/
theorem names_clausesOf (before : Nat) (items : List Item) :
    (Clause.definitionsFrom before (items.flatMap disassembly.clausesOf)).map (·.1) =
      items.filterMap fun item => disassembly.labels[item.address]? := by
  induction items generalizing before with
  | nil => rfl
  | cons item items ih =>
    rw [List.flatMap_cons, Clause.definitionsFrom_append, List.map_append, ih,
      List.filterMap_cons, clausesOf]
    cases disassembly.labels[item.address]? <;> cases item <;> rfl

/-- The label of an item is defined before as many instructions as there are in front of the
item. -/
theorem mem_definitions_clausesOf (before : Nat) (front : List Item) {item : Item}
    (back : List Item) {name : String} (hlabel : disassembly.labels[item.address]? = some name) :
    (name, before + (front.filterMap Item.code?).length) ∈
      Clause.definitionsFrom before ((front ++ item :: back).flatMap disassembly.clausesOf) := by
  rw [List.flatMap_append, List.flatMap_cons, Clause.definitionsFrom_append,
    instructions_clausesOf, List.length_map]
  refine List.mem_append_right _ ?_
  rw [clausesOf, hlabel]
  exact List.mem_cons_self

end Disassembly

/-- The instruction item with a number has as many instruction items in front. -/
theorem Item.exists_append_of_getElem?_codes {items : List Item} {index start : Nat}
    {found : Instruction} (hindex : (items.filterMap code?)[index]? = some (start, found)) :
    ∃ front back, items = front ++ .instruction start found :: back ∧
      (front.filterMap code?).length = index := by
  induction items generalizing index with
  | nil => cases hindex
  | cons item items ih =>
    cases item with
    | data place byte =>
      obtain ⟨front, back, rfl, hlength⟩ := ih hindex
      exact ⟨.data place byte :: front, back, rfl, hlength⟩
    | instruction place other =>
      cases index with
      | zero =>
        cases hindex
        exact ⟨[], items, rfl, rfl⟩
      | succ index =>
        obtain ⟨front, back, rfl, hlength⟩ := ih hindex
        exact ⟨.instruction place other :: front, back, rfl, congrArg Nat.succ hlength⟩

/-- The site of the next instruction, seen from an item, is the first address from the item on
without data, if data is what the data items in front hold. -/
theorem Item.Divides.isLeast_site {instructions : Std.TreeMap Nat Instruction} {address : Nat}
    {bytes : List UInt8} {front back : List Item} {item : Item}
    (hdivides : Divides instructions address bytes (front ++ item :: back))
    {clauses : List Clause} {site : Nat → Nat} (hsites : Clause.Sites clauses site)
    (hdata : ∀ item ∈ front, Clause.IsData clauses item.address ↔ item.isInstruction = false)
    {before : Nat}
    (hfirst : IsLeast {place | address ≤ place ∧ ¬Clause.IsData clauses place} (site before)) :
    IsLeast {place | item.address ≤ place ∧ ¬Clause.IsData clauses place}
      (site (before + (front.filterMap code?).length)) := by
  induction front generalizing address bytes before with
  | nil =>
    have haddress : item.address = address := by cases hdivides <;> rfl
    rwa [haddress]
  | cons first front ih =>
    obtain ⟨hhead, htail⟩ := List.forall_mem_cons.mp hdata
    cases hdivides with
    | instruction _ hrest =>
      have hcode : ¬Clause.IsData clauses address := fun his => nomatch hhead.mp his
      have hhere : site before = address :=
        Nat.le_antisymm (hfirst.2 ⟨Nat.le_refl _, hcode⟩) hfirst.1.1
      have hnext := hsites.next before
      rw [hhere] at hnext
      have hleast := ih hrest htail hnext
      rwa [Nat.add_assoc, Nat.add_comm 1] at hleast
    | data _ hrest =>
      have his : Clause.IsData clauses address := hhead.mpr rfl
      refine ih hrest htail ⟨⟨?_, hfirst.1.2⟩, fun place hplace => hfirst.2 ⟨?_, hplace.2⟩⟩
      · exact Nat.lt_of_le_of_ne hfirst.1.1 fun heq => hfirst.1.2 (heq ▸ his)
      · exact Nat.le_of_succ_le hplace.1

namespace Disassembly

variable {image : Array UInt8} {limit : Nat} {disassembly : Disassembly} {site : Nat → Nat}

/-- The data of a listing is that of its data items. -/
theorem isData_clauses_iff {address : Nat} :
    Clause.IsData disassembly.clauses address ↔
      ∃ byte, .data address byte ∈ disassembly.items := by
  simp only [Clause.IsData, clauses, cells_clausesOf, Item.mem_cells_iff]
  constructor
  · rintro ⟨_, byte, _, hmem⟩
    exact ⟨byte, hmem⟩
  · rintro ⟨byte, hmem⟩
    exact ⟨_, byte, rfl, hmem⟩

/-- The instructions of a listing lie on no data. -/
theorem not_isData_of_mem (hexplore : explore image limit = .ok disassembly) {start : Nat}
    {found : Instruction} (hmem : .instruction start found ∈ disassembly.items) :
    ¬Clause.IsData disassembly.clauses start ∧ ¬Clause.IsData disassembly.clauses (start + 1) := by
  simp only [isData_clauses_iff]
  refine ⟨fun ⟨byte, hdata⟩ => ?_, fun ⟨byte, hdata⟩ => ?_⟩
  · exact ((divides_items hexplore).address_ne hmem hdata).1 rfl
  · exact ((divides_items hexplore).address_ne hmem hdata).2 rfl

/-- The items at which a listing has data are the data items. -/
theorem isData_address_iff (hexplore : explore image limit = .ok disassembly) {item : Item}
    (hmem : item ∈ disassembly.items) :
    Clause.IsData disassembly.clauses item.address ↔ item.isInstruction = false := by
  cases item with
  | instruction start found =>
    exact iff_of_false (not_isData_of_mem hexplore hmem).1 (nomatch ·)
  | data place byte => exact iff_of_true (isData_clauses_iff.mpr ⟨byte, hmem⟩) rfl

/-- The site of the next instruction, seen from an item of a listing, is the first address from
the item on without data. -/
theorem isLeast_site (hexplore : explore image limit = .ok disassembly)
    (hsites : Clause.Sites disassembly.clauses site) {front back : List Item} {item : Item}
    (hitems : disassembly.items = front ++ item :: back) :
    IsLeast {place | item.address ≤ place ∧ ¬Clause.IsData disassembly.clauses place}
      (site (front.filterMap Item.code?).length) := by
  have hdivides := divides_items hexplore
  rw [hitems] at hdivides
  rw [← Nat.zero_add (front.filterMap Item.code?).length]
  refine hdivides.isLeast_site hsites (fun item hmem => isData_address_iff hexplore ?_)
    hsites.first
  rw [hitems]
  exact List.mem_append_left _ hmem

/-- The site of an instruction item is its address. -/
theorem site_length_eq (hexplore : explore image limit = .ok disassembly)
    (hsites : Clause.Sites disassembly.clauses site) {front back : List Item} {start : Nat}
    {found : Instruction} (hitems : disassembly.items = front ++ .instruction start found :: back) :
    site (front.filterMap Item.code?).length = start := by
  have hleast := isLeast_site hexplore hsites hitems
  have hmem : .instruction start found ∈ disassembly.items := by
    rw [hitems]
    exact List.mem_append_right _ List.mem_cons_self
  exact Nat.le_antisymm (hleast.2 ⟨Nat.le_refl _, (not_isData_of_mem hexplore hmem).1⟩) hleast.1.1

/-- The sites of a listing are the addresses of its instruction items. -/
theorem site_eq (hexplore : explore image limit = .ok disassembly)
    (hsites : Clause.Sites disassembly.clauses site) {index start : Nat} {found : Instruction}
    (hindex : (disassembly.items.filterMap Item.code?)[index]? = some (start, found)) :
    site index = start := by
  obtain ⟨front, back, hitems, rfl⟩ := Item.exists_append_of_getElem?_codes hindex
  exact site_length_eq hexplore hsites hitems

/-- An instruction is listed with a label only if it is a branch to a listed instruction that
has the label. -/
theorem operandLabel?_eq_some (hexplore : explore image limit = .ok disassembly)
    {found : Instruction} {name : String}
    (hname : Listing.operandLabel? disassembly disassembly.starts found = some name) :
    found.mnemonic.isBranch = true ∧ disassembly.labels[found.target]? = some name ∧
      ∃ other, .instruction found.target other ∈ disassembly.items := by
  simp only [Listing.operandLabel?] at hname
  split at hname
  · next hlisted =>
    simp only [Bool.and_eq_true, decide_eq_true_eq, beq_iff_eq] at hlisted
    obtain ⟨hbranch, hle, hstart⟩ := hlisted
    exact ⟨hbranch, hname, (getElem?_starts_iff hexplore hle).mp hstart⟩
  · cases hname

/-- No label is defined twice in a listing. -/
theorem names_nodup (hexplore : explore image limit = .ok disassembly) :
    ((Clause.definitions disassembly.clauses).map (·.1)).Nodup := by
  rw [Clause.definitions, clauses, names_clausesOf, List.Nodup, List.pairwise_filterMap]
  refine (divides_items hexplore).pairwise.imp fun {first second} hle name hname other hother => ?_
  rintro rfl
  have hsame : first.address = second.address := labelFor_injective
    ((label_eq_of_explore hexplore hname).symm.trans (label_eq_of_explore hexplore hother))
  cases first <;> simp only [Item.width, Machine.instructionWidth] at hle <;> omega

/-- The label of an item is defined before as many instructions as are listed in front of it. -/
theorem mem_definitions {front back : List Item} {item : Item} {name : String}
    (hitems : disassembly.items = front ++ item :: back)
    (hlabel : disassembly.labels[item.address]? = some name) :
    (name, (front.filterMap Item.code?).length) ∈ Clause.definitions disassembly.clauses := by
  have hdefined := disassembly.mem_definitions_clausesOf 0 front back hlabel
  rwa [Nat.zero_add, ← hitems] at hdefined

/-- The label of a listed instruction has the address of the instruction. -/
theorem addressOf?_eq (hexplore : explore image limit = .ok disassembly)
    (hsites : Clause.Sites disassembly.clauses site) {address : Nat} {found : Instruction}
    {name : String} (hmem : .instruction address found ∈ disassembly.items)
    (hlabel : disassembly.labels[address]? = some name) :
    ∃ index, (name, index) ∈ Clause.definitions disassembly.clauses ∧
      Clause.addressOf? disassembly.clauses site name = some address := by
  obtain ⟨front, back, hitems⟩ := List.append_of_mem hmem
  have hdefined := mem_definitions hitems hlabel
  refine ⟨_, hdefined, ?_⟩
  have hnames := List.pairwise_map.mp (names_nodup hexplore)
  have hlookup := (lookup_eq_some_iff_mem hnames).mpr hdefined
  rw [Clause.addressOf?, hlookup, Option.map_some, site_length_eq hexplore hsites hitems]

/-- A listed instruction makes its word of the operands as which it is listed. -/
theorem encodes_listed (hexplore : explore image limit = .ok disassembly)
    (hsites : Clause.Sites disassembly.clauses site) {start : Nat} {found : Instruction}
    (hmem : .instruction start found ∈ disassembly.items) :
    (disassembly.listed found).1.Admits (disassembly.listed found).2 ∧
      (disassembly.listed found).1.Encodes ((disassembly.listed found).2.map
        (Operand.resolved (Clause.addressOf? disassembly.clauses site))) found.raw := by
  obtain ⟨high, low, rfl, _⟩ := (divides_items hexplore).getElem?_instruction hmem
  rw [listed, Opcode.raw_ofWord]
  refine ⟨Opcode.admits_listed fun name hname => ?_,
    Opcode.encodes_listed fun name hname => ?_⟩
  · rw [← Opcode.mnemonic_ofWord]
    exact (operandLabel?_eq_some hexplore hname).1
  · obtain ⟨hmnemonic, hlabel, other, hother⟩ := operandLabel?_eq_some hexplore hname
    obtain ⟨_, _, haddress⟩ := addressOf?_eq hexplore hsites hother hlabel
    rw [← Opcode.mnemonic_ofWord]
    exact ⟨hmnemonic, haddress⟩

end Disassembly

end ChipEight
