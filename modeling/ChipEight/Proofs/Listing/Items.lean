import Mathlib.Data.List.Pairwise
import ChipEight.Proofs.Exploration.Reachability

/-!
# How items divide an image

The items of a disassembly follow one another from the load address to the end of the image.
The bytes behind an end that wraps belong to no item.
An instruction item takes the two bytes of its word, and a data item takes a byte at which
nothing was explored. What holds of the items is proved along this division.
-/

namespace ChipEight

namespace Item

/-- Items divide the bytes from an address on, where an exploration found instructions. -/
inductive Divides (instructions : Std.TreeMap Nat Instruction) :
    Nat → List UInt8 → List Item → Prop
  | nil {address : Nat} : Divides instructions address [] []
  | instruction {address : Nat} {high low : UInt8} {rest : List UInt8} {items : List Item}
      (hfound : instructions[address]? = some (.ofWord (.ofBytes high low)))
      (hrest : Divides instructions (address + Machine.instructionWidth) rest items) :
      Divides instructions address (high :: low :: rest)
        (.instruction address (.ofWord (.ofBytes high low)) :: items)
  | data {address : Nat} {byte : UInt8} {rest : List UInt8} {items : List Item}
      (hnone : instructions[address]? = none)
      (hrest : Divides instructions (address + 1) rest items) :
      Divides instructions address (byte :: rest) (.data address byte :: items)

variable {instructions : Std.TreeMap Nat Instruction} {address : Nat} {bytes : List UInt8}
  {items : List Item}

/-- Every instruction that was found lies on two bytes, which are its word. -/
def Lies (instructions : Std.TreeMap Nat Instruction) (address : Nat) (bytes : List UInt8) :
    Prop :=
  ∀ offset found, instructions[address + offset]? = some found →
    ∃ high low, bytes[offset]? = some high ∧ bytes[offset + 1]? = some low ∧
      found = .ofWord (.ofBytes high low)

/-- What lies on some bytes lies on the bytes that remain. -/
theorem Lies.drop (hlies : Lies instructions address bytes) (count : Nat) :
    Lies instructions (address + count) (bytes.drop count) := by
  intro offset found hfound
  rw [Nat.add_assoc] at hfound
  obtain ⟨high, low, hhigh, hlow, heq⟩ := hlies (count + offset) found hfound
  refine ⟨high, low, ?_, ?_, heq⟩
  · rwa [List.getElem?_drop]
  · rwa [List.getElem?_drop, ← Nat.add_assoc]

/-- The division of bytes divides them, if every instruction lies on its bytes. -/
theorem divides_divide (hlies : Lies instructions address bytes) :
    Divides instructions address bytes (divide instructions address bytes) := by
  fun_induction divide instructions address bytes with
  | case1 address => exact .nil
  | case2 address byte found hfound =>
    obtain ⟨_, _, _, hlow, _⟩ := hlies 0 found hfound
    cases hlow
  | case3 address byte hnone => exact .data hnone .nil
  | case4 address byte second rest found hfound ih =>
    obtain ⟨high, low, hhigh, hlow, rfl⟩ := hlies 0 found hfound
    cases hhigh
    cases hlow
    exact .instruction hfound (ih (hlies.drop 2))
  | case5 address byte second rest hnone ih => exact .data hnone (ih (hlies.drop 1))

/-- The number of bytes of an item. -/
def width : Item → Nat
  | instruction _ _ => Machine.instructionWidth
  | data _ _ => 1

/-- No item starts before the bytes that are divided. -/
theorem Divides.le_address (hdivides : Divides instructions address bytes items) :
    ∀ item ∈ items, address ≤ item.address := by
  induction hdivides with
  | nil => exact fun _ hmem => nomatch hmem
  | instruction _ _ ih =>
    refine List.forall_mem_cons.mpr ⟨Nat.le_refl _, fun item hmem => ?_⟩
    exact Nat.le_trans (Nat.le_add_right _ _) (ih item hmem)
  | data _ _ ih =>
    refine List.forall_mem_cons.mpr ⟨Nat.le_refl _, fun item hmem => ?_⟩
    exact Nat.le_trans (Nat.le_add_right _ _) (ih item hmem)

/-- Each item ends before the next ones start. -/
theorem Divides.pairwise (hdivides : Divides instructions address bytes items) :
    items.Pairwise fun first second => first.address + first.width ≤ second.address := by
  induction hdivides with
  | nil => exact .nil
  | instruction _ hrest ih => exact .cons hrest.le_address ih
  | data _ hrest ih => exact .cons hrest.le_address ih

/-- Two items are the same, or one ends before the other starts. -/
theorem Divides.same_or_apart (hdivides : Divides instructions address bytes items)
    {first second : Item} (hfirst : first ∈ items) (hsecond : second ∈ items) :
    first = second ∨ first.address + first.width ≤ second.address ∨
      second.address + second.width ≤ first.address := by
  refine @List.Pairwise.forall_of_forall _ (fun first second => first = second ∨
    first.address + first.width ≤ second.address ∨
      second.address + second.width ≤ first.address) items ?_ ?_ ?_ _ hfirst _ hsecond
  · exact ⟨fun _ _ hor => hor.imp Eq.symm Or.symm⟩
  · exact fun item _ => Or.inl rfl
  · exact hdivides.pairwise.imp fun hle => Or.inr (Or.inl hle)

/-- No data lies on an instruction. -/
theorem Divides.address_ne (hdivides : Divides instructions address bytes items)
    {start other : Nat} {found : Instruction} {byte : UInt8}
    (hcode : .instruction start found ∈ items) (hdata : .data other byte ∈ items) :
    other ≠ start ∧ other ≠ start + 1 := by
  rcases hdivides.same_or_apart hcode hdata with heq | hle
  · cases heq
  · simp only [Item.address, width, Machine.instructionWidth] at hle
    omega

/-- Each byte belongs to a data item, or is the first or the second of an instruction. -/
theorem Divides.covers (hdivides : Divides instructions address bytes items) {place : Nat}
    (hle : address ≤ place) (hlt : place < address + bytes.length) :
    (∃ byte, .data place byte ∈ items) ∨
      ∃ start found, .instruction start found ∈ items ∧ (place = start ∨ place = start + 1) := by
  induction hdivides with
  | nil => exact absurd (Nat.lt_of_le_of_lt hle hlt) (Nat.lt_irrefl _)
  | @instruction address high low rest items hfound _ ih =>
    by_cases hhere : place = address ∨ place = address + 1
    · exact Or.inr ⟨_, _, List.mem_cons_self, hhere⟩
    · have hwidth : Machine.instructionWidth = 2 := rfl
      simp only [List.length_cons] at hlt
      rcases ih (by omega) (by omega) with ⟨byte, hmem⟩ | ⟨start, found, hmem, hat⟩
      · exact Or.inl ⟨byte, List.mem_cons_of_mem _ hmem⟩
      · exact Or.inr ⟨start, found, List.mem_cons_of_mem _ hmem, hat⟩
  | @data address byte rest items hnone _ ih =>
    by_cases hhere : place = address
    · exact Or.inl ⟨byte, hhere ▸ List.mem_cons_self⟩
    · simp only [List.length_cons] at hlt
      rcases ih (by omega) (by omega) with ⟨byte, hmem⟩ | ⟨start, found, hmem, hat⟩
      · exact Or.inl ⟨byte, List.mem_cons_of_mem _ hmem⟩
      · exact Or.inr ⟨start, found, List.mem_cons_of_mem _ hmem, hat⟩

/-- A data item holds the byte at its address. -/
theorem Divides.getElem?_data (hdivides : Divides instructions address bytes items)
    {place : Nat} {byte : UInt8} (hmem : .data place byte ∈ items) :
    bytes[place - address]? = some byte := by
  induction hdivides with
  | nil => cases hmem
  | @instruction address high low rest items _ hrest ih =>
    have hmem := (List.mem_cons.mp hmem).resolve_left (by simp)
    have hle := hrest.le_address _ hmem
    have hwidth : Machine.instructionWidth = 2 := rfl
    have hoffset : place - address = place - (address + Machine.instructionWidth) + 1 + 1 := by
      simp only [Item.address] at hle
      omega
    rw [hoffset, List.getElem?_cons_succ, List.getElem?_cons_succ, ih hmem]
  | @data address other rest items _ hrest ih =>
    rcases List.mem_cons.mp hmem with heq | hmem
    · cases heq
      rw [Nat.sub_self, List.getElem?_cons_zero]
    · have hle := hrest.le_address _ hmem
      have hoffset : place - address = place - (address + 1) + 1 := by
        simp only [Item.address] at hle
        omega
      rw [hoffset, List.getElem?_cons_succ, ih hmem]

/-- An instruction item holds the word at its address. -/
theorem Divides.getElem?_instruction (hdivides : Divides instructions address bytes items)
    {start : Nat} {found : Instruction} (hmem : .instruction start found ∈ items) :
    ∃ high low, found = .ofWord (.ofBytes high low) ∧ bytes[start - address]? = some high ∧
      bytes[start + 1 - address]? = some low := by
  induction hdivides with
  | nil => cases hmem
  | @instruction address high low rest items _ hrest ih =>
    rcases List.mem_cons.mp hmem with heq | hmem
    · cases heq
      refine ⟨high, low, rfl, ?_, ?_⟩
      · rw [Nat.sub_self, List.getElem?_cons_zero]
      · rw [Nat.add_sub_cancel_left, List.getElem?_cons_succ, List.getElem?_cons_zero]
    · have hle := hrest.le_address _ hmem
      have hwidth : Machine.instructionWidth = 2 := rfl
      have hoffset : start - address = start - (address + Machine.instructionWidth) + 1 + 1 ∧
          start + 1 - address = start + 1 - (address + Machine.instructionWidth) + 1 + 1 := by
        simp only [Item.address] at hle
        omega
      simp only [hoffset.1, hoffset.2, List.getElem?_cons_succ]
      exact ih hmem
  | @data address other rest items _ hrest ih =>
    have hmem := (List.mem_cons.mp hmem).resolve_left (by simp)
    have hle := hrest.le_address _ hmem
    have hoffset : start - address = start - (address + 1) + 1 ∧
        start + 1 - address = start + 1 - (address + 1) + 1 := by
      simp only [Item.address] at hle
      omega
    simp only [hoffset.1, hoffset.2, List.getElem?_cons_succ]
    exact ih hmem

/-- A mark is set exactly where an instruction item starts. -/
theorem Divides.getElem?_marks_iff (hdivides : Divides instructions address bytes items)
    {place : Nat} (hle : address ≤ place) :
    (items.flatMap marks)[place - address]? = some true ↔
      ∃ found, .instruction place found ∈ items := by
  induction hdivides with
  | nil => simp
  | @instruction address high low rest items _ hrest ih =>
    have hwidth : Machine.instructionWidth = 2 := rfl
    rcases Nat.lt_or_ge place (address + Machine.instructionWidth) with hlt | hge
    · have hnone : ¬∃ found, .instruction place found ∈ items := by
        rintro ⟨found, hmem⟩
        exact absurd (hrest.le_address _ hmem) (Nat.not_le_of_lt hlt)
      rcases (by omega : place = address ∨ place = address + 1) with rfl | rfl
      · simp [marks]
      · simpa [marks] using hnone
    · have hoffset : place - address = place - (address + Machine.instructionWidth) + 1 + 1 := by
        omega
      have hother : place ≠ address := by omega
      rw [hoffset, List.flatMap_cons]
      simpa [marks, hother] using ih hge
  | @data address other rest items _ hrest ih =>
    rcases Nat.eq_or_lt_of_le hle with rfl | hlt
    · have hnone : ¬∃ found, .instruction address found ∈ items := by
        rintro ⟨found, hmem⟩
        exact absurd (hrest.le_address _ hmem) (Nat.not_succ_le_self _)
      simpa [marks] using hnone
    · have hoffset : place - address = place - (address + 1) + 1 := by omega
      rw [hoffset, List.flatMap_cons]
      simpa [marks] using ih hlt

end Item

namespace Disassembly

variable {image : Array UInt8} {limit : Nat} {disassembly : Disassembly}

/-- The bytes of a disassembly are those that were explored. -/
theorem bytes_eq_of_explore (hexplore : explore image limit = .ok disassembly) :
    disassembly.bytes = image := by
  obtain ⟨_, _, _, rfl⟩ := exists_reached_of_explore hexplore
  rfl

/-- The items of a disassembly divide its image up to the end. -/
theorem divides_items (hexplore : explore image limit = .ok disassembly) :
    Item.Divides disassembly.instructions Machine.loadAddress (Image.load image).inside
      disassembly.items := by
  rw [items, bytes_eq_of_explore hexplore]
  refine Item.divides_divide fun offset found hfound => ?_
  obtain ⟨_, word, hword, rfl⟩ := (getElem?_instructions_iff hexplore).mp hfound
  obtain ⟨hlt, high, low, hhigh, hlow, rfl⟩ := Image.fetch?_eq_some_iff.mp hword
  rw [Image.byte?_load] at hhigh
  rw [Nat.add_assoc, Image.byte?_load] at hlow
  refine ⟨high, low, ?_, ?_, rfl⟩
  · rwa [Image.getElem?_inside image (Nat.lt_of_succ_lt hlt)]
  · rwa [Image.getElem?_inside image (Nat.add_assoc .. ▸ hlt)]

/-- The items of a disassembly divide all of its image, if the place behind it has 32 bits. -/
theorem divides_items_of_lt (hbound : Machine.loadAddress + image.size < Machine.numberBound)
    (hexplore : explore image limit = .ok disassembly) :
    Item.Divides disassembly.instructions Machine.loadAddress image.toList
      disassembly.items := by
  rw [← Image.inside_load_eq hbound]
  exact divides_items hexplore

/-- A start is marked exactly where a listed instruction starts. -/
theorem getElem?_starts_iff (hexplore : explore image limit = .ok disassembly) {place : Nat}
    (hle : Machine.loadAddress ≤ place) :
    disassembly.starts[place - Machine.loadAddress]? = some true ↔
      ∃ found, .instruction place found ∈ disassembly.items := by
  have hmarks := (divides_items hexplore).getElem?_marks_iff hle
  generalize place - Machine.loadAddress = offset at hmarks ⊢
  rw [starts, List.getElem?_toArray, ← hmarks, List.rightpad, List.getElem?_append]
  split
  · rfl
  · next hge => simp [List.getElem?_replicate, List.getElem?_eq_none (Nat.le_of_not_lt hge)]

end Disassembly

end ChipEight
