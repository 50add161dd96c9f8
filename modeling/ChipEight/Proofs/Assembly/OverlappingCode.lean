import Mathlib.Data.List.Permutation
import ChipEight.Proofs.Assembly.Bounded

/-!
# Images of arbitrary placements

Nothing keeps a caller of a layout from placing instructions across one another, on data, or under
numbers that belong to no instruction. The image is still determined byte by byte: at every
address the high byte of a word placed there comes first, then the low byte of a word placed one
address below, then data. An image that fits is refused exactly if one of the placed instructions
has no word, and then for the reason of the lowest of them.
-/

namespace ChipEight

namespace Layout

/-- The layout of some data in which instructions have been placed one after another, each by its
address and its number. -/
def ofPlacements (data : Std.TreeMap Nat UInt8) (placements : List (Nat × Nat)) : Layout :=
  placements.foldl (fun layout placement => layout.place placement.1 placement.2) (.ofData data)

/-- The number that has been placed last at an address. -/
def lastAt? (placements : List (Nat × Nat)) (address : Nat) : Option Nat :=
  placements.reverse.lookup address

section Placing

variable (data : Std.TreeMap Nat UInt8) (placements : List (Nat × Nat))

/-- The last placement is made in the layout of those before it. -/
theorem ofPlacements_concat (placement : Nat × Nat) :
    ofPlacements data (placements ++ [placement]) =
      (ofPlacements data placements).place placement.1 placement.2 := by
  rw [ofPlacements, List.foldl_append]
  rfl

/-- Placing instructions leaves the data as it is. -/
theorem data_ofPlacements : (ofPlacements data placements).data = data := by
  induction placements using List.reverseRecOn with
  | nil => rfl
  | append_singleton placements placement ih => rwa [ofPlacements_concat]

/-- A layout holds the numbers that have been placed last. -/
theorem getElem?_code_ofPlacements (address : Nat) :
    (ofPlacements data placements).code[address]? = lastAt? placements address := by
  induction placements using List.reverseRecOn with
  | nil => exact Std.TreeMap.getElem?_emptyc
  | append_singleton placements placement ih =>
    obtain ⟨target, index⟩ := placement
    rw [ofPlacements_concat, place, Std.TreeMap.getElem?_insert, ih]
    simp only [lastAt?, List.reverse_concat, List.lookup_cons]
    by_cases htarget : target = address
    · simp [htarget]
    · simp [htarget, beq_false_of_ne (Ne.symm htarget)]

/-- Instructions lie where they have been placed. -/
theorem mem_code_ofPlacements {address : Nat} :
    address ∈ (ofPlacements data placements).code ↔
      ∃ placement ∈ placements, placement.1 = address := by
  induction placements using List.reverseRecOn with
  | nil => simp [ofPlacements, ofData]
  | append_singleton placements placement ih =>
    rw [ofPlacements_concat, place, Std.TreeMap.mem_insert, ih]
    simp [or_comm]

end Placing

/-- The image of any placements that lie inside it is an overlay. It is refused exactly if one of
the placed instructions has no word, and then for the reason of the lowest of these. Otherwise it
has at every address the high byte of the word that has been placed there last, else the low byte of
the one that has been placed one address below, else the data, and else zero. No number on the way
is too large, and nothing is stored outside the image. -/
theorem image_ofPlacements {data : Std.TreeMap Nat UInt8} {placements : List (Nat × Nat)}
    {instructions : Array SourceInstruction}
    (hdata : ∀ address ∈ data, Machine.loadAddress ≤ address)
    (hsize : (ofPlacements data placements).size ≤ Machine.programLimit)
    (hinside : ∀ placement ∈ placements, Machine.loadAddress ≤ placement.1 ∧
      placement.1 + 1 < Machine.loadAddress + (ofPlacements data placements).size) :
    ((∃ error, (ofPlacements data placements).image instructions = .error error) ↔
      ∃ address error, RefusedAt (lastAt? placements) instructions address error) ∧
    (∀ error, (ofPlacements data placements).image instructions = .error error ↔
      ∃ address, RefusedAt (lastAt? placements) instructions address error ∧
        ∀ lower < address, ∀ other, ¬RefusedAt (lastAt? placements) instructions lower other) ∧
    (∀ bytes, (ofPlacements data placements).image instructions = .ok bytes ↔
      (∀ address error, ¬RefusedAt (lastAt? placements) instructions address error) ∧
      bytes.size = (ofPlacements data placements).size ∧
      ∀ offset < (ofPlacements data placements).size, bytes[offset]? =
        some (overlay (fun address => (lastAt? placements address).bind (wordOf? instructions))
          (Machine.loadAddress + offset) (data.getD (Machine.loadAddress + offset) 0))) ∧
    Bounded.image (ofPlacements data placements) instructions =
      Bounded.untrapped ((ofPlacements data placements).image instructions) := by
  have hlow : ∀ address ∈ (ofPlacements data placements).data, Machine.loadAddress ≤ address := by
    rwa [data_ofPlacements]
  have hcode : ∀ address ∈ (ofPlacements data placements).code, Machine.loadAddress ≤ address ∧
      address + 1 < Machine.loadAddress + (ofPlacements data placements).size := by
    intro address hmem
    obtain ⟨placement, hplacement, rfl⟩ := (mem_code_ofPlacements data placements).mp hmem
    exact hinside placement hplacement
  have hplaced : ((ofPlacements data placements).code[·]?) = lastAt? placements :=
    funext (getElem?_code_ofPlacements data placements)
  have hwords : (ofPlacements data placements).wordAt? instructions =
      fun address => (lastAt? placements address).bind (wordOf? instructions) := by
    funext address
    rw [wordAt?, getElem?_code_ofPlacements]
  have herror : ∀ error, _ := fun error => @image_eq_error_iff _ instructions hsize error
  have hok : ∀ bytes, _ := fun bytes =>
    @image_eq_ok_iff_overlay _ instructions hsize hlow (fun address hmem => (hcode address hmem).1)
      bytes
  simp only [hplaced, hwords, data_ofPlacements] at herror hok
  refine ⟨⟨?_, ?_⟩, herror, hok, ?_⟩
  · rintro ⟨error, himage⟩
    obtain ⟨address, hrefused, _⟩ := (herror error).mp himage
    exact ⟨address, error, hrefused⟩
  · rintro ⟨address, error, hrefused⟩
    cases himage : (ofPlacements data placements).image instructions with
    | error other => exact ⟨other, rfl⟩
    | ok bytes => exact absurd hrefused (((hok bytes).mp himage).1 address error)
  · have hlimit : Machine.programLimit + Machine.loadAddress < Machine.numberBound := by decide
    refine Bounded.image_eq (by omega) (fun address hmem => ?_) hcode
    exact hlow address (Std.TreeMap.contains_iff_mem.mp hmem)

/-- Two bytes of data with a gap between. -/
def gappedData : Std.TreeMap Nat UInt8 :=
  (Std.TreeMap.empty.insert 0x200 0xAA).insert 0x203 0xBB

/-- Placements across one another and on data. The first is replaced by the third, and the last is
under a number without an instruction. -/
def crossing : List (Nat × Nat) :=
  [(0x202, 0), (0x201, 0), (0x202, 1), (0x200, 2)]

/-- A word that lies across a lower one is whole, data under it is gone, and data under a number
without an instruction stays. Of two instructions without words the lower one is reported. -/
theorem image_crossing :
    ((∀ address ∈ gappedData, Machine.loadAddress ≤ address) ∧
      (ofPlacements gappedData crossing).size ≤ Machine.programLimit ∧
      ∀ placement ∈ crossing, Machine.loadAddress ≤ placement.1 ∧
        placement.1 + 1 < Machine.loadAddress + (ofPlacements gappedData crossing).size) ∧
    Bounded.image (ofPlacements gappedData crossing)
        #[⟨.cls, .noOperand, [], .first⟩, ⟨.jmp, .address, [⟨.integer 0x345, .first⟩], .first⟩] =
      .ok #[0xAA, 0x00, 0x13, 0x45, 0, 0, 0, 0] ∧
    Bounded.image (ofPlacements gappedData crossing)
        #[⟨.cls, .noOperand, [⟨.register 1, .first⟩], .first⟩, ⟨.jmp, .address, [], .first⟩] =
      .error (.refused (.operandCount .cls 0 1 .first)) := by
  have hdata : ∀ address ∈ gappedData, Machine.loadAddress ≤ address := by
    intro address hmem
    simp only [gappedData, Std.TreeMap.mem_insert, Nat.compare_eq_eq] at hmem
    obtain rfl | rfl | hmem := hmem
    · decide
    · decide
    · exact absurd hmem Std.TreeMap.not_mem_emptyc
  have hsize : (ofPlacements gappedData crossing).size = 8 := by cbv
  have hlimit : (ofPlacements gappedData crossing).size ≤ Machine.programLimit := by
    rw [hsize]
    decide
  have hinside : ∀ placement ∈ crossing, Machine.loadAddress ≤ placement.1 ∧
      placement.1 + 1 < Machine.loadAddress + (ofPlacements gappedData crossing).size := by
    rw [hsize]
    decide
  refine ⟨⟨hdata, hlimit, hinside⟩, ?_, ?_⟩
  · rw [(image_ofPlacements hdata hlimit hinside).2.2.2]
    cbv
  · rw [(image_ofPlacements hdata hlimit hinside).2.2.2]
    cbv

end Layout

end ChipEight
