import ChipEight.Proofs.Assembly.Emission
import ChipEight.Proofs.Assembly.Placements

/-!
# Images of packed instructions

No address from the load address to the end of packed instructions is unclaimed, so the
size of their image can be found by counting. In the image, data and words lie at their
addresses, and the other bytes are zero.
-/

namespace ChipEight

namespace Layout

/-- The number of data bytes below an address. -/
def dataBelow (layout : Layout) (address : Nat) : Nat :=
  layout.data.keys.countP (· < address)

/-- An address adds to the number of data bytes below if it holds one. -/
theorem dataBelow_succ (layout : Layout) (address : Nat) :
    layout.dataBelow (address + 1) =
      layout.dataBelow address + if layout.isData address then 1 else 0 := by
  rw [dataBelow, countP_lt_succ Std.TreeMap.nodup_keys, isData]
  simp [dataBelow, Std.TreeMap.mem_keys]

/-- The search for a free address counts one data byte for each address it passes. -/
theorem dataBelow_nextFree (layout : Layout) (address : Nat) :
    layout.dataBelow (layout.nextFree address) =
      layout.dataBelow address + (layout.nextFree address - address) := by
  induction address using Layout.nextFree.induct layout with
  | case1 address hdata _ ih =>
    have hle := layout.le_nextFree (address + 1)
    rw [nextFree_of_isData hdata, ih, dataBelow_succ, if_pos hdata]
    omega
  | case2 address hfree =>
    rw [nextFree_of_not_isData hfree]
    omega

/-- There are no more data bytes below a higher address than addresses between. -/
theorem dataBelow_add_le (layout : Layout) (address count : Nat) :
    layout.dataBelow (address + count) ≤ layout.dataBelow address + count := by
  induction count with
  | zero => exact Nat.le_refl _
  | succ count ih =>
    rw [← Nat.add_assoc, dataBelow_succ]
    split <;> omega

/-- Packed instructions and the data between them leave no gap. -/
theorem edge_eq {layout : Layout} {count : Nat}
    (hlow : ∀ address, layout.isData address = true → Machine.loadAddress ≤ address)
    (hclear : ∀ index < count, layout.collides (layout.site index) = false) :
    layout.edge count = Machine.loadAddress + count * Machine.instructionWidth +
      layout.dataBelow (layout.edge count) := by
  induction count with
  | zero =>
    have hnone : layout.dataBelow Machine.loadAddress = 0 := by
      refine List.countP_eq_zero.mpr fun address hmem => ?_
      have hle := hlow address (Std.TreeMap.contains_iff_mem.mpr (Std.TreeMap.mem_keys.mp hmem))
      simpa using hle
    rw [edge, hnone]
    omega
  | succ count ih =>
    have hedge := ih fun index hlt => hclear index (Nat.lt_succ_of_lt hlt)
    have hfirst : layout.dataBelow (layout.site count + 1) =
        layout.dataBelow (layout.site count) := by
      simp [dataBelow_succ, site, layout.isData_nextFree]
    have hsecond : layout.dataBelow (layout.site count + 1 + 1) =
        layout.dataBelow (layout.site count + 1) := by
      have hdata : layout.isData (layout.site count + 1) = false :=
        hclear count (Nat.lt_succ_self count)
      simp [dataBelow_succ, hdata]
    have hpassed : layout.dataBelow (layout.site count) =
        layout.dataBelow (layout.edge count) + (layout.site count - layout.edge count) :=
      layout.dataBelow_nextFree _
    have hle : layout.edge count ≤ layout.site count := layout.le_nextFree _
    have hnext : layout.edge (count + 1) = layout.site count + 1 + 1 := rfl
    have hwidth : Machine.instructionWidth = 2 := rfl
    rw [hnext, hsecond, hfirst, Nat.succ_mul]
    omega

/-- An instruction lies no further than the instructions before it and all data reach. -/
theorem site_le {layout : Layout} {count : Nat}
    (hlow : ∀ address, layout.isData address = true → Machine.loadAddress ≤ address)
    (hclear : ∀ index < count, layout.collides (layout.site index) = false) :
    layout.site count ≤
      Machine.loadAddress + count * Machine.instructionWidth + layout.data.size := by
  have hedge := edge_eq hlow hclear
  have hpassed : layout.dataBelow (layout.site count) =
      layout.dataBelow (layout.edge count) + (layout.site count - layout.edge count) :=
    layout.dataBelow_nextFree _
  have hbelow : layout.dataBelow (layout.site count) ≤ layout.data.size := by
    rw [← Std.TreeMap.length_keys]
    exact List.countP_le_length
  omega

/-- All data lies below the end of the data. -/
theorem dataBelow_eq_size {layout : Layout} {address : Nat} (hle : layout.dataEnd ≤ address) :
    layout.dataBelow address = layout.data.size := by
  rw [dataBelow, ← Std.TreeMap.length_keys, List.countP_eq_length]
  intro key hmem
  have hlt := lt_dataEnd_of_isData (Std.TreeMap.contains_iff_mem.mpr (Std.TreeMap.mem_keys.mp hmem))
  simp only [decide_eq_true_eq]
  omega

/-- Data does not end below the program's part of memory. -/
theorem loadAddress_le_dataEnd {layout : Layout}
    (hlow : ∀ address, layout.isData address = true → Machine.loadAddress ≤ address) :
    Machine.loadAddress ≤ layout.dataEnd := by
  rw [dataEnd]
  split
  · next last hlast =>
    exact Nat.le_succ_of_le (hlow last (Std.TreeMap.contains_iff_mem.mpr
      (Std.TreeMap.maxKey?_eq_some_iff_mem_and_forall.mp hlast).1))
  · exact Nat.le_refl _

/-- The data ends where each of its addresses lies before. -/
theorem dataEnd_le_iff {layout : Layout} {bound : Nat} (hle : Machine.loadAddress ≤ bound) :
    layout.dataEnd ≤ bound ↔ ∀ address, layout.isData address = true → address < bound := by
  constructor
  · intro hend address hdata
    exact Nat.lt_of_lt_of_le (lt_dataEnd_of_isData hdata) hend
  · intro hall
    rw [dataEnd]
    split
    · next last hlast =>
      exact hall last (Std.TreeMap.contains_iff_mem.mpr
        (Std.TreeMap.maxKey?_eq_some_iff_mem_and_forall.mp hlast).1)
    · exact hle

/-- Packed instructions end where each of them has ended. -/
theorem edge_le_iff {layout : Layout} {count bound : Nat} (hle : Machine.loadAddress ≤ bound) :
    layout.edge count ≤ bound ↔
      ∀ index < count, layout.site index + Machine.instructionWidth ≤ bound := by
  constructor
  · intro hedge index hlt
    exact Nat.le_trans (layout.edge_mono hlt) hedge
  · intro hall
    cases count with
    | zero => exact hle
    | succ count => exact hall count (Nat.lt_succ_self count)

end Layout

/-- The data ends where it ended before any instruction was placed. -/
theorem Placement.Packs.dataEnd_eq {placement : Placement} {data : Std.TreeMap Nat UInt8}
    {count : Nat} (hpacks : placement.Packs data count) :
    placement.layout.dataEnd = (Layout.ofData data).dataEnd := by
  rw [Layout.dataEnd, Layout.dataEnd, hpacks.data_eq]
  rfl

/-- The image ends where the packed instructions or the data end. -/
theorem Placement.Packs.size_eq {placement : Placement} {data : Std.TreeMap Nat UInt8}
    {count : Nat} (hpacks : placement.Packs data count)
    (hlow : ∀ address, (Layout.ofData data).isData address = true →
      Machine.loadAddress ≤ address) :
    placement.layout.size =
      max ((Layout.ofData data).edge count) (Layout.ofData data).dataEnd -
        Machine.loadAddress := by
  have hedge := Layout.edge_eq hlow hpacks.clear
  have hdata : placement.layout.data.size = (Layout.ofData data).data.size := by
    rw [hpacks.data_eq]
    rfl
  rw [Layout.size, hpacks.code_size, hpacks.dataEnd_eq, hdata]
  rcases Nat.le_total (Layout.ofData data).dataEnd ((Layout.ofData data).edge count) with hle | hle
  · rw [Layout.dataBelow_eq_size hle] at hedge
    omega
  · have hadd := (Layout.ofData data).dataBelow_add_le ((Layout.ofData data).edge count)
      ((Layout.ofData data).dataEnd - (Layout.ofData data).edge count)
    rw [Nat.add_sub_cancel' hle, Layout.dataBelow_eq_size (Nat.le_refl _)] at hadd
    omega

/-- An image has the fewest bytes that cover its data and instructions. -/
theorem Placement.Packs.size_le_iff {placement : Placement} {data : Std.TreeMap Nat UInt8}
    {count size : Nat} (hpacks : placement.Packs data count)
    (hlow : ∀ address, (Layout.ofData data).isData address = true →
      Machine.loadAddress ≤ address) :
    placement.layout.size ≤ size ↔
      (∀ address, (Layout.ofData data).isData address = true →
        address < Machine.loadAddress + size) ∧
      ∀ index < count, (Layout.ofData data).site index + Machine.instructionWidth ≤
        Machine.loadAddress + size := by
  rw [← Layout.dataEnd_le_iff (Nat.le_add_right _ _), ← Layout.edge_le_iff (Nat.le_add_right _ _),
    hpacks.size_eq hlow]
  omega

namespace Placement

section Image

variable {placement : Placement} {data : Std.TreeMap Nat UInt8} {count : Nat}
  {instructions : Array SourceInstruction}

/-- A packed instruction's word is found at its site. -/
theorem Packs.wordAt?_site (hpacks : placement.Packs data count) {index : Nat}
    (hlt : index < count) :
    placement.layout.wordAt? instructions ((Layout.ofData data).site index) =
      Layout.wordOf? instructions index := by
  rw [Layout.wordAt?, (hpacks.code_iff _ index).mpr ⟨hlt, rfl⟩, Option.bind_some]

/-- No word is found where no packed instruction lies. -/
theorem Packs.wordAt?_eq_none (hpacks : placement.Packs data count) {address : Nat}
    (hother : ∀ index < count, (Layout.ofData data).site index ≠ address) :
    placement.layout.wordAt? instructions address = none := by
  have hnone : placement.layout.code[address]? = none := by
    rw [Option.eq_none_iff_forall_ne_some]
    intro index hindex
    obtain ⟨hlt, heq⟩ := (hpacks.code_iff address index).mp hindex
    exact hother index hlt heq
  rw [Layout.wordAt?, hnone, Option.bind_none]

/-- Packed instructions have words if each of them has one. -/
theorem Packs.encodable_iff (hpacks : placement.Packs data count) :
    placement.layout.Encodable instructions ↔ ∀ index < count, ∀ instruction,
      instructions[index]? = some instruction → ∃ word, instruction.encode = .ok word := by
  constructor
  · intro hencodable index hlt instruction hinstruction
    exact hencodable _ index instruction ((hpacks.code_iff _ index).mpr ⟨hlt, rfl⟩) hinstruction
  · intro hall address index instruction hindex hinstruction
    exact hall index ((hpacks.code_iff address index).mp hindex).1 instruction hinstruction

/-- Byte by byte, the image of packed instructions is their words laid over the data. -/
theorem Packs.getElem?_of_image (hpacks : placement.Packs data count)
    (hlow : ∀ address, (Layout.ofData data).isData address = true →
      Machine.loadAddress ≤ address)
    {bytes : Array UInt8} (himage : placement.layout.image instructions = .ok bytes)
    (offset : Nat) :
    bytes[offset]? =
      if offset < placement.layout.size then
        some (Layout.overlay (placement.layout.wordAt? instructions)
          (Machine.loadAddress + offset) (data.getD (Machine.loadAddress + offset) 0))
      else none := by
  have hdata : ∀ address ∈ placement.layout.data, Machine.loadAddress ≤ address := by
    rw [hpacks.data_eq]
    exact fun address hmem => hlow address (Std.TreeMap.contains_iff_mem.mpr hmem)
  have hcode : ∀ address ∈ placement.layout.code, Machine.loadAddress ≤ address := by
    intro address hmem
    obtain ⟨index, hindex⟩ :=
      Option.isSome_iff_exists.mp (Std.TreeMap.mem_iff_isSome_getElem?.mp hmem)
    obtain ⟨_, rfl⟩ := (hpacks.code_iff address index).mp hindex
    exact (Layout.ofData data).loadAddress_le_site index
  rw [Layout.getElem?_of_image himage hdata hcode, hpacks.data_eq]

/-- Data keeps its place in the image of packed instructions. -/
theorem Packs.getElem?_data (hpacks : placement.Packs data count)
    (hlow : ∀ address, (Layout.ofData data).isData address = true →
      Machine.loadAddress ≤ address)
    {bytes : Array UInt8} (himage : placement.layout.image instructions = .ok bytes)
    {address : Nat} {byte : UInt8} (hbyte : data[address]? = some byte) :
    bytes[address - Machine.loadAddress]? = some byte := by
  have hdata : (Layout.ofData data).isData address = true := by
    rw [Layout.isData, Layout.ofData, Std.TreeMap.contains_eq_isSome_getElem?, hbyte,
      Option.isSome_some]
  have hle := hlow address hdata
  have hoffset : Machine.loadAddress + (address - Machine.loadAddress) = address := by omega
  have hlt : address - Machine.loadAddress < placement.layout.size := by
    have hend := Layout.lt_dataEnd_of_isData hdata
    rw [hpacks.size_eq hlow]
    omega
  have hfirst : placement.layout.wordAt? instructions address = none := by
    refine hpacks.wordAt?_eq_none fun index _ heq => ?_
    have hfree := (Layout.ofData data).isData_nextFree ((Layout.ofData data).edge index)
    rw [← Layout.site, heq, hdata] at hfree
    cases hfree
  have hsecond : placement.layout.wordAt? instructions (address - 1) = none := by
    refine hpacks.wordAt?_eq_none fun index hindex heq => ?_
    have hpos : 0 < Machine.loadAddress := by decide
    have hclear := hpacks.clear index hindex
    rw [Layout.collides, heq, Nat.sub_add_cancel (by omega), hdata] at hclear
    cases hclear
  rw [hpacks.getElem?_of_image hlow himage, if_pos hlt, hoffset,
    Layout.overlay_of_none hfirst hsecond, Std.TreeMap.getD_eq_getD_getElem?, hbyte,
    Option.getD_some]

/-- The word of a packed instruction lies at its site. -/
theorem Packs.getElem?_code (hpacks : placement.Packs data count)
    (hlow : ∀ address, (Layout.ofData data).isData address = true →
      Machine.loadAddress ≤ address)
    {bytes : Array UInt8} (himage : placement.layout.image instructions = .ok bytes)
    {index : Nat} {word : Word} (hindex : index < count)
    (hword : Layout.wordOf? instructions index = some word) :
    bytes[(Layout.ofData data).site index - Machine.loadAddress]? = some word.high ∧
      bytes[(Layout.ofData data).site index + 1 - Machine.loadAddress]? = some word.low := by
  have hle := (Layout.ofData data).loadAddress_le_site index
  have hend : (Layout.ofData data).site index + 2 ≤ (Layout.ofData data).edge count :=
    (Layout.ofData data).edge_mono hindex
  have hsize := hpacks.size_eq hlow
  have hsite : placement.layout.wordAt? instructions ((Layout.ofData data).site index) =
      Layout.wordOf? instructions index := hpacks.wordAt?_site hindex
  have hbetween : placement.layout.wordAt? instructions ((Layout.ofData data).site index + 1) =
      none := by
    refine hpacks.wordAt?_eq_none fun other _ heq => ?_
    have hwidth : Machine.instructionWidth = 2 := rfl
    rcases Nat.lt_trichotomy other index with hlt | rfl | hlt
    · have hnext := (Layout.ofData data).site_add_width_le_of_lt hlt
      omega
    · omega
    · have hnext := (Layout.ofData data).site_add_width_le_of_lt hlt
      omega
  constructor
  · rw [hpacks.getElem?_of_image hlow himage, if_pos (by omega), Nat.add_sub_cancel' hle,
      Layout.overlay_of_word (hsite.trans hword)]
  · rw [hpacks.getElem?_of_image hlow himage, if_pos (by omega),
      Nat.add_sub_cancel' (Nat.le_succ_of_le hle),
      Layout.overlay_of_word_below hbetween (hsite.trans hword)]

/-- The image of packed instructions has the size of their layout. -/
theorem Packs.size_image (hpacks : placement.Packs data count)
    (hlow : ∀ address, (Layout.ofData data).isData address = true →
      Machine.loadAddress ≤ address)
    {bytes : Array UInt8} (himage : placement.layout.image instructions = .ok bytes) :
    bytes.size = placement.layout.size :=
  size_eq_of_getElem? (hpacks.getElem?_of_image hlow himage)

/-- What neither data nor a packed instruction claims is zero. -/
theorem Packs.getElem?_zero (hpacks : placement.Packs data count)
    (hlow : ∀ address, (Layout.ofData data).isData address = true →
      Machine.loadAddress ≤ address)
    {bytes : Array UInt8} (himage : placement.layout.image instructions = .ok bytes)
    {offset : Nat} (hoffset : offset < bytes.size)
    (hdata : ¬(Layout.ofData data).isData (Machine.loadAddress + offset) = true)
    (hcode : ∀ index < count, Machine.loadAddress + offset ≠ (Layout.ofData data).site index ∧
      Machine.loadAddress + offset ≠ (Layout.ofData data).site index + 1) :
    bytes[offset]? = some 0 := by
  have hfirst : placement.layout.wordAt? instructions (Machine.loadAddress + offset) = none :=
    hpacks.wordAt?_eq_none fun index hindex heq => (hcode index hindex).1 heq.symm
  have hsecond : placement.layout.wordAt? instructions (Machine.loadAddress + offset - 1) =
      none := by
    refine hpacks.wordAt?_eq_none fun index hindex heq => (hcode index hindex).2 ?_
    have hpos : 0 < Machine.loadAddress := by decide
    omega
  have hnone : data[Machine.loadAddress + offset]? = none := by
    rw [Layout.isData, Layout.ofData, Std.TreeMap.contains_eq_isSome_getElem?] at hdata
    exact Option.not_isSome_iff_eq_none.mp hdata
  rw [hpacks.size_image hlow himage] at hoffset
  rw [hpacks.getElem?_of_image hlow himage, if_pos hoffset,
    Layout.overlay_of_none hfirst hsecond, Std.TreeMap.getD_eq_getD_getElem?, hnone,
    Option.getD_none]

end Image

end Placement

end ChipEight
