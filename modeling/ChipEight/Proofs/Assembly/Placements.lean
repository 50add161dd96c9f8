import Mathlib.Order.Bounds.Basic
import ChipEight.Program

/-!
# Where instructions are placed

Instructions are packed: each lies at the least address that data leaves free at or after
the end of the one before it.
-/

namespace ChipEight

namespace Layout

/-- The search for a free address passes over data. -/
theorem nextFree_of_isData {layout : Layout} {address : Nat}
    (hdata : layout.isData address = true) :
    layout.nextFree address = layout.nextFree (address + 1) := by
  rw [nextFree, dif_pos hdata]

/-- The search for a free address ends where there is no data. -/
theorem nextFree_of_not_isData {layout : Layout} {address : Nat}
    (hfree : ¬layout.isData address = true) : layout.nextFree address = address := by
  rw [nextFree, dif_neg hfree]

/-- The search for a free address does not go back. -/
theorem le_nextFree (layout : Layout) (address : Nat) : address ≤ layout.nextFree address := by
  induction address using Layout.nextFree.induct layout with
  | case1 address hdata _ ih =>
    rw [nextFree_of_isData hdata]
    exact Nat.le_of_succ_le ih
  | case2 address hfree => rw [nextFree_of_not_isData hfree]

/-- The search for a free address passes over nothing but data. -/
theorem isData_of_lt_nextFree {layout : Layout} {address other : Nat} (hle : address ≤ other)
    (hlt : other < layout.nextFree address) : layout.isData other = true := by
  induction address using Layout.nextFree.induct layout with
  | case1 address hdata _ ih =>
    rw [nextFree_of_isData hdata] at hlt
    rcases Nat.eq_or_lt_of_le hle with rfl | hle
    · exact hdata
    · exact ih hle hlt
  | case2 address hfree =>
    rw [nextFree_of_not_isData hfree] at hlt
    omega

/-- The search for a free address ends at one. -/
theorem isData_nextFree (layout : Layout) (address : Nat) :
    layout.isData (layout.nextFree address) = false := by
  induction address using Layout.nextFree.induct layout with
  | case1 address hdata _ ih => rwa [nextFree_of_isData hdata]
  | case2 address hfree =>
    rw [nextFree_of_not_isData hfree]
    exact Bool.not_eq_true _ ▸ hfree

/-- The search finds the least free address. -/
theorem isLeast_nextFree (layout : Layout) (address : Nat) :
    IsLeast {free | address ≤ free ∧ layout.isData free = false} (layout.nextFree address) := by
  refine ⟨⟨layout.le_nextFree address, layout.isData_nextFree address⟩, ?_⟩
  rintro other ⟨hle, hfree⟩
  by_contra hlt
  have hdata := isData_of_lt_nextFree hle (Nat.lt_of_not_le hlt)
  rw [hfree] at hdata
  cases hdata

/-- The search for a free address looks at the data alone. -/
theorem nextFree_congr {layout other : Layout} (hdata : layout.data = other.data)
    (address : Nat) : layout.nextFree address = other.nextFree address := by
  have hleast := layout.isLeast_nextFree address
  simp only [isData, hdata] at hleast
  exact hleast.unique (other.isLeast_nextFree address)

/-- The address after a number of packed instructions. -/
def edge (layout : Layout) : Nat → Nat
  | 0 => Machine.loadAddress
  | count + 1 => layout.nextFree (layout.edge count) + Machine.instructionWidth

/-- The address of an instruction among packed ones. -/
def site (layout : Layout) (index : Nat) : Nat :=
  layout.nextFree (layout.edge index)

/-- Each packed instruction ends before the next one. -/
theorem site_add_width_le (layout : Layout) (index : Nat) :
    layout.site index + Machine.instructionWidth ≤ layout.site (index + 1) :=
  layout.le_nextFree _

/-- Packed instructions lie in source order, each behind the end of the ones before it. -/
theorem site_add_width_le_of_lt (layout : Layout) {first second : Nat} (hlt : first < second) :
    layout.site first + Machine.instructionWidth ≤ layout.site second := by
  induction second, hlt using Nat.le_induction with
  | base => exact layout.site_add_width_le first
  | succ second _ ih =>
    have hnext := layout.site_add_width_le second
    omega

/-- Packed instructions lie in the program's part of memory. -/
theorem loadAddress_le_site (layout : Layout) (index : Nat) :
    Machine.loadAddress ≤ layout.site index := by
  induction index with
  | zero => exact layout.le_nextFree _
  | succ index ih =>
    have hnext := layout.site_add_width_le index
    omega

/-- More packed instructions end later. -/
theorem edge_mono (layout : Layout) : Monotone layout.edge :=
  monotone_nat_of_le_succ fun _ =>
    Nat.le_trans (layout.le_nextFree _) (Nat.le_add_right _ _)

/-- Different instructions have different addresses. -/
theorem site_injective (layout : Layout) : Function.Injective layout.site := by
  intro first second heq
  have hwidth : 0 < Machine.instructionWidth := by decide
  rcases Nat.lt_trichotomy first second with hlt | heq | hlt
  · have hle := layout.site_add_width_le_of_lt hlt
    omega
  · exact heq
  · have hle := layout.site_add_width_le_of_lt hlt
    omega

end Layout

/-- A placement has packed a number of instructions around data. -/
structure Placement.Packs (placement : Placement) (data : Std.TreeMap Nat UInt8)
    (count : Nat) : Prop where
  data_eq : placement.layout.data = data
  addresses_eq : placement.addresses.toList = (List.range count).map (Layout.ofData data).site
  next_eq : placement.next = (Layout.ofData data).edge count
  code_iff : ∀ address index, placement.layout.code[address]? = some index ↔
    index < count ∧ (Layout.ofData data).site index = address
  code_size : placement.layout.code.size = count
  clear : ∀ index < count, (Layout.ofData data).collides ((Layout.ofData data).site index) = false

namespace Placement

/-- Before the first instruction nothing is packed. -/
theorem packs_start (data : Std.TreeMap Nat UInt8) : (start data).Packs data 0 where
  data_eq := rfl
  addresses_eq := rfl
  next_eq := rfl
  code_iff address index := by simp [start, Layout.ofData]
  code_size := rfl
  clear index hlt := absurd hlt (Nat.not_lt_zero index)

/-- The next instruction is placed at the next site. -/
theorem Packs.nextFree_eq {placement : Placement} {data : Std.TreeMap Nat UInt8} {count : Nat}
    (hpacks : placement.Packs data count) :
    placement.layout.nextFree placement.next = (Layout.ofData data).site count := by
  have hdata : placement.layout.data = (Layout.ofData data).data := hpacks.data_eq
  rw [hpacks.next_eq, Layout.nextFree_congr hdata, Layout.site]

/-- The next instruction can be placed unless its second byte would lie on data. -/
theorem Packs.add_eq {placement : Placement} {data : Std.TreeMap Nat UInt8} {count : Nat}
    (hpacks : placement.Packs data count) (instruction : SourceInstruction) :
    placement.add instruction =
      if (Layout.ofData data).collides ((Layout.ofData data).site count) then
        .error (.collision instruction.mnemonic ((Layout.ofData data).site count)
          instruction.position)
      else
        .ok ⟨placement.layout.place ((Layout.ofData data).site count) count,
          placement.addresses.push ((Layout.ofData data).site count),
          (Layout.ofData data).site count + Machine.instructionWidth⟩ := by
  have hcollides : ∀ address,
      placement.layout.collides address = (Layout.ofData data).collides address := by
    intro address
    rw [Layout.collides, Layout.isData, hpacks.data_eq]
    rfl
  have hsize : placement.addresses.size = count := by
    simpa using congrArg List.length hpacks.addresses_eq
  rw [add, hpacks.nextFree_eq, hcollides, hsize]

/-- An instruction that is placed is packed behind the others. -/
theorem Packs.add {placement next : Placement} {data : Std.TreeMap Nat UInt8} {count : Nat}
    {instruction : SourceInstruction} (hpacks : placement.Packs data count)
    (hadd : placement.add instruction = .ok next) : next.Packs data (count + 1) := by
  rw [hpacks.add_eq] at hadd
  split at hadd
  · cases hadd
  · next hclear =>
    cases hadd
    refine ⟨hpacks.data_eq, ?_, rfl, fun address index => ?_, ?_, fun index hlt => ?_⟩
    · rw [Array.toList_push, hpacks.addresses_eq, List.range_succ, List.map_append,
        List.map_singleton]
    · simp only [Layout.place, Std.TreeMap.getElem?_insert,
        Std.LawfulEqCmp.compare_eq_iff_eq]
      by_cases hsite : (Layout.ofData data).site count = address
      · subst hsite
        simp only [if_true, Option.some.injEq, (Layout.ofData data).site_injective.eq_iff]
        omega
      · rw [if_neg hsite, hpacks.code_iff]
        constructor
        · rintro ⟨hlt, hindex⟩
          exact ⟨Nat.lt_succ_of_lt hlt, hindex⟩
        · rintro ⟨hlt, hindex⟩
          refine ⟨Nat.lt_of_le_of_ne (Nat.le_of_lt_succ hlt) ?_, hindex⟩
          rintro rfl
          exact hsite hindex
    · have hfresh : ¬placement.layout.code.contains ((Layout.ofData data).site count) = true := by
        rw [Std.TreeMap.contains_eq_isSome_getElem?, Option.isSome_iff_exists]
        rintro ⟨index, hindex⟩
        obtain ⟨hlt, heq⟩ := (hpacks.code_iff _ _).mp hindex
        exact Nat.ne_of_lt hlt ((Layout.ofData data).site_injective heq)
      rw [Layout.place, Std.TreeMap.size_insert, if_neg hfresh, hpacks.code_size]
    · rcases Nat.lt_succ_iff_lt_or_eq.mp hlt with hlt | rfl
      · exact hpacks.clear index hlt
      · exact Bool.not_eq_true _ ▸ hclear

/-- Instructions that are placed one after another are packed. -/
theorem Packs.addAll {placement final : Placement} {data : Std.TreeMap Nat UInt8} {count : Nat}
    {instructions : List SourceInstruction} (hpacks : placement.Packs data count)
    (hplace : instructions.foldlM Placement.add placement = .ok final) :
    final.Packs data (count + instructions.length) := by
  induction instructions generalizing placement count with
  | nil =>
    cases hplace
    exact hpacks
  | cons instruction instructions ih =>
    rw [List.foldlM_cons] at hplace
    cases hadd : placement.add instruction with
    | error error => simp [hadd, bind, Except.bind] at hplace
    | ok next =>
      rw [hadd] at hplace
      have hfinal := ih (hpacks.add hadd) hplace
      rwa [List.length_cons, Nat.add_comm _ 1, ← Nat.add_assoc]

/-- Instructions can be placed one after another unless one would collide with data. -/
theorem Packs.exists_addAll {placement : Placement} {data : Std.TreeMap Nat UInt8}
    {count : Nat} {instructions : List SourceInstruction} (hpacks : placement.Packs data count)
    (hclear : ∀ index < count + instructions.length,
      (Layout.ofData data).collides ((Layout.ofData data).site index) = false) :
    ∃ final, instructions.foldlM Placement.add placement = .ok final := by
  induction instructions generalizing placement count with
  | nil => exact ⟨placement, rfl⟩
  | cons instruction instructions ih =>
    rw [List.length_cons] at hclear
    have hnext := hpacks.add_eq instruction
    rw [if_neg (by simp [hclear count (by omega)])] at hnext
    obtain ⟨final, hfinal⟩ := ih (hpacks.add hnext) fun index hlt => hclear index (by omega)
    exact ⟨final, by rw [List.foldlM_cons, hnext]; exact hfinal⟩

/-- The site of an instruction, and the place after the last one, are found. -/
theorem Packs.site_eq {placement : Placement} {data : Std.TreeMap Nat UInt8} {count index : Nat}
    (hpacks : placement.Packs data count) (hle : index ≤ count) :
    placement.site index = (Layout.ofData data).site index := by
  have haddresses : placement.addresses =
      ((List.range count).map (Layout.ofData data).site).toArray := by
    rw [← hpacks.addresses_eq]
  rw [Placement.site, hpacks.nextFree_eq, haddresses]
  rcases Nat.eq_or_lt_of_le hle with rfl | hlt
  · simp [Array.getD_eq_getD_getElem?]
  · simp [Array.getD_eq_getD_getElem?, hlt]

end Placement

/-- A draft is placed by packing its instructions around its data. -/
theorem Draft.packs_of_place {draft : Draft} {placement : Placement}
    (hplace : draft.place = .ok placement) :
    placement.Packs draft.data draft.instructions.size := by
  rw [Draft.place, ← Array.foldlM_toList] at hplace
  simpa using (Placement.packs_start draft.data).addAll hplace

/-- A draft can be placed unless an instruction would collide with data. -/
theorem Draft.exists_place_iff {draft : Draft} :
    (∃ placement, draft.place = .ok placement) ↔ ∀ index < draft.instructions.size,
      (Layout.ofData draft.data).collides ((Layout.ofData draft.data).site index) = false := by
  constructor
  · rintro ⟨placement, hplace⟩
    exact (packs_of_place hplace).clear
  · intro hclear
    rw [Draft.place, ← Array.foldlM_toList]
    exact (Placement.packs_start draft.data).exists_addAll (by simpa using hclear)

end ChipEight
