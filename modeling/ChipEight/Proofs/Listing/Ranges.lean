import Mathlib.Data.List.Basic
import ChipEight.Disassembly

/-!
# Ranges of addresses

Putting increasing addresses one by one in front of ranges, from the last to the first, gives the
longest runs of these addresses: no range is empty, between two ranges there is a gap, and the
ranges hold just the addresses.
-/

namespace ChipEight.AddressRange

/-- The addresses of a range. -/
instance : Membership Nat AddressRange where
  mem range address := range.start ≤ address ∧ address < range.stop

/-- An address lies in a range from its start up to its stop. -/
theorem mem_iff {range : AddressRange} {address : Nat} :
    address ∈ range ↔ range.start ≤ address ∧ address < range.stop :=
  Iff.rfl

/-- The ranges are the longest runs of some addresses. -/
structure Runs (addresses : List Nat) (ranges : List AddressRange) : Prop where
  start_lt_stop : ∀ range ∈ ranges, range.start < range.stop
  gaps : ranges.Pairwise fun first second => first.stop < second.start
  mem_iff : ∀ address, (∃ range ∈ ranges, address ∈ range) ↔ address ∈ addresses

/-- An address in front of ranges, none of them empty, is added to their addresses. -/
theorem exists_mem_prepend_iff {ranges : List AddressRange}
    (hranges : ∀ range ∈ ranges, range.start < range.stop) {address place : Nat} :
    (∃ range ∈ prepend address ranges, place ∈ range) ↔
      place = address ∨ ∃ range ∈ ranges, place ∈ range := by
  cases ranges with
  | nil =>
    rw [prepend]
    simp only [List.mem_singleton, exists_eq_left, mem_iff, List.not_mem_nil, false_and,
      exists_false, or_false]
    omega
  | cons range ranges =>
    have hrange := hranges range List.mem_cons_self
    by_cases htouch : range.start = address + 1
    · rw [prepend, if_pos htouch, List.exists_mem_cons_iff, List.exists_mem_cons_iff, ← or_assoc]
      refine or_congr_left ?_
      simp only [mem_iff]
      omega
    · rw [prepend, if_neg htouch, List.exists_mem_cons_iff]
      refine or_congr_left ?_
      simp only [mem_iff]
      omega

/-- An address in front of the others joins the first run or is a run of its own. -/
theorem Runs.prepend {addresses : List Nat} {ranges : List AddressRange}
    (hruns : Runs addresses ranges) {address : Nat} (hlt : ∀ other ∈ addresses, address < other) :
    Runs (address :: addresses) (prepend address ranges) := by
  have hmem : ∀ place, (∃ range ∈ AddressRange.prepend address ranges, place ∈ range) ↔
      place ∈ address :: addresses := fun place => by
    rw [exists_mem_prepend_iff hruns.start_lt_stop, hruns.mem_iff, List.mem_cons]
  cases ranges with
  | nil => exact ⟨by simp [AddressRange.prepend], List.pairwise_singleton _ _, hmem⟩
  | cons range ranges =>
    obtain ⟨hrange, hranges⟩ := List.forall_mem_cons.mp hruns.start_lt_stop
    obtain ⟨hafter, hgaps⟩ := List.pairwise_cons.mp hruns.gaps
    -- The first range starts with one of the addresses, hence after the new one.
    have hstart : address < range.start :=
      hlt _ ((hruns.mem_iff _).mp ⟨range, List.mem_cons_self, Nat.le_refl _, hrange⟩)
    by_cases htouch : range.start = address + 1
    · rw [AddressRange.prepend, if_pos htouch] at hmem ⊢
      exact ⟨List.forall_mem_cons.mpr ⟨Nat.lt_trans hstart hrange, hranges⟩,
        List.pairwise_cons.mpr ⟨hafter, hgaps⟩, hmem⟩
    · rw [AddressRange.prepend, if_neg htouch] at hmem ⊢
      have hapart : address + 1 < range.start :=
        Nat.lt_of_le_of_ne hstart (Ne.symm htouch)
      refine ⟨List.forall_mem_cons.mpr ⟨Nat.lt_succ_self _, hruns.start_lt_stop⟩,
        List.pairwise_cons.mpr ⟨List.forall_mem_cons.mpr ⟨hapart, fun other hother => ?_⟩,
          hruns.gaps⟩, hmem⟩
      exact Nat.lt_trans (Nat.lt_trans hapart hrange) (hafter other hother)

end ChipEight.AddressRange
