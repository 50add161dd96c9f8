import Mathlib.Data.List.Pairwise
import ChipEight.Report
import ChipEight.Proofs.Codec.Packing
import ChipEight.Proofs.Exploration.Agreement
import ChipEight.Proofs.Listing.Items
import ChipEight.Proofs.Listing.Ranges
import ChipEight.Proofs.Listing.Words

/-!
# The partition of an image

The items of a disassembly tile its image, and the starts, the ranges of data and the report are
views of this one tiling: a start is marked where an instruction is listed, and the listed
instructions together with the ranges of data cover each address of the image once. Of the explored
addresses, those are left out that lie inside the instruction listed just before them. The image is
tiled up to its end, which lies behind its last byte unless that place has more than 32 bits.
-/

namespace ChipEight

namespace Item

/-- The bytes that an item lists: those of its word, the high one first, or its byte. -/
def bytes : Item → List UInt8
  | instruction _ found => [found.raw.high, found.raw.low]
  | data _ byte => [byte]

variable {instructions : Std.TreeMap Nat Instruction} {address : Nat} {bytes : List UInt8}
  {items : List Item}

/-- Nothing was found at a data item. -/
theorem Divides.none_of_data (hdivides : Divides instructions address bytes items)
    {place : Nat} {byte : UInt8} (hmem : .data place byte ∈ items) :
    instructions[place]? = none := by
  induction hdivides with
  | nil => cases hmem
  | instruction _ _ ih => exact ih ((List.mem_cons.mp hmem).resolve_left (by simp))
  | data hnone _ ih =>
    rcases List.mem_cons.mp hmem with heq | hmem
    · cases heq
      exact hnone
    · exact ih hmem

end Item

namespace Report

end Report

namespace Disassembly

variable {image : Array UInt8} {limit : Nat} {disassembly : Disassembly}

/-- A disassembly ends where its image ends. -/
theorem stop_eq_of_explore (hexplore : explore image limit = .ok disassembly) :
    disassembly.stop = (Image.load image).stop := by
  rw [stop, bytes_eq_of_explore hexplore]

/-- There are as many bytes before the end of a disassembly as there are addresses. -/
theorem length_inside_of_explore (hexplore : explore image limit = .ok disassembly) :
    (Image.load image).inside.length = disassembly.stop - Machine.loadAddress := by
  rw [Image.length_inside, stop_eq_of_explore hexplore]

/-- The byte of a data item belongs to the image. -/
theorem bounds_of_data (hexplore : explore image limit = .ok disassembly) {place : Nat}
    {byte : UInt8} (hmem : .data place byte ∈ disassembly.items) :
    Machine.loadAddress ≤ place ∧ place < disassembly.stop := by
  have hle : Machine.loadAddress ≤ place := (divides_items hexplore).le_address _ hmem
  have hlt := (List.getElem?_eq_some_iff.mp ((divides_items hexplore).getElem?_data hmem)).1
  rw [length_inside_of_explore hexplore] at hlt
  exact ⟨hle, by omega⟩

end Disassembly

end ChipEight
