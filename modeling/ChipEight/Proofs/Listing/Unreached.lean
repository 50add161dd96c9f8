import Mathlib.Data.List.Forall2
import ChipEight.Listing
import ChipEight.Proofs.Exploration.Agreement

/-!
# Bytes that are not reached

What a listing shows of a byte that no explored instruction covers is the byte itself, in a line
of its own. An exploration that succeeds finds the same on every image of the same size that has
the same bytes at the explored instructions, and the listings of the two images differ only in
the bytes of data lines.
-/

namespace ChipEight

namespace Item

/-- Two items are the same, or they are bytes at one address. -/
inductive SameExceptByte : Item → Item → Prop
  | instruction (address : Nat) (found : Instruction) :
      SameExceptByte (.instruction address found) (.instruction address found)
  | data (address : Nat) (byte other : UInt8) :
      SameExceptByte (.data address byte) (.data address other)

/-- Where the items of an image lie does not depend on its bytes. -/
theorem forall₂_divide (instructions : Std.TreeMap Nat Instruction) (address : Nat)
    {bytes others : List UInt8} (hlength : others.length = bytes.length) :
    List.Forall₂ SameExceptByte (divide instructions address bytes)
      (divide instructions address others) := by
  induction address, bytes using divide.induct instructions generalizing others with
  | case1 address =>
    obtain rfl := List.length_eq_zero_iff.mp hlength
    exact .nil
  | case2 address byte found hfound =>
    obtain ⟨other, rfl⟩ := List.length_eq_one_iff.mp hlength
    simp only [divide, hfound]
    exact .cons (.instruction address found) .nil
  | case3 address byte hnone =>
    obtain ⟨other, rfl⟩ := List.length_eq_one_iff.mp hlength
    simp only [divide, hnone]
    exact .cons (.data address byte other) .nil
  | case4 address byte next rest found hfound ih =>
    obtain ⟨other, tail, rfl⟩ := List.exists_cons_of_length_eq_add_one hlength
    obtain ⟨following, others, rfl⟩ :=
      List.exists_cons_of_length_eq_add_one (Nat.succ.inj hlength)
    simp only [divide, hfound]
    exact .cons (.instruction address found) (ih (Nat.succ.inj (Nat.succ.inj hlength)))
  | case5 address byte next rest hnone ih =>
    obtain ⟨other, tail, rfl⟩ := List.exists_cons_of_length_eq_add_one hlength
    obtain ⟨following, others, rfl⟩ :=
      List.exists_cons_of_length_eq_add_one (Nat.succ.inj hlength)
    simp only [divide, hnone]
    exact .cons (.data address byte other) (ih (Nat.succ.inj hlength))

/-- The marks of an item do not depend on its byte. -/
theorem SameExceptByte.marks_eq {item other : Item} (hsame : SameExceptByte item other) :
    other.marks = item.marks := by
  cases hsame <;> rfl

end Item

namespace Listing

/-- Two lines are the same, or they are those of bytes at one address. -/
inductive SameExceptByte : String → String → Prop
  | same (line : String) : SameExceptByte line line
  | data (address : Nat) (byte other : UInt8) :
      SameExceptByte (dataLine address byte) (dataLine address other)

/-- The lines of an item depend on its byte only in the line of the byte. -/
theorem forall₂_itemLines (disassembly : Disassembly) (starts : Array Bool) (comments : Bool)
    {item other : Item} (hsame : Item.SameExceptByte item other) :
    List.Forall₂ SameExceptByte (itemLines disassembly starts comments item)
      (itemLines disassembly starts comments other) := by
  cases hsame with
  | instruction address found => exact List.forall₂_same.mpr fun line _ => .same line
  | data address byte other =>
    unfold itemLines
    simp only [Item.address]
    cases disassembly.labels[address]? with
    | none => exact .cons (.data address byte other) .nil
    | some name => exact .cons (.same _) (.cons (.data address byte other) .nil)

end Listing

namespace Disassembly

variable (disassembly : Disassembly) {bytes : Array UInt8}

/-- What was found on one image has the same items on another of the same size, apart from the
bytes of data. -/
theorem forall₂_items (hsize : bytes.size = disassembly.bytes.size) :
    List.Forall₂ Item.SameExceptByte disassembly.items { disassembly with bytes }.items := by
  apply Item.forall₂_divide
  rw [Image.length_inside, Image.length_inside, Image.stop_load_congr hsize]

/-- What was found on one image has the same starts on another of the same size. -/
theorem starts_withBytes (hsize : bytes.size = disassembly.bytes.size) :
    { disassembly with bytes }.starts = disassembly.starts := by
  have hmarks : ∀ {items others : List Item}, List.Forall₂ Item.SameExceptByte items others →
      others.flatMap Item.marks = items.flatMap Item.marks := by
    intro items others hsame
    induction hsame with
    | nil => rfl
    | cons hhead _ ih => rw [List.flatMap_cons, List.flatMap_cons, hhead.marks_eq, ih]
  rw [starts, starts, hmarks (disassembly.forall₂_items hsize), hsize]

/-- What was found on one image has the same listing on another of the same size, apart from the
bytes of data lines. -/
theorem forall₂_lines (hsize : bytes.size = disassembly.bytes.size) (comments : Bool) :
    List.Forall₂ Listing.SameExceptByte (disassembly.lines comments)
      ({ disassembly with bytes }.lines comments) := by
  unfold lines
  simp only [disassembly.starts_withBytes hsize]
  exact List.rel_flatMap (disassembly.forall₂_items hsize)
    fun _ _ => Listing.forall₂_itemLines disassembly disassembly.starts comments

/-- An exploration that succeeds does so on every image of the same size that has the same bytes
at the explored instructions. It finds the same instructions, labels and edges, the edges in the
same order, and the listings differ only in the bytes of data lines. -/
theorem explore_of_agrees_on_explored {first second : Array UInt8} {options : Options}
    {disassembly : Disassembly}
    (hexplore : explore first options.branchLimit = .ok disassembly)
    (hsize : second.size = first.size)
    (hagrees : ∀ address ∈ disassembly.instructions,
      (Image.load second).byte? address = (Image.load first).byte? address ∧
        (Image.load second).byte? (address + 1) = (Image.load first).byte? (address + 1)) :
    ∃ other, explore second options.branchLimit = .ok other ∧
      other.instructions = disassembly.instructions ∧ other.labels = disassembly.labels ∧
      other.edges = disassembly.edges ∧
      List.Forall₂ Listing.SameExceptByte (disassembly.lines options.comments)
        (other.lines options.comments) := by
  refine ⟨_, explore_of_agrees hexplore hsize hagrees, rfl, rfl, rfl, ?_⟩
  apply disassembly.forall₂_lines
  obtain ⟨found, _, rfl⟩ := exists_ends_of_explore hexplore
  exact hsize

/-- The bytes that a jump leaves out can be replaced, here by a word that could be explored. -/
theorem explore_of_replaced_gap :
    ∃ disassembly other,
      explore #[0x12, 0x04, 0xAA, 0xBB, 0x00, 0xEE] 48 = .ok disassembly ∧
      explore #[0x12, 0x04, 0x00, 0xEE, 0x00, 0xEE] 48 = .ok other ∧
      other.instructions = disassembly.instructions ∧
      disassembly.lines false = ["JMP   :label-0x0204       ", "DATA\t202h, AAh",
        "DATA\t203h, BBh", ":label-0x0204", "RET                       "] ∧
      List.Forall₂ Listing.SameExceptByte (disassembly.lines false) (other.lines false) := by
  obtain ⟨disassembly, hexplore, hlines, hgap⟩ : ∃ disassembly,
      explore #[0x12, 0x04, 0xAA, 0xBB, 0x00, 0xEE] 48 = .ok disassembly ∧
        disassembly.lines false = ["JMP   :label-0x0204       ", "DATA\t202h, AAh",
          "DATA\t203h, BBh", ":label-0x0204", "RET                       "] ∧
        ∀ gap ∈ [0x201, 0x202, 0x203], gap ∉ disassembly.instructions := by
    decide +kernel
  have hbytes : ∀ place, place ≠ 0x202 → place ≠ 0x203 →
      (Image.load #[0x12, 0x04, 0x00, 0xEE, 0x00, 0xEE]).byte? place =
        (Image.load #[0x12, 0x04, 0xAA, 0xBB, 0x00, 0xEE]).byte? place := by
    intro place hfirst hsecond
    by_cases hle : Machine.loadAddress ≤ place
    · obtain ⟨offset, rfl⟩ := Nat.exists_eq_add_of_le hle
      obtain _ | _ | _ | _ | _ | _ | offset := offset
      · rfl
      · rfl
      · exact absurd rfl hfirst
      · exact absurd rfl hsecond
      · rfl
      · rfl
      · simp [Image.byte?, Image.load]
    · simp [Image.byte?, Image.load, hle]
  have hagrees : ∀ address ∈ disassembly.instructions,
      (Image.load #[0x12, 0x04, 0x00, 0xEE, 0x00, 0xEE]).byte? address =
          (Image.load #[0x12, 0x04, 0xAA, 0xBB, 0x00, 0xEE]).byte? address ∧
        (Image.load #[0x12, 0x04, 0x00, 0xEE, 0x00, 0xEE]).byte? (address + 1) =
          (Image.load #[0x12, 0x04, 0xAA, 0xBB, 0x00, 0xEE]).byte? (address + 1) := by
    intro address hmem
    have hne : address ∉ [0x201, 0x202, 0x203] := fun hgaps => hgap address hgaps hmem
    simp only [List.mem_cons, List.not_mem_nil, or_false, not_or] at hne
    exact ⟨hbytes address (by omega) (by omega), hbytes (address + 1) (by omega) (by omega)⟩
  obtain ⟨other, hother, hinstructions, _, _, hsame⟩ :=
    @explore_of_agrees_on_explored _ #[0x12, 0x04, 0x00, 0xEE, 0x00, 0xEE] ⟨false, 48⟩ _
      hexplore rfl hagrees
  exact ⟨disassembly, other, hexplore, hother, hinstructions, hlines, hsame⟩

end Disassembly

end ChipEight
