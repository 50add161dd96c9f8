import ChipEight.Proofs.Codec.Packing
import ChipEight.Proofs.Exploration.Agreement

/-!
# Where control can leave memory

An exploration tests the address that it follows, but not the one that it comes back to. A skip
comes back to an address before the one that it follows, so that only the place where a call
returns can lie outside memory: an exploration can succeed although a call at the end of memory
would return past it, and if the image goes on there, it explores what lies there. Every other
way out of memory makes the exploration fail. This holds of every image that fits: no sum of its
addresses wraps around to an address inside memory.
-/

namespace ChipEight

namespace Instruction

/-- The target of an instruction has twelve bits. -/
theorem target_lt (instruction : Instruction) : instruction.target < Machine.memorySize := by
  obtain ⟨_, _, _, _, _, hnnn⟩ := Fields.toNat_ofWord instruction.raw
  rw [target, hnnn]
  exact Nat.mod_lt _ (by decide)

/-- If an instruction is followed inside memory and no sum wraps, then only a call continues
outside, at the address after it. -/
theorem successor_lt_or_call {instruction : Instruction} {address target : Nat}
    (hsum : address + 4 < Machine.numberBound)
    (hfollowed : ∀ next, instruction.followed? address = some next → next < Machine.memorySize)
    (htarget : target ∈ instruction.successors address) :
    target < Machine.memorySize ∨ instruction.mnemonic = .jsr ∧ target = address + 2 := by
  have hlt := instruction.target_lt
  have htwo : Machine.wrap (address + 2) = address + 2 := Machine.wrap_of_lt (by omega)
  unfold followed? at hfollowed
  unfold successors at htarget
  rw [Machine.wrap_of_lt hsum, htwo] at hfollowed htarget
  cases hmnemonic : instruction.mnemonic <;>
    simp only [hmnemonic, Option.some.injEq, forall_eq', List.mem_cons, List.not_mem_nil,
      or_false] at hfollowed htarget
  case jsr =>
    rcases htarget with rfl | rfl
    · exact Or.inl hlt
    · exact Or.inr ⟨rfl, rfl⟩
  all_goals omega

end Instruction

namespace Disassembly

/-- Every explored address lies inside memory, and so do the addresses where control can
continue. -/
def StaysInside (disassembly : Disassembly) : Prop :=
  ∀ (address : Nat) (instruction : Instruction),
    disassembly.instructions[address]? = some instruction →
    address < Machine.memorySize ∧
      ∀ target ∈ instruction.successors address, target < Machine.memorySize

/-- An explored call returns to an address. -/
def ReturnsTo (disassembly : Disassembly) (address : Nat) : Prop :=
  ∃ site instruction, disassembly.instructions[site]? = some instruction ∧
    instruction.mnemonic = .jsr ∧ address = site + 2

variable {bytes : Array UInt8} {limit : Nat} {disassembly : Disassembly}

/-- An explored instruction continues inside memory, unless it is a call that returns outside. -/
theorem successor_lt_or_call (hfits : Image.Fits bytes)
    (hexplore : explore bytes limit = .ok disassembly) {address : Nat} {instruction : Instruction}
    (hfound : disassembly.instructions[address]? = some instruction) {target : Nat}
    (htarget : target ∈ instruction.successors address) :
    target < Machine.memorySize ∨ instruction.mnemonic = .jsr ∧ target = address + 2 := by
  obtain ⟨hreachable, word, hword, rfl⟩ := (getElem?_instructions_iff hexplore).mp hfound
  apply Instruction.successor_lt_or_call (hfits.add_four_lt hword) _ htarget
  exact fun next hnext => followed_lt_of_explore hexplore hreachable hword hnext

/-- An explored address lies inside memory, unless an explored call returns to it. -/
theorem address_lt_or_returnsTo (hfits : Image.Fits bytes)
    (hexplore : explore bytes limit = .ok disassembly) {address : Nat}
    (hmem : address ∈ disassembly.instructions) :
    address < Machine.memorySize ∨ disassembly.ReturnsTo address := by
  have hfound := Std.TreeMap.getElem?_eq_some_getElem hmem
  obtain ⟨hreachable, _⟩ := (getElem?_instructions_iff hexplore).mp hfound
  cases hreachable with
  | entry => exact Or.inl (by decide)
  | @step site _ word _ hsite hword hsuccessor =>
    have hcaller := (getElem?_instructions_iff hexplore).mpr ⟨hsite, word, hword, rfl⟩
    rcases successor_lt_or_call hfits hexplore hcaller hsuccessor with hlt | ⟨hcall, heq⟩
    · exact Or.inl hlt
    · exact Or.inr ⟨site, _, hcaller, hcall, heq⟩

/-- A reachable instruction that continues outside memory, other than by returning from a call,
makes an exploration fail. -/
theorem exists_error_of_outside (hfits : Image.Fits bytes) {address target : Nat} {word : Word}
    (hreachable : (Image.load bytes).Reachable address)
    (hword : (Image.load bytes).fetch? address = some word)
    (htarget : target ∈ (Instruction.ofWord word).successors address)
    (hother : ¬((Instruction.ofWord word).mnemonic = .jsr ∧ target = address + 2))
    (houtside : Machine.memorySize ≤ target) : ∃ error, explore bytes limit = .error error := by
  cases hexplore : explore bytes limit with
  | error error => exact ⟨error, rfl⟩
  | ok disassembly =>
    have hfound := (getElem?_instructions_iff hexplore).mpr ⟨hreachable, word, hword, rfl⟩
    rcases successor_lt_or_call hfits hexplore hfound htarget with hlt | hcall
    · exact absurd houtside (Nat.not_le_of_lt hlt)
    · exact absurd hcall hother

/-- Control leaves memory only where a call returns, if the image fits. If an exploration succeeds,
then an explored instruction continues inside memory unless it is a call that returns outside, and
an explored address outside memory is one to which an explored call returns. So the exploration
stays inside memory exactly if the explored calls return there. Every other continuation of a
reachable instruction outside memory makes the exploration fail. -/
theorem explore_leaves_by_return {bytes : Array UInt8} (hfits : Image.Fits bytes) (limit : Nat) :
    (∀ disassembly, explore bytes limit = .ok disassembly →
      (∀ (address : Nat) (instruction : Instruction),
        disassembly.instructions[address]? = some instruction →
        ∀ target ∈ instruction.successors address,
          target < Machine.memorySize ∨ instruction.mnemonic = .jsr ∧ target = address + 2) ∧
      (∀ address ∈ disassembly.instructions,
        address < Machine.memorySize ∨ disassembly.ReturnsTo address) ∧
      (disassembly.StaysInside ↔
        ∀ address, disassembly.ReturnsTo address → address < Machine.memorySize)) ∧
    ∀ (address target : Nat) (word : Word), (Image.load bytes).Reachable address →
      (Image.load bytes).fetch? address = some word →
      target ∈ (Instruction.ofWord word).successors address →
      ¬((Instruction.ofWord word).mnemonic = .jsr ∧ target = address + 2) →
      Machine.memorySize ≤ target → ∃ error, explore bytes limit = .error error := by
  refine ⟨fun disassembly hexplore => ⟨?_, ?_, ?_⟩, ?_⟩
  · exact fun address instruction hfound target => successor_lt_or_call hfits hexplore hfound
  · exact fun address => address_lt_or_returnsTo hfits hexplore
  · constructor
    · rintro hinside _ ⟨site, instruction, hfound, hcall, rfl⟩
      obtain ⟨_, _, hword, _⟩ := (getElem?_instructions_iff hexplore).mp hfound
      apply (hinside site instruction hfound).2
      rw [← Machine.wrap_of_lt (Image.add_two_lt_of_fetch? hword)]
      simp [Instruction.successors, hcall]
    · intro hreturns address instruction hfound
      have hmem := mem_of_getElem?_eq_some hfound
      refine ⟨(address_lt_or_returnsTo hfits hexplore hmem).elim id (hreturns address), ?_⟩
      intro target htarget
      rcases successor_lt_or_call hfits hexplore hfound htarget with hlt | ⟨hcall, heq⟩
      · exact hlt
      · exact hreturns target ⟨address, instruction, hfound, hcall, heq⟩
  · exact fun address target word => exists_error_of_outside hfits

/-- A program whose call returns inside memory stays there. -/
theorem explore_call_stays_inside :
    ∃ disassembly, explore #[0x22, 0x04, 0x00, 0xEE, 0x12, 0x02] 48 = .ok disassembly ∧
      disassembly.ReturnsTo 0x202 ∧ disassembly.StaysInside := by
  obtain ⟨disassembly, hexplore, hcall⟩ : ∃ disassembly,
      explore #[0x22, 0x04, 0x00, 0xEE, 0x12, 0x02] 48 = .ok disassembly ∧
        disassembly.instructions[0x200]? = some (.ofWord 0x2204) := by
    decide +kernel
  obtain ⟨_, _, hiff⟩ := (explore_leaves_by_return (by decide) 48).1 disassembly hexplore
  refine ⟨disassembly, hexplore, ⟨_, _, hcall, rfl, rfl⟩, hiff.mpr ?_⟩
  rintro _ ⟨site, instruction, hfound, _, rfl⟩
  obtain ⟨_, _, hword, _⟩ := (getElem?_instructions_iff hexplore).mp hfound
  have hsite := Image.lt_stop_of_fetch? hword
  have hstop : (Image.load #[0x22, 0x04, 0x00, 0xEE, 0x12, 0x02]).stop = 0x206 := by decide
  have hsize : Machine.memorySize = 0x1000 := rfl
  omega

end Disassembly

/-- An image that fills memory: a jump to its last word, blank bytes, and a call back to the
jump. -/
def callAtEnd : Array UInt8 :=
  Array.ofFn fun offset : Fin Machine.programLimit =>
    if offset.val = 0 then 0x1F
    else if offset.val = 1 then 0xFE
    else if offset.val = 0xDFE then 0x22
    else 0

/-- The bytes of the image with a call at its end. -/
theorem byte?_callAtEnd {offset : Nat} (hlt : offset < Machine.programLimit) :
    (Image.load callAtEnd).byte? (Machine.loadAddress + offset) =
      some (if offset = 0 then 0x1F
        else if offset = 1 then 0xFE
        else if offset = 0xDFE then 0x22
        else 0) := by
  rw [Image.byte?, Image.load, if_pos (Nat.le_add_right _ _), Nat.add_sub_cancel_left, callAtEnd,
    Array.getElem?_ofFn, dif_pos hlt]

/-- The words of the image with a call at its end: the jump, the call, and none after it. -/
theorem fetch?_callAtEnd :
    (Image.load callAtEnd).fetch? Machine.loadAddress = some 0x1FFE ∧
      (Image.load callAtEnd).fetch? (Machine.loadAddress + 0xDFE) = some 0x2200 ∧
      (Image.load callAtEnd).fetch? Machine.memorySize = none := by
  have hsize : callAtEnd.size = Machine.programLimit := Array.size_ofFn
  have hstop : (Image.load callAtEnd).stop = Machine.memorySize := by
    rw [Image.stop_load_eq (Image.fits_of_le (Nat.le_of_eq hsize)).stop_lt, hsize]
    rfl
  have hword : ∀ {address : Nat} {high low : UInt8}, address + 1 < Machine.memorySize →
      (Image.load callAtEnd).byte? address = some high →
      (Image.load callAtEnd).byte? (address + 1) = some low →
      (Image.load callAtEnd).fetch? address = some (.ofBytes high low) :=
    fun hlt hhigh hlow =>
      Image.fetch?_eq_some_iff.mpr ⟨by rwa [hstop], _, _, hhigh, hlow, rfl⟩
  refine ⟨?_, ?_, ?_⟩
  · exact hword (by decide) (@byte?_callAtEnd 0 (by decide)) (@byte?_callAtEnd 1 (by decide))
  · exact hword (by decide) (@byte?_callAtEnd 0xDFE (by decide))
      (@byte?_callAtEnd 0xDFF (by decide))
  · rw [Image.fetch?_load_eq_none_iff, hstop]
    decide

/-- The image with a call at its end is explored although the call returns past the end of
memory. -/
theorem Disassembly.explore_returns_past_end :
    ∃ disassembly, explore callAtEnd 48 = .ok disassembly ∧
      disassembly.ReturnsTo Machine.memorySize ∧ ¬disassembly.StaysInside := by
  obtain ⟨hjump, hcall, hend⟩ := fetch?_callAtEnd
  let jumped := Exploration.start.explored Machine.loadAddress 0x1FFE []
  let called := jumped.explored 0xFFE 0x2200 []
  have hfirst : Exploration.Advances (.load callAtEnd) 48 .start Machine.loadAddress [] jumped := by
    refine .explore ⟨hjump, by simp [Exploration.start]⟩ fun next hnext => ?_
    obtain rfl : 0xFFE = next := Option.some.inj hnext
    decide
  have hsecond : Exploration.Advances (.load callAtEnd) 48 jumped 0xFFE [] called := by
    refine .explore ⟨hcall, by decide⟩ fun next hnext => ?_
    obtain rfl : 0x200 = next := Option.some.inj hnext
    decide
  have hends : Exploration.Ends (.load callAtEnd) 48 .start (.ok { called with threads := [] }) :=
    .step rfl hfirst <| .step rfl hsecond <|
      .step rfl (.drop (Or.inr (by decide))) <| .step rfl (.drop (Or.inl hend)) (.done rfl)
  have hreturns : ReturnsTo ⟨callAtEnd, called.instructions, called.labels, called.edges⟩
      Machine.memorySize := ⟨0xFFE, .ofWord 0x2200, by decide, by decide, rfl⟩
  refine ⟨_, explore_of_ends hends, hreturns, fun hinside => ?_⟩
  obtain ⟨site, instruction, hfound, hmnemonic, heq⟩ := hreturns
  have hsum : Machine.wrap (site + 2) = Machine.memorySize := by
    rw [← heq]
    decide
  have hlt := (hinside site instruction hfound).2 Machine.memorySize
    (by simp [Instruction.successors, hmnemonic, hsum])
  exact Nat.lt_irrefl _ hlt

end ChipEight
