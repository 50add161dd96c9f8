import ChipEight.Proofs.Exploration.Outcomes
import ChipEight.Proofs.Exploration.Reachability

/-!
# What an exploration reads

An exploration asks an image only whether it holds a word at an address, and which word that is
if the address is explored. So an exploration that succeeds takes the same steps on every image
of the same size that agrees with the first one on the bytes of the explored words.
-/

namespace ChipEight

namespace Image

/-- A second image holds words where the first one does, and the same ones where instructions
were found. -/
structure AgreesOn (found : Std.TreeMap Nat Instruction) (first second : Image) : Prop where
  none_iff : ∀ address, second.fetch? address = none ↔ first.fetch? address = none
  fetch?_eq : ∀ address ∈ found, second.fetch? address = first.fetch? address

/-- Images of the same size agree where they have the same bytes. -/
theorem agreesOn_of_bytes {found : Std.TreeMap Nat Instruction} {first second : Array UInt8}
    (hsize : second.size = first.size)
    (hbytes : ∀ address ∈ found, (load second).byte? address = (load first).byte? address ∧
      (load second).byte? (address + 1) = (load first).byte? (address + 1)) :
    AgreesOn found (load first) (load second) := by
  have hstop := stop_load_congr hsize
  refine ⟨fun address => ?_, fun address hmem => Option.ext fun word => ?_⟩
  · rw [fetch?_load_eq_none_iff, fetch?_load_eq_none_iff, hstop]
  · obtain ⟨hhigh, hlow⟩ := hbytes address hmem
    rw [fetch?_eq_some_iff, fetch?_eq_some_iff, hhigh, hlow, hstop]

end Image

namespace Exploration

variable {first second image : Image} {limit : Nat} {state found : Exploration}

/-- What is explored stays explored. -/
theorem Ends.mem_instructions (hends : Ends image limit state (.ok found)) {address : Nat}
    (hmem : address ∈ state.instructions) : address ∈ found.instructions := by
  generalize houtcome : Except.ok found = outcome at hends
  induction hends with
  | done =>
    cases houtcome
    exact hmem
  | fail => cases houtcome
  | step _ hadvances _ ih =>
    refine ih ?_ houtcome
    cases hadvances with
    | drop => exact hmem
    | explore => exact mem_instructions_explored.mpr (Or.inr hmem)

/-- A step that advances on one image does so on another one, if it explores the same word. -/
theorem Advances.of_fetch?_eq {next : Exploration} {address : Nat} {rest : List Nat}
    (hadvances : Advances first limit state address rest next)
    (hnone : second.fetch? address = none ↔ first.fetch? address = none)
    (hsame : address ∈ next.instructions → second.fetch? address = first.fetch? address) :
    Advances second limit state address rest next := by
  cases hadvances with
  | drop hdone => exact .drop (hdone.imp_left hnone.mpr)
  | explore hfinds hnext =>
    have hword := hsame (mem_instructions_explored.mpr (Or.inl rfl))
    exact .explore ⟨hword.trans hfinds.word_eq, hfinds.new⟩ hnext

/-- A run that succeeds ends in the same way on every image that agrees with the first one on
what it finds. -/
theorem Ends.of_agreesOn (hends : Ends first limit state (.ok found))
    (hagrees : Image.AgreesOn found.instructions first second) :
    Ends second limit state (.ok found) := by
  generalize houtcome : Except.ok found = outcome at hends
  induction hends with
  | done hthreads => exact .done hthreads
  | fail => cases houtcome
  | @step state next address rest outcome hthreads hadvances hrest ih =>
    subst houtcome
    -- What the step explores is among what the whole run finds, so the images agree on it.
    have hsame : address ∈ next.instructions → second.fetch? address = first.fetch? address :=
      fun hmem => hagrees.fetch?_eq address (hrest.mem_instructions hmem)
    exact .step hthreads (hadvances.of_fetch?_eq (hagrees.none_iff address) hsame) (ih rfl)

end Exploration

namespace Disassembly

/-- An exploration that succeeds finds the same on every image of the same size that has the
same bytes at the explored words. -/
theorem explore_of_agrees {first second : Array UInt8} {limit : Nat} {disassembly : Disassembly}
    (hexplore : explore first limit = .ok disassembly) (hsize : second.size = first.size)
    (hbytes : ∀ address ∈ disassembly.instructions,
      (Image.load second).byte? address = (Image.load first).byte? address ∧
        (Image.load second).byte? (address + 1) = (Image.load first).byte? (address + 1)) :
    explore second limit = .ok { disassembly with bytes := second } := by
  obtain ⟨found, hends, rfl⟩ := exists_ends_of_explore hexplore
  exact explore_of_ends (hends.of_agreesOn (Image.agreesOn_of_bytes hsize hbytes))

end Disassembly

end ChipEight
