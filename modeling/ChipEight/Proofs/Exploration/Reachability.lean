import ChipEight.Proofs.Basics
import ChipEight.Proofs.Exploration.Addresses
import ChipEight.Proofs.Exploration.Runs

/-!
# What an exploration finds

Control reaches an address if it is the load address, or if an instruction at a reached
address can continue there. An exploration that succeeds finds exactly the reached
addresses that hold a word. The invariants say that every thread is reached, and that
every continuation of an explored instruction is explored or waits as a thread; at the
end no thread waits, so that the explored addresses are closed under continuation.
-/

namespace ChipEight

namespace Instruction

/-- The addresses at which control can continue after an instruction at an address. The
indirect jump is taken to continue at the next instruction, and sums of addresses wrap. -/
def successors (instruction : Instruction) (address : Nat) : List Nat :=
  match instruction.mnemonic with
  | .ret => []
  | .jmp => [instruction.target]
  | .jsr => [instruction.target, Machine.wrap (address + 2)]
  | .skeq | .skne | .skpr | .skup => [Machine.wrap (address + 2), Machine.wrap (address + 4)]
  | _ => [Machine.wrap (address + 2)]

/-- The successor that an exploration follows at once. -/
def followed? (instruction : Instruction) (address : Nat) : Option Nat :=
  match instruction.mnemonic with
  | .ret => none
  | .jmp | .jsr => some instruction.target
  | .skeq | .skne | .skpr | .skup => some (Machine.wrap (address + 4))
  | _ => some (Machine.wrap (address + 2))

/-- The followed successor is where the flow of the instruction goes next. -/
theorem next?_flow (instruction : Instruction) (address : Nat) :
    instruction.flow.next? address = instruction.followed? address := by
  unfold flow followed?
  cases instruction.mnemonic <;> rfl

/-- The successors are where the flow goes next and where it comes back to. -/
theorem mem_successors_iff {instruction : Instruction} {address target : Nat} :
    target ∈ instruction.successors address ↔
      instruction.flow.next? address = some target ∨
        instruction.flow.deferred? address = some target := by
  unfold successors flow
  cases instruction.mnemonic <;>
    simp [Mnemonic.isSkip, Flow.next?, Flow.deferred?, Machine.instructionWidth, eq_comm, or_comm]

end Instruction

/-- The addresses of an image that hold a word and that control can reach from the load
address through such addresses. -/
inductive Image.Reachable (image : Image) : Nat → Prop
  | entry {word : Word} (hword : image.fetch? Machine.loadAddress = some word) :
      image.Reachable Machine.loadAddress
  | step {address target : Nat} {word next : Word} (hreachable : image.Reachable address)
      (hword : image.fetch? address = some word)
      (hsuccessor : target ∈ (Instruction.ofWord word).successors address)
      (hnext : image.fetch? target = some next) : image.Reachable target

namespace Exploration

/-- Exploring a word adds its instruction at its address. -/
theorem getElem?_instructions_explored (state : Exploration) (address : Nat) (word : Word)
    (rest : List Nat) (other : Nat) :
    (state.explored address word rest).instructions[other]? =
      if address = other then some (.ofWord word) else state.instructions[other]? := by
  simp [explored, record, Std.TreeMap.getElem?_insert]

/-- An instruction found after exploring a word is that of the word, or was found before. -/
theorem eq_or_of_getElem?_explored {state : Exploration} {address : Nat} {word : Word}
    {rest : List Nat} {other : Nat} {instruction : Instruction}
    (hfound : (state.explored address word rest).instructions[other]? = some instruction) :
    (other = address ∧ instruction = .ofWord word) ∨
      state.instructions[other]? = some instruction := by
  rw [getElem?_instructions_explored] at hfound
  split at hfound
  · next heq => exact Or.inl ⟨heq.symm, (Option.some.inj hfound).symm⟩
  · exact Or.inr hfound

/-- Exploring a word adds its address. -/
theorem mem_instructions_explored {state : Exploration} {address : Nat} {word : Word}
    {rest : List Nat} {other : Nat} :
    other ∈ (state.explored address word rest).instructions ↔
      address = other ∨ other ∈ state.instructions := by
  simp [explored, record]

/-- Exploring a word follows its instruction and leaves the rest of the threads. -/
theorem mem_threads_explored {state : Exploration} {address : Nat} {word : Word}
    {rest : List Nat} {other : Nat} :
    other ∈ (state.explored address word rest).threads ↔
      other ∈ (Instruction.ofWord word).successors address ∨ other ∈ rest := by
  simp [explored, pending, Instruction.mem_successors_iff, or_assoc]

variable {image : Image} {limit : Nat} {state : Exploration}

/-- Every explored instruction is the word at its address, read leniently. -/
theorem Reached.instruction_eq (hreached : Reached image limit state) {address : Nat}
    {instruction : Instruction} (hfound : state.instructions[address]? = some instruction) :
    ∃ word, image.fetch? address = some word ∧ instruction = .ofWord word := by
  induction hreached generalizing address instruction with
  | start => simp [Exploration.start] at hfound
  | step _ _ hadvances ih =>
    cases hadvances with
    | drop => exact ih hfound
    | explore hfinds =>
      rcases eq_or_of_getElem?_explored hfound with ⟨rfl, rfl⟩ | hold
      · exact ⟨_, hfinds.word_eq, rfl⟩
      · exact ih hold

/-- Every explored address is reachable, and so is every thread at a word. -/
theorem Reached.reachable (hreached : Reached image limit state) :
    (∀ address ∈ state.instructions, image.Reachable address) ∧
      ∀ thread ∈ state.threads, ∀ word, image.fetch? thread = some word →
        image.Reachable thread := by
  induction hreached with
  | start =>
    refine ⟨by simp [Exploration.start], fun thread hthread word hword => ?_⟩
    rw [List.mem_singleton.mp hthread] at hword ⊢
    exact .entry hword
  | @step state next address rest _ hthreads hadvances ih =>
    obtain ⟨hexplored, hpending⟩ := ih
    rw [hthreads] at hpending
    cases hadvances with
    | drop =>
      exact ⟨hexplored, fun thread hthread => hpending thread (List.mem_cons_of_mem _ hthread)⟩
    | @explore word hfinds =>
      have hcurrent := hpending address List.mem_cons_self word hfinds.word_eq
      refine ⟨fun other hother => ?_, fun thread hthread next hnext => ?_⟩
      · rcases mem_instructions_explored.mp hother with rfl | hold
        · exact hcurrent
        · exact hexplored other hold
      · rcases mem_threads_explored.mp hthread with hsuccessor | hold
        · exact hcurrent.step hfinds.word_eq hsuccessor hnext
        · exact hpending thread (List.mem_cons_of_mem _ hold) next hnext

/-- An address needs no thread: it is explored or holds no word, unless it is waiting. -/
def Covered (image : Image) (state : Exploration) (address : Nat) : Prop :=
  address ∈ state.instructions ∨ address ∈ state.threads ∨ image.fetch? address = none

/-- A step keeps an address covered. -/
theorem Advances.covered {next : Exploration} {address : Nat} {rest : List Nat}
    (hthreads : state.threads = address :: rest)
    (hadvances : Advances image limit state address rest next) {other : Nat}
    (hcovered : state.Covered image other) : next.Covered image other := by
  unfold Covered at hcovered ⊢
  rw [hthreads, List.mem_cons] at hcovered
  cases hadvances with
  | drop hdone =>
    rcases hcovered with hold | (rfl | hrest) | hnone
    · exact Or.inl hold
    · exact hdone.symm.imp_right Or.inr
    · exact Or.inr (Or.inl hrest)
    · exact Or.inr (Or.inr hnone)
  | explore =>
    rw [mem_instructions_explored, mem_threads_explored]
    rcases hcovered with hold | (rfl | hrest) | hnone
    · exact Or.inl (Or.inr hold)
    · exact Or.inl (Or.inl rfl)
    · exact Or.inr (Or.inl (Or.inr hrest))
    · exact Or.inr (Or.inr hnone)

/-- The load address and every successor of an explored instruction are covered. -/
theorem Reached.covered (hreached : Reached image limit state) :
    state.Covered image Machine.loadAddress ∧
      ∀ (address : Nat) (instruction : Instruction),
        state.instructions[address]? = some instruction →
        ∀ target ∈ instruction.successors address, state.Covered image target := by
  induction hreached with
  | start => exact ⟨Or.inr (Or.inl (by simp [Exploration.start])), by simp [Exploration.start]⟩
  | @step state next address rest _ hthreads hadvances ih =>
    refine ⟨hadvances.covered hthreads ih.1, fun other instruction hfound target htarget => ?_⟩
    by_cases hold : state.instructions[other]? = some instruction
    · exact hadvances.covered hthreads (ih.2 other instruction hold target htarget)
    · cases hadvances with
      | drop => exact absurd hfound hold
      | explore =>
        obtain ⟨rfl, rfl⟩ := (eq_or_of_getElem?_explored hfound).resolve_right hold
        exact Or.inr (Or.inl (mem_threads_explored.mpr (Or.inl htarget)))

/-- The successor that was followed from an explored instruction lies inside memory. -/
theorem Reached.followed_lt (hreached : Reached image limit state) {address target : Nat}
    {instruction : Instruction} (hfound : state.instructions[address]? = some instruction)
    (htarget : instruction.followed? address = some target) : target < Machine.memorySize := by
  induction hreached with
  | start => simp [Exploration.start] at hfound
  | step _ _ hadvances ih =>
    cases hadvances with
    | drop => exact ih hfound
    | explore _ hnext =>
      rcases eq_or_of_getElem?_explored hfound with ⟨rfl, rfl⟩ | hold
      · rw [← Instruction.next?_flow] at htarget
        exact (hnext target htarget).1
      · exact ih hold

/-- Every label is the one that stands for its address. -/
theorem Reached.label_eq (hreached : Reached image limit state) {address : Nat} {name : String}
    (hlabel : state.labels[address]? = some name) : name = labelFor address := by
  induction hreached with
  | start => simp [Exploration.start] at hlabel
  | step _ _ hadvances ih =>
    cases hadvances with
    | drop => exact ih hlabel
    | explore =>
      simp only [explored, record] at hlabel
      split at hlabel
      · rw [Std.TreeMap.getElem?_insert] at hlabel
        split at hlabel
        · next heq =>
          rw [Std.LawfulEqCmp.compare_eq_iff_eq] at heq
          rw [Option.some.injEq] at hlabel
          rw [← hlabel, heq]
        · exact ih hlabel
      · exact ih hlabel

/-- Once no thread waits, every reachable address is explored. -/
theorem Reached.mem_of_reachable (hreached : Reached image limit state)
    (hthreads : state.threads = []) {address : Nat} (hreachable : image.Reachable address) :
    address ∈ state.instructions := by
  obtain ⟨hentry, hsuccessors⟩ := hreached.covered
  induction hreachable with
  | entry hword => simpa [Covered, hthreads, hword] using hentry
  | @step address target word next _ hword hsuccessor hnext ih =>
    have hfound := Std.TreeMap.getElem?_eq_some_getElem ih
    obtain ⟨found, hat, heq⟩ := hreached.instruction_eq hfound
    have hsame : word = found := Option.some.inj (hword.symm.trans hat)
    rw [← heq.trans (congrArg _ hsame.symm)] at hsuccessor
    simpa [Covered, hthreads, hnext] using hsuccessors address _ hfound target hsuccessor

end Exploration

namespace Disassembly

variable {bytes : Array UInt8} {limit : Nat}

/-- An exploration that succeeds ends in a reached state without threads. -/
theorem exists_reached_of_explore {disassembly : Disassembly}
    (hexplore : explore bytes limit = .ok disassembly) :
    ∃ found, Exploration.Reached (.load bytes) limit found ∧ found.threads = [] ∧
      disassembly = ⟨bytes, found.instructions, found.labels, found.edges⟩ := by
  unfold explore at hexplore
  cases hrun : Exploration.start.run (.load bytes) limit with
  | error error => simp [hrun, bind, Except.bind] at hexplore
  | ok found =>
    obtain ⟨hreached, hthreads⟩ := Exploration.Reached.of_run_eq_ok hrun
    refine ⟨found, hreached, hthreads, ?_⟩
    simpa [hrun, bind, Except.bind, pure, Except.pure, eq_comm] using hexplore

/-- The instructions that are found are the words at the reachable addresses. -/
theorem getElem?_instructions_iff {disassembly : Disassembly}
    (hexplore : explore bytes limit = .ok disassembly) {address : Nat}
    {instruction : Instruction} :
    disassembly.instructions[address]? = some instruction ↔
      (Image.load bytes).Reachable address ∧
        ∃ word, (Image.load bytes).fetch? address = some word ∧ instruction = .ofWord word := by
  obtain ⟨found, hreached, hthreads, rfl⟩ := exists_reached_of_explore hexplore
  constructor
  · intro hfound
    have hmem := mem_of_getElem?_eq_some hfound
    exact ⟨hreached.reachable.1 address hmem, hreached.instruction_eq hfound⟩
  · rintro ⟨hreachable, word, hword, rfl⟩
    have hfound := Std.TreeMap.getElem?_eq_some_getElem
      (hreached.mem_of_reachable hthreads hreachable)
    obtain ⟨other, hother, heq⟩ := hreached.instruction_eq hfound
    have hsame : word = other := Option.some.inj (hword.symm.trans hother)
    rw [hfound, heq, hsame]

/-- Every label that is found is the one that stands for its address. -/
theorem label_eq_of_explore {disassembly : Disassembly}
    (hexplore : explore bytes limit = .ok disassembly) {address : Nat} {name : String}
    (hlabel : disassembly.labels[address]? = some name) : name = labelFor address := by
  obtain ⟨found, hreached, _, rfl⟩ := exists_reached_of_explore hexplore
  exact hreached.label_eq hlabel

/-- No reachable instruction is followed outside memory. -/
theorem followed_lt_of_explore {disassembly : Disassembly}
    (hexplore : explore bytes limit = .ok disassembly) {address target : Nat} {word : Word}
    (hreachable : (Image.load bytes).Reachable address)
    (hword : (Image.load bytes).fetch? address = some word)
    (htarget : (Instruction.ofWord word).followed? address = some target) :
    target < Machine.memorySize := by
  have hfound := (getElem?_instructions_iff hexplore).mpr ⟨hreachable, word, hword, rfl⟩
  obtain ⟨found, hreached, _, rfl⟩ := exists_reached_of_explore hexplore
  exact hreached.followed_lt hfound htarget

end Disassembly

end ChipEight
