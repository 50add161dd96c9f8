import ChipEight.Disassembly

/-!
# Exploration of an image

An exploration follows control from the load address. It keeps a stack of threads:
the top one is followed, and each call and each skip leaves a thread beneath it to be
followed later. A thread ends at a return, at an explored address and where the image
holds no word before its end. Each step either drops a thread or explores a new address,
so the exploration ends.
-/

namespace ChipEight

/-- How to disassemble an image. -/
structure Options where
  /-- Whether instruction lines end with the address and the word. -/
  comments : Bool
  /-- The number of threads that may wait. -/
  branchLimit : Nat
  deriving DecidableEq, Repr

/-- The options unless others are given. -/
def Options.standard : Options :=
  ⟨true, 3 * Machine.stackDepth⟩

/-- Why an exploration gives up. -/
inductive DisassemblyError
  /-- An instruction continues outside memory. -/
  | addressOutOfRange (address : Nat) (opcode : Word) (target : Nat)
  /-- An instruction leaves more threads waiting than allowed. -/
  | runawayBranching (address : Nat) (opcode : Word) (pending limit : Nat)
  deriving DecidableEq, Repr

/-- The wording of a failure. -/
def DisassemblyError.message : DisassemblyError → String
  | addressOutOfRange address opcode target =>
    "opcode " ++ Numeral.marked 4 opcode.toNat ++ " at " ++ Numeral.marked 3 address ++
      " continues at " ++ Numeral.marked 4 target ++ ", outside memory"
  | runawayBranching address opcode pending limit =>
    "opcode " ++ Numeral.marked 4 opcode.toNat ++ " at " ++ Numeral.marked 3 address ++
      s!" left {pending} branches pending (limit {limit})"

/-- The state of an exploration. -/
structure Exploration where
  instructions : Std.TreeMap Nat Instruction
  labels : Std.TreeMap Nat String
  edges : Array Edge
  /-- The addresses to follow, the current one first. -/
  threads : List Nat

namespace Exploration

/-- One thread at the load address. -/
def start : Exploration :=
  ⟨∅, ∅, #[], [Machine.loadAddress]⟩

/-- Records the instruction at an address with its edges and label. -/
def record (state : Exploration) (address : Nat) (instruction : Instruction) : Exploration :=
  let flow := instruction.flow
  { state with
    instructions := state.instructions.insert address instruction
    labels := match flow.labelled? with
      | some target => state.labels.insert target (labelFor target)
      | none => state.labels
    edges := state.edges ++ flow.edges address }

/-- Follows the current thread over one instruction, where `rest` are the waiting
threads. -/
def follow (limit : Nat) (state : Exploration) (address : Nat) (word : Word)
    (rest : List Nat) : Except DisassemblyError Exploration :=
  let instruction := Instruction.ofWord word
  let recorded := state.record address instruction
  match instruction.flow.next? address with
  | none => .ok { recorded with threads := rest }
  | some next =>
    let pending := (instruction.flow.deferred? address).toList ++ rest
    if next ≥ Machine.memorySize then .error (.addressOutOfRange address word next)
    else if pending.length > limit then
      .error (.runawayBranching address word pending.length limit)
    else .ok { recorded with threads := next :: pending }

/-- Takes one step of the current thread, or ends it. -/
def step (image : Image) (limit : Nat) (state : Exploration) (address : Nat)
    (rest : List Nat) : Except DisassemblyError Exploration :=
  match image.fetch? address with
  | some word =>
    if state.instructions.contains address then .ok { state with threads := rest }
    else state.follow limit address word rest
  | none => .ok { state with threads := rest }

/-- The number of addresses that may still be explored. -/
def unexplored (image : Image) (state : Exploration) : Nat :=
  (List.range image.stop).countP fun address => !state.instructions.contains address

/-- A bound on the steps that remain: exploring an address adds at most one thread. -/
def remaining (image : Image) (state : Exploration) : Nat :=
  2 * state.unexplored image + state.threads.length

/-- Recording a new address leaves fewer to explore. -/
theorem unexplored_record_lt {image : Image} {state : Exploration} {address : Nat}
    (instruction : Instruction) (hstop : address < image.stop)
    (hnew : state.instructions.contains address = false) :
    (state.record address instruction).unexplored image < state.unexplored image := by
  -- What was unexplored before either is so still, or it is the address that is recorded.
  let before (other : Nat) : Bool := !state.instructions.contains other
  let still (other : Nat) : Bool :=
    !(state.record address instruction).instructions.contains other
  have hsplit := List.countP_eq_countP_filter_add (List.range image.stop) before still
  have hbefore : ∀ other ∈ (List.range image.stop).filter still, before other = true := by
    intro other hother
    have hstill := (List.mem_filter.mp hother).2
    simp only [still, record, Std.TreeMap.contains_insert, Bool.not_or, Bool.and_eq_true] at hstill
    exact hstill.2
  have hrecorded : 0 < ((List.range image.stop).filter (!still ·)).countP before := by
    refine List.countP_pos_iff.mpr ⟨address, List.mem_filter.mpr ⟨?_, ?_⟩, ?_⟩
    · exact List.mem_range.mpr hstop
    · simp [still, record]
    · simp [before, hnew]
  rw [List.countP_eq_length.mpr hbefore, ← List.countP_eq_length_filter] at hsplit
  change (List.range image.stop).countP still < (List.range image.stop).countP before
  omega

/-- An instruction leaves at most one thread waiting. -/
theorem length_deferred?_le (flow : Flow) (address : Nat) :
    (flow.deferred? address).toList.length ≤ 1 := by
  cases flow <;> simp [Flow.deferred?]

/-- Every step brings the exploration nearer to its end. -/
theorem remaining_step_lt {image : Image} {limit : Nat} {state next : Exploration}
    {address : Nat} {rest : List Nat} (hthreads : state.threads = address :: rest)
    (hstep : state.step image limit address rest = .ok next) :
    next.remaining image < state.remaining image := by
  unfold step at hstep
  split at hstep
  · next word hword =>
    split at hstep
    · cases hstep
      simp [remaining, unexplored, hthreads]
    · next hnew =>
      have hlt := unexplored_record_lt (Instruction.ofWord word)
        (Nat.lt_of_succ_lt (Image.lt_stop_of_fetch? hword)) (Bool.eq_false_iff.mpr hnew)
      have hdeferred := length_deferred?_le (Instruction.ofWord word).flow address
      simp only [unexplored] at hlt
      unfold follow at hstep
      simp only at hstep
      split at hstep
      · cases hstep
        simp only [remaining, unexplored, hthreads, List.length_cons]
        omega
      · split at hstep
        · cases hstep
        · split at hstep
          · cases hstep
          · cases hstep
            simp only [remaining, unexplored, hthreads, List.length_cons, List.length_append]
            omega
  · cases hstep
    simp [remaining, unexplored, hthreads]

/-- Follows the threads until none is left. -/
def run (image : Image) (limit : Nat) (state : Exploration) :
    Except DisassemblyError Exploration :=
  match hthreads : state.threads with
  | [] => .ok state
  | address :: rest =>
    match hstep : state.step image limit address rest with
    | .error error => .error error
    | .ok next =>
      have := remaining_step_lt hthreads hstep
      run image limit next
termination_by state.remaining image

end Exploration

/-- Explores bytes at the load address, with a limit on the waiting threads. -/
def Disassembly.explore (bytes : Array UInt8) (limit : Nat) :
    Except DisassemblyError Disassembly := do
  let found ← Exploration.start.run (.load bytes) limit
  return ⟨bytes, found.instructions, found.labels, found.edges⟩

end ChipEight
