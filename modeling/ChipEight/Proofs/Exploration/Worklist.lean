import Mathlib.Data.List.Nodup
import Mathlib.Data.List.Perm.Subperm
import ChipEight.Proofs.Exploration.Agreement

/-!
# The worklist of an exploration

A run logs what it does: which threads it takes up, which words it decodes and records, and how
many threads wait whenever their number is held against the limit. Every thread but the first
was left by a recorded instruction, and each instruction leaves at most one, so that the record
bounds the threads. The record itself is bounded by the image, because no address is recorded
twice and every one holds a word.
-/

namespace ChipEight

/-- Something that a run does. -/
inductive Event
  /-- A thread is taken up. -/
  | take (address : Nat)
  /-- A word is decoded and recorded. -/
  | record (address : Nat) (word : Word)
  /-- The number of waiting threads is held against the limit. -/
  | test (waiting : Nat)
  deriving DecidableEq, Repr

namespace Event

/-- The thread that is taken up. -/
def taken? : Event → Option Nat
  | take address => some address
  | record _ _ | test _ => none

/-- The address that is recorded. -/
def recorded? : Event → Option Nat
  | record address _ => some address
  | take _ | test _ => none

/-- The threads that are taken up, in order. -/
def taken (events : List Event) : List Nat :=
  events.filterMap taken?

/-- The addresses that are recorded, in order. -/
def recorded (events : List Event) : List Nat :=
  events.filterMap recorded?

/-- Threads are taken up in the order of the events. -/
theorem taken_append (events later : List Event) :
    taken (events ++ later) = taken events ++ taken later :=
  List.filterMap_append

/-- Addresses are recorded in the order of the events. -/
theorem recorded_append (events later : List Event) :
    recorded (events ++ later) = recorded events ++ recorded later :=
  List.filterMap_append

/-- Recording a word takes up no thread. -/
theorem taken_record_cons (address : Nat) (word : Word) (events : List Event) :
    taken (.record address word :: events) = taken events :=
  rfl

/-- Recording a word records its address. -/
theorem recorded_record_cons (address : Nat) (word : Word) (events : List Event) :
    recorded (.record address word :: events) = address :: recorded events :=
  rfl

end Event

namespace Exploration

/-- The first of the waiting threads is taken up, if there is one. -/
def resume (waiting : List Nat) : List Event :=
  waiting.head?.toList.map .take

/-- What a step does at a word that it finds. -/
def followEvents (address : Nat) (word : Word) (rest : List Nat) : List Event :=
  .record address word ::
    match (Instruction.ofWord word).flow.next? address with
    | none => resume rest
    | some next =>
      if next ≥ Machine.memorySize then [] else [.test (pending address word rest).length]

/-- What a step does. -/
def stepEvents (image : Image) (state : Exploration) (address : Nat) (rest : List Nat) :
    List Event :=
  match image.fetch? address with
  | some word =>
    if state.instructions.contains address then resume rest else followEvents address word rest
  | none => resume rest

/-- What a run does until no thread is left or a step fails. -/
def log (image : Image) (limit : Nat) (state : Exploration) : List Event :=
  match hthreads : state.threads with
  | [] => []
  | address :: rest =>
    state.stepEvents image address rest ++
      match hstep : state.step image limit address rest with
      | .error _ => []
      | .ok next =>
        have := remaining_step_lt hthreads hstep
        log image limit next
termination_by state.remaining image

/-- A state is followed by the one to which its step leads. -/
def Precedes (image : Image) (limit : Nat) (state next : Exploration) : Prop :=
  ∃ address rest, state.threads = address :: rest ∧
    state.step image limit address rest = .ok next

/-- No state is followed by others without end. -/
theorem wellFounded_precedes (image : Image) (limit : Nat) :
    WellFounded fun next state => Precedes image limit state next := by
  apply Subrelation.wf _ (measure fun state : Exploration => state.remaining image).wf
  rintro next state ⟨address, rest, hthreads, hstep⟩
  exact remaining_step_lt hthreads hstep

variable {image : Image} {limit : Nat} {state : Exploration} {address : Nat} {word : Word}
  {rest : List Nat} {outcome : Except DisassemblyError Exploration}

/-- A run without threads does nothing. -/
theorem log_of_nil (hthreads : state.threads = []) : state.log image limit = [] := by
  unfold log
  split
  · rfl
  · next hcons => simp [hthreads] at hcons

/-- A run with a thread does what its first step does, and goes on from there. -/
theorem log_of_cons (hthreads : state.threads = address :: rest) :
    state.log image limit = state.stepEvents image address rest ++
      match state.step image limit address rest with
      | .error _ => []
      | .ok next => next.log image limit := by
  rw [log.eq_def]
  split
  · next hnil => simp [hthreads] at hnil
  · next other others hcons =>
    obtain ⟨rfl, rfl⟩ := List.cons.inj (hthreads.symm.trans hcons)
    split <;> simp_all

/-- A step that finds no word takes up the next thread. -/
theorem stepEvents_of_done (hdone : image.fetch? address = none ∨ address ∈ state.instructions) :
    state.stepEvents image address rest = resume rest := by
  unfold stepEvents
  cases hword : image.fetch? address with
  | none => rfl
  | some word =>
    have hmem : address ∈ state.instructions := by simpa [hword] using hdone
    exact if_pos (Std.TreeMap.contains_iff_mem.mpr hmem)

/-- A step that finds a word records it. -/
theorem stepEvents_of_finds (hfinds : Finds image state address word) :
    state.stepEvents image address rest = followEvents address word rest := by
  have hnew : ¬state.instructions.contains address = true :=
    mt Std.TreeMap.contains_iff_mem.mp hfinds.new
  simp only [stepEvents, hfinds.word_eq, if_neg hnew]

/-- A run whose first step fails does no more than that step. -/
theorem log_of_fails {error : DisassemblyError} (hthreads : state.threads = address :: rest)
    (hfails : Fails image limit state address rest error) :
    state.log image limit = state.stepEvents image address rest := by
  rw [log_of_cons hthreads, hfails.step_eq]
  exact List.append_nil _

/-- A run goes on from the state to which its first step leads. -/
theorem log_of_advances {next : Exploration} (hthreads : state.threads = address :: rest)
    (hadvances : Advances image limit state address rest next) :
    state.log image limit = state.stepEvents image address rest ++ next.log image limit := by
  rw [log_of_cons hthreads, hadvances.step_eq]

/-- Taking up a thread records nothing. -/
theorem recorded_resume (waiting : List Nat) : Event.recorded (resume waiting) = [] := by
  cases waiting <;> rfl

/-- Of the waiting threads, one is taken up, and the others go on waiting. -/
theorem length_taken_resume (waiting : List Nat) :
    (Event.taken (resume waiting)).length + (waiting.length - 1) = waiting.length := by
  cases waiting with
  | nil => rfl
  | cons thread waiting =>
    change 1 + (waiting.length + 1 - 1) = waiting.length + 1
    omega

/-- A word that is found is recorded once. -/
theorem recorded_followEvents (address : Nat) (word : Word) (rest : List Nat) :
    Event.recorded (followEvents address word rest) = [address] := by
  rw [followEvents, Event.recorded_record_cons]
  congr 1
  split
  · exact recorded_resume rest
  · split <;> rfl

/-- An instruction leaves at most one more thread waiting. -/
theorem length_pending_le (address : Nat) (word : Word) (rest : List Nat) :
    (pending address word rest).length ≤ rest.length + 1 := by
  have hdeferred := length_deferred?_le (Instruction.ofWord word).flow address
  rw [pending, List.length_append]
  omega

/-- A step that holds a number against the limit has recorded a word, and counts at most one more
thread than waited before. -/
theorem of_test_mem_stepEvents {waiting : Nat}
    (htest : .test waiting ∈ state.stepEvents image address rest) :
    waiting ≤ rest.length + 1 ∧
      (Event.recorded (state.stepEvents image address rest)).length = 1 := by
  have hresume : .test waiting ∉ resume rest := by simp [resume]
  rcases finds_or_drops image 0 state address rest with ⟨word, hfinds⟩ | ⟨hdone, _⟩
  · rw [stepEvents_of_finds hfinds] at htest ⊢
    refine ⟨?_, by rw [recorded_followEvents, List.length_singleton]⟩
    unfold followEvents at htest
    split at htest
    · simp [hresume] at htest
    · split at htest
      · simp at htest
      · obtain rfl : waiting = (pending address word rest).length := by simpa using htest
        exact length_pending_le address word rest
  · rw [stepEvents_of_done hdone] at htest
    exact absurd htest hresume

/-- What waits after an instruction that ends its thread has waited before. -/
theorem threads_explored_of_none (hnext : (Instruction.ofWord word).flow.next? address = none) :
    (state.explored address word rest).threads = rest := by
  simp [explored, pending, hnext, deferred?_eq_none_of_next? hnext]

/-- An instruction that goes on leaves the threads that wait behind the place where it does. -/
theorem threads_explored_of_some {target : Nat}
    (hnext : (Instruction.ofWord word).flow.next? address = some target) :
    (state.explored address word rest).threads = target :: pending address word rest := by
  simp [explored, hnext]

/-- A step takes up a thread only where the one before has ended. -/
theorem taken_followEvents (address : Nat) (word : Word) (rest : List Nat) :
    Event.taken (followEvents address word rest) =
      match (Instruction.ofWord word).flow.next? address with
      | none => Event.taken (resume rest)
      | some _ => [] := by
  rw [followEvents, Event.taken_record_cons]
  split
  · rfl
  · split <;> rfl

/-- A step that advances takes up threads that waited, and leaves at most one for each word that
it records. -/
theorem Advances.accounts {next : Exploration}
    (hadvances : Advances image limit state address rest next) :
    (Event.taken (state.stepEvents image address rest)).length + (next.threads.length - 1) ≤
      rest.length + (Event.recorded (state.stepEvents image address rest)).length := by
  have hresume := length_taken_resume rest
  cases hadvances with
  | drop hdone =>
    rw [stepEvents_of_done hdone, recorded_resume]
    exact Nat.le_of_eq hresume
  | @explore word hfinds hnext =>
    have hpending := length_pending_le address word rest
    rw [stepEvents_of_finds hfinds, recorded_followEvents, taken_followEvents,
      List.length_singleton]
    cases htarget : (Instruction.ofWord word).flow.next? address with
    | none =>
      rw [threads_explored_of_none htarget]
      exact Nat.le_succ_of_le (Nat.le_of_eq hresume)
    | some target =>
      rw [threads_explored_of_some htarget, List.length_cons, List.length_nil]
      omega

/-- A step that fails takes up no thread. -/
theorem Fails.taken_eq {error : DisassemblyError}
    (hfails : Fails image limit state address rest error) :
    Event.taken (state.stepEvents image address rest) = [] := by
  cases hfails with
  | outside hfinds hnext | runaway hfinds hnext =>
    rw [stepEvents_of_finds hfinds, taken_followEvents, hnext]

/-- A run takes up the threads that wait and at most one for each word that it records. -/
theorem Ends.length_taken_le (hends : Ends image limit state outcome) :
    (Event.taken (state.log image limit)).length ≤
      state.threads.length - 1 + (Event.recorded (state.log image limit)).length := by
  induction hends with
  | done hthreads =>
    rw [log_of_nil hthreads]
    exact Nat.zero_le _
  | fail hthreads hfails =>
    rw [log_of_fails hthreads hfails, hfails.taken_eq]
    exact Nat.zero_le _
  | step hthreads hadvances _ ih =>
    have hstep := hadvances.accounts
    rw [log_of_advances hthreads hadvances, hthreads, Event.taken_append, Event.recorded_append,
      List.length_append, List.length_append, List.length_cons]
    omega

/-- The numbers that a run holds against its limit count threads that wait from the start and at
most one for each word that it records. -/
theorem Ends.test_le_recorded (hends : Ends image limit state outcome) {waiting : Nat}
    (htest : .test waiting ∈ state.log image limit) :
    waiting ≤ state.threads.length - 1 +
      (Event.recorded (state.log image limit)).length := by
  induction hends with
  | done hthreads =>
    rw [log_of_nil hthreads] at htest
    cases htest
  | fail hthreads hfails =>
    rw [log_of_fails hthreads hfails] at htest ⊢
    obtain ⟨hle, hone⟩ := of_test_mem_stepEvents htest
    rwa [hthreads, hone]
  | step hthreads hadvances _ ih =>
    have hstep := hadvances.accounts
    rw [log_of_advances hthreads hadvances] at htest ⊢
    rw [hthreads, Event.recorded_append, List.length_append, List.length_cons]
    rcases List.mem_append.mp htest with hfirst | hlater
    · obtain ⟨hle, hone⟩ := of_test_mem_stepEvents hfirst
      omega
    · have hle := ih hlater
      omega

/-- A step that advances leaves no more threads than the limit allows beside the current one. -/
theorem Advances.length_threads_le {next : Exploration}
    (hadvances : Advances image limit state address rest next) (hrest : rest.length ≤ limit) :
    next.threads.length ≤ limit + 1 := by
  cases hadvances with
  | drop => exact Nat.le_succ_of_le hrest
  | @explore word _ hnext =>
    cases htarget : (Instruction.ofWord word).flow.next? address with
    | none =>
      rw [threads_explored_of_none htarget]
      exact Nat.le_succ_of_le hrest
    | some target =>
      obtain ⟨_, hfew⟩ := hnext target htarget
      rw [threads_explored_of_some htarget]
      exact Nat.succ_le_succ hfew

/-- A run that starts within its limit never tests a number that exceeds it by more than one. -/
theorem Ends.test_le_limit (hends : Ends image limit state outcome)
    (hlength : state.threads.length ≤ limit + 1) {waiting : Nat}
    (htest : .test waiting ∈ state.log image limit) : waiting ≤ limit + 1 := by
  induction hends with
  | done hthreads =>
    rw [log_of_nil hthreads] at htest
    cases htest
  | fail hthreads hfails =>
    rw [log_of_fails hthreads hfails] at htest
    rw [hthreads] at hlength
    exact Nat.le_trans (of_test_mem_stepEvents htest).1 hlength
  | step hthreads hadvances _ ih =>
    rw [log_of_advances hthreads hadvances] at htest
    rw [hthreads] at hlength
    rcases List.mem_append.mp htest with hfirst | hlater
    · exact Nat.le_trans (of_test_mem_stepEvents hfirst).1 hlength
    · exact ih (hadvances.length_threads_le (Nat.le_of_succ_le_succ hlength)) hlater

/-- A run gives up once it has tested a number that exceeds the limit. -/
theorem Ends.of_runaway {opcode : Word} {count bound : Nat} (hends : Ends image limit state outcome)
    (hrunaway : outcome = .error (.runawayBranching address opcode count bound)) :
    .test count ∈ state.log image limit ∧ limit < count ∧ bound = limit := by
  induction hends with
  | done => cases hrunaway
  | fail hthreads hfails =>
    rw [log_of_fails hthreads hfails]
    cases hrunaway
    cases hfails with
    | runaway hfinds hnext hinside hmany =>
      refine ⟨?_, hmany, rfl⟩
      rw [stepEvents_of_finds hfinds]
      simp [followEvents, hnext, Nat.not_le_of_lt hinside]
  | step hthreads hadvances _ ih =>
    rw [log_of_advances hthreads hadvances]
    obtain ⟨htest, hmany, hbound⟩ := ih hrunaway
    exact ⟨List.mem_append_right _ htest, hmany, hbound⟩

/-- A step records an address at most once, and only if it holds a word and has not been
explored. -/
theorem recorded_stepEvents (image : Image) (state : Exploration) (address : Nat)
    (rest : List Nat) :
    (Event.recorded (state.stepEvents image address rest)).Nodup ∧
      ∀ other ∈ Event.recorded (state.stepEvents image address rest),
        other ∉ state.instructions ∧ ∃ word, image.fetch? other = some word := by
  rcases finds_or_drops image 0 state address rest with ⟨word, hfinds⟩ | ⟨hdone, _⟩
  · rw [stepEvents_of_finds hfinds, recorded_followEvents]
    refine ⟨List.nodup_singleton address, fun other hmem => ?_⟩
    obtain rfl := List.mem_singleton.mp hmem
    exact ⟨hfinds.new, word, hfinds.word_eq⟩
  · rw [stepEvents_of_done hdone, recorded_resume]
    exact ⟨List.nodup_nil, fun _ hmem => nomatch hmem⟩

/-- After a step that advances, the explored addresses are those from before and those that it
has recorded. -/
theorem Advances.mem_instructions_iff {next : Exploration}
    (hadvances : Advances image limit state address rest next) (other : Nat) :
    other ∈ next.instructions ↔ other ∈ state.instructions ∨
      other ∈ Event.recorded (state.stepEvents image address rest) := by
  cases hadvances with
  | drop hdone =>
    rw [stepEvents_of_done hdone, recorded_resume]
    simp
  | explore hfinds =>
    rw [stepEvents_of_finds hfinds, recorded_followEvents, List.mem_singleton,
      mem_instructions_explored, or_comm, eq_comm]

/-- A run records addresses that hold words and have not been explored before, each once. -/
theorem Ends.recorded_log (hends : Ends image limit state outcome) :
    (Event.recorded (state.log image limit)).Nodup ∧
      ∀ other ∈ Event.recorded (state.log image limit),
        other ∉ state.instructions ∧ ∃ word, image.fetch? other = some word := by
  induction hends with
  | done hthreads =>
    rw [log_of_nil hthreads]
    exact ⟨List.nodup_nil, fun _ hmem => nomatch hmem⟩
  | fail hthreads hfails =>
    rw [log_of_fails hthreads hfails]
    exact recorded_stepEvents _ _ _ _
  | @step state next address rest _ hthreads hadvances _ ih =>
    obtain ⟨hfirst, hnew⟩ := recorded_stepEvents image state address rest
    obtain ⟨hlater, hunexplored⟩ := ih
    rw [log_of_advances hthreads hadvances, Event.recorded_append]
    constructor
    · refine List.nodup_append.mpr ⟨hfirst, hlater, ?_⟩
      rintro other hmem _ hmem' rfl
      exact (hunexplored other hmem').1 ((hadvances.mem_instructions_iff other).mpr (.inr hmem))
    · intro other hmem
      rcases List.mem_append.mp hmem with hmem | hmem
      · exact hnew other hmem
      · obtain ⟨hother, hword⟩ := hunexplored other hmem
        exact ⟨fun hold => hother ((hadvances.mem_instructions_iff other).mpr (.inl hold)), hword⟩

/-- A run that succeeds has explored what was explored before and what it has recorded. -/
theorem Ends.mem_instructions_iff {found : Exploration} (hends : Ends image limit state outcome)
    (hok : outcome = .ok found) (other : Nat) :
    other ∈ found.instructions ↔
      other ∈ state.instructions ∨ other ∈ Event.recorded (state.log image limit) := by
  induction hends with
  | done hthreads =>
    cases hok
    rw [log_of_nil hthreads]
    simp [Event.recorded]
  | fail => cases hok
  | step hthreads hadvances _ ih =>
    rw [log_of_advances hthreads hadvances, Event.recorded_append, List.mem_append, ih hok,
      hadvances.mem_instructions_iff, or_assoc]

end Exploration

namespace Disassembly

/-- What the exploration of some bytes does, from taking up the load address on. -/
def log (bytes : Array UInt8) (limit : Nat) : List Event :=
  .take Machine.loadAddress :: Exploration.start.log (.load bytes) limit

/-- Fewer addresses than bytes hold a word. -/
theorem length_le_of_words {bytes : Array UInt8} {addresses : List Nat} (hnodup : addresses.Nodup)
    (hwords : ∀ address ∈ addresses, ∃ word, (Image.load bytes).fetch? address = some word) :
    addresses.length ≤ bytes.size - 1 := by
  have hsubset : addresses ⊆ List.range' Machine.loadAddress (bytes.size - 1) := by
    intro address hmem
    obtain ⟨word, hword⟩ := hwords address hmem
    have hle := (Image.fetch?_load_eq_some_iff.mp hword).le_address
    have hlt := Nat.lt_of_lt_of_le (Image.lt_stop_of_fetch? hword) (Image.stop_load_le bytes)
    rw [List.mem_range'_1]
    omega
  have hle := (hnodup.subperm hsubset).length_le
  rwa [List.length_range'] at hle

/-- An exploration fails as its run does. -/
theorem explore_eq_error_iff {bytes : Array UInt8} {limit : Nat} {error : DisassemblyError} :
    explore bytes limit = .error error ↔
      Exploration.start.run (.load bytes) limit = .error error := by
  rw [explore_eq_map]
  cases Exploration.start.run (.load bytes) limit <;> simp [Except.map]

/-- An exploration ends, and its worklist stays small. It records every address at most once, and
fewer addresses than the image has bytes; it takes up at most one thread more than it records
addresses; it never holds a number against its limit that exceeds it by more than one; and if it
gives up, it does so with exactly one thread too many, which cannot happen if the limit reaches
the number of addresses that can hold a word. -/
theorem explore_bounds_worklist (bytes : Array UInt8) (limit : Nat) :
    WellFounded (fun next state => Exploration.Precedes (.load bytes) limit state next) ∧
    (Event.recorded (log bytes limit)).Nodup ∧
    (Event.recorded (log bytes limit)).length ≤ bytes.size - 1 ∧
    (∀ disassembly, explore bytes limit = .ok disassembly → ∀ address,
      address ∈ disassembly.instructions ↔ address ∈ Event.recorded (log bytes limit)) ∧
    (Event.taken (log bytes limit)).length ≤ 1 + (Event.recorded (log bytes limit)).length ∧
    (∀ waiting, .test waiting ∈ log bytes limit → waiting ≤ limit + 1) ∧
    (∀ address opcode pending bound,
      explore bytes limit = .error (.runawayBranching address opcode pending bound) →
        pending = limit + 1 ∧ bound = limit) ∧
    (bytes.size - 1 ≤ limit → ∀ address opcode pending bound,
      explore bytes limit ≠ .error (.runawayBranching address opcode pending bound)) := by
  have hends := Exploration.ends_run (.load bytes) limit .start
  obtain ⟨hnodup, hnew⟩ := hends.recorded_log
  have hrecorded := length_le_of_words hnodup fun address hmem => (hnew address hmem).2
  have htaken : (Event.taken (Exploration.start.log (.load bytes) limit)).length ≤
      0 + (Event.recorded (Exploration.start.log (.load bytes) limit)).length :=
    hends.length_taken_le
  have hlimit : ∀ waiting, .test waiting ∈ Exploration.start.log (.load bytes) limit →
      waiting ≤ limit + 1 := fun waiting htest =>
    hends.test_le_limit (Nat.succ_le_succ (Nat.zero_le limit)) htest
  refine ⟨Exploration.wellFounded_precedes _ _, hnodup, hrecorded, ?_, ?_, ?_, ?_, ?_⟩
  · intro disassembly hexplore address
    obtain ⟨found, hfound, rfl⟩ := exists_ends_of_explore hexplore
    rw [hfound.mem_instructions_iff rfl]
    simp [Exploration.start, log, Event.recorded, Event.recorded?]
  · change (Event.taken (Exploration.start.log (.load bytes) limit)).length + 1 ≤
      1 + (Event.recorded (Exploration.start.log (.load bytes) limit)).length
    omega
  · intro waiting htest
    apply hlimit
    simpa [log] using htest
  · intro address opcode pending bound hexplore
    obtain ⟨htest, hmany, hbound⟩ := hends.of_runaway (explore_eq_error_iff.mp hexplore)
    have hle := hlimit pending htest
    exact ⟨by omega, hbound⟩
  · intro henough address opcode pending bound hexplore
    obtain ⟨htest, hmany, _⟩ := hends.of_runaway (explore_eq_error_iff.mp hexplore)
    have hle : pending ≤ 0 + (Event.recorded (Exploration.start.log (.load bytes) limit)).length :=
      hends.test_le_recorded htest
    omega

/-- With one thread allowed to wait, two skips in a row are one too many; with one for each address
of a word, no number of skips is. -/
theorem explore_gives_up_at_second_skip :
    log #[0x30, 0x00, 0x30, 0x00, 0x30, 0x00, 0x30, 0x00] 1 =
        [.take 0x200, .record 0x200 0x3000, .test 1, .record 0x204 0x3000, .test 2] ∧
      (∃ pending, explore #[0x30, 0x00, 0x30, 0x00, 0x30, 0x00, 0x30, 0x00] 1 =
        .error (.runawayBranching 0x204 0x3000 pending 1) ∧ pending = 2) ∧
      ∀ address opcode pending bound,
        explore #[0x30, 0x00, 0x30, 0x00, 0x30, 0x00, 0x30, 0x00] 7 ≠
          .error (.runawayBranching address opcode pending bound) := by
  have hexplore : explore #[0x30, 0x00, 0x30, 0x00, 0x30, 0x00, 0x30, 0x00] 1 =
      .error (.runawayBranching 0x204 0x3000 2 1) := by
    cbv
  obtain ⟨_, _, _, _, _, _, hgives, _⟩ :=
    explore_bounds_worklist #[0x30, 0x00, 0x30, 0x00, 0x30, 0x00, 0x30, 0x00] 1
  obtain ⟨_, _, _, _, _, _, _, hfits⟩ :=
    explore_bounds_worklist #[0x30, 0x00, 0x30, 0x00, 0x30, 0x00, 0x30, 0x00] 7
  exact ⟨by cbv, ⟨2, hexplore, (hgives _ _ _ _ hexplore).1⟩, hfits (by decide)⟩

end Disassembly

end ChipEight
