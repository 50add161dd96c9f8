import ChipEight.Exploration

/-!
# Runs of an exploration

A step either drops the current thread or explores a new address, and it fails in one
of two ways. The step function is taken apart here once; what an exploration finds is
proved elsewhere by induction over the states that it reaches.
-/

namespace ChipEight.Exploration

/-- A step at an address finds a word there: the image holds one, and the address has
not been explored. -/
structure Finds (image : Image) (state : Exploration) (address : Nat) (word : Word) : Prop where
  word_eq : image.fetch? address = some word
  new : address ∉ state.instructions

/-- The threads that wait once the word at an address has been explored. -/
def pending (address : Nat) (word : Word) (rest : List Nat) : List Nat :=
  ((Instruction.ofWord word).flow.deferred? address).toList ++ rest

/-- The state after the word at an address has been explored. -/
def explored (state : Exploration) (address : Nat) (word : Word) (rest : List Nat) :
    Exploration :=
  { state.record address (.ofWord word) with
    threads := ((Instruction.ofWord word).flow.next? address).toList ++
      pending address word rest }

/-- The successful steps from a state whose current thread is at an address. -/
inductive Advances (image : Image) (limit : Nat) (state : Exploration) (address : Nat)
    (rest : List Nat) : Exploration → Prop
  /-- The thread ends where no word is left to explore. -/
  | drop (hdone : image.fetch? address = none ∨ address ∈ state.instructions) :
      Advances image limit state address rest { state with threads := rest }
  /-- The thread goes on inside memory, and not too many threads wait. -/
  | explore {word : Word} (hfinds : Finds image state address word)
      (hnext : ∀ next, (Instruction.ofWord word).flow.next? address = some next →
        next < Machine.memorySize ∧ (pending address word rest).length ≤ limit) :
      Advances image limit state address rest (state.explored address word rest)

/-- The failures of a step from a state whose current thread is at an address. -/
inductive Fails (image : Image) (limit : Nat) (state : Exploration) (address : Nat)
    (rest : List Nat) : DisassemblyError → Prop
  /-- The thread would go on outside memory. -/
  | outside {word : Word} {next : Nat} (hfinds : Finds image state address word)
      (hnext : (Instruction.ofWord word).flow.next? address = some next)
      (houtside : Machine.memorySize ≤ next) :
      Fails image limit state address rest (.addressOutOfRange address word next)
  /-- The thread goes on inside memory, but too many threads wait. -/
  | runaway {word : Word} {next : Nat} (hfinds : Finds image state address word)
      (hnext : (Instruction.ofWord word).flow.next? address = some next)
      (hinside : next < Machine.memorySize)
      (hmany : limit < (pending address word rest).length) :
      Fails image limit state address rest
        (.runawayBranching address word (pending address word rest).length limit)

/-- An instruction that ends its thread leaves nothing to come back to. -/
theorem deferred?_eq_none_of_next? {flow : Flow} {address : Nat}
    (hnext : flow.next? address = none) : flow.deferred? address = none := by
  cases flow <;> simp_all [Flow.next?, Flow.deferred?]

/-- Following an instruction that ends its thread leaves the threads that wait. -/
theorem follow_of_none {state : Exploration} {limit address : Nat} {word : Word}
    {rest : List Nat} (hnext : (Instruction.ofWord word).flow.next? address = none) :
    state.follow limit address word rest = .ok (state.explored address word rest) := by
  simp [follow, explored, pending, hnext, deferred?_eq_none_of_next? hnext]

/-- Following an instruction tests first where it goes on, and then how many threads wait. -/
theorem follow_of_some {state : Exploration} {limit address target : Nat} {word : Word}
    {rest : List Nat} (hnext : (Instruction.ofWord word).flow.next? address = some target) :
    state.follow limit address word rest =
      if Machine.memorySize ≤ target then .error (.addressOutOfRange address word target)
      else if limit < (pending address word rest).length then
        .error (.runawayBranching address word (pending address word rest).length limit)
      else .ok (state.explored address word rest) := by
  simp [follow, explored, pending, hnext]

/-- A step at a word that it finds follows the instruction of that word. -/
theorem step_of_finds {image : Image} {limit : Nat} {state : Exploration} {address : Nat}
    {word : Word} (hfinds : Finds image state address word) (rest : List Nat) :
    state.step image limit address rest = state.follow limit address word rest := by
  have hnew : ¬state.instructions.contains address = true :=
    mt Std.TreeMap.contains_iff_mem.mp hfinds.new
  simp [step, hfinds.word_eq, hnew]

/-- A step finds a word, or it drops its thread. -/
theorem finds_or_drops (image : Image) (limit : Nat) (state : Exploration) (address : Nat)
    (rest : List Nat) :
    (∃ word, Finds image state address word) ∨
      ((image.fetch? address = none ∨ address ∈ state.instructions) ∧
        state.step image limit address rest = .ok { state with threads := rest }) := by
  cases hword : image.fetch? address with
  | none => exact Or.inr ⟨Or.inl rfl, by simp [step, hword]⟩
  | some word =>
    by_cases hmem : address ∈ state.instructions
    · have hcontains := Std.TreeMap.contains_iff_mem.mpr hmem
      exact Or.inr ⟨Or.inr hmem, by simp [step, hword, hcontains]⟩
    · exact Or.inl ⟨word, hword, hmem⟩

/-- Every successful step drops its thread or explores a word. -/
theorem advances_of_step {image : Image} {limit : Nat} {state next : Exploration}
    {address : Nat} {rest : List Nat}
    (hstep : state.step image limit address rest = .ok next) :
    Advances image limit state address rest next := by
  rcases finds_or_drops image limit state address rest with ⟨word, hfinds⟩ | ⟨hdone, hdrop⟩
  · rw [step_of_finds hfinds] at hstep
    cases htarget : (Instruction.ofWord word).flow.next? address with
    | none =>
      rw [follow_of_none htarget, Except.ok.injEq] at hstep
      exact hstep ▸ .explore hfinds (by simp [htarget])
    | some target =>
      rw [follow_of_some htarget] at hstep
      split at hstep
      · cases hstep
      · next hinside =>
        split at hstep
        · cases hstep
        · next hfew =>
          rw [Except.ok.injEq] at hstep
          refine hstep ▸ .explore hfinds fun other hother => ?_
          rw [htarget, Option.some.injEq] at hother
          exact ⟨hother ▸ Nat.lt_of_not_le hinside, Nat.le_of_not_lt hfew⟩
  · rw [hdrop, Except.ok.injEq] at hstep
    exact hstep ▸ .drop hdone

/-- Every failed step goes outside memory or leaves too many threads. -/
theorem fails_of_step {image : Image} {limit : Nat} {state : Exploration}
    {error : DisassemblyError} {address : Nat} {rest : List Nat}
    (hstep : state.step image limit address rest = .error error) :
    Fails image limit state address rest error := by
  rcases finds_or_drops image limit state address rest with ⟨word, hfinds⟩ | ⟨_, hdrop⟩
  · rw [step_of_finds hfinds] at hstep
    cases htarget : (Instruction.ofWord word).flow.next? address with
    | none =>
      rw [follow_of_none htarget] at hstep
      cases hstep
    | some target =>
      rw [follow_of_some htarget] at hstep
      split at hstep
      · next houtside =>
        rw [Except.error.injEq] at hstep
        exact hstep ▸ .outside hfinds htarget houtside
      · next hinside =>
        split at hstep
        · next hmany =>
          rw [Except.error.injEq] at hstep
          exact hstep ▸ .runaway hfinds htarget (Nat.lt_of_not_le hinside) hmany
        · cases hstep
  · rw [hdrop] at hstep
    cases hstep

/-- The states that an exploration of an image can reach. -/
inductive Reached (image : Image) (limit : Nat) : Exploration → Prop
  | start : Reached image limit .start
  | step {state next : Exploration} {address : Nat} {rest : List Nat}
      (hreached : Reached image limit state) (hthreads : state.threads = address :: rest)
      (hadvances : Advances image limit state address rest next) : Reached image limit next

/-- A run without threads has ended. -/
theorem run_of_nil {image : Image} {limit : Nat} {state : Exploration}
    (hthreads : state.threads = []) : state.run image limit = .ok state := by
  unfold run
  split
  · rfl
  · next hcons => simp [hthreads] at hcons

/-- A run with a thread takes a step and goes on from there. -/
theorem run_of_cons (image : Image) (limit : Nat) {state : Exploration} {address : Nat}
    {rest : List Nat} (hthreads : state.threads = address :: rest) :
    state.run image limit =
      match state.step image limit address rest with
      | .error error => .error error
      | .ok next => next.run image limit := by
  rw [run.eq_def]
  split
  · next hnil => simp [hthreads] at hnil
  · next other others hcons =>
    obtain ⟨rfl, rfl⟩ := List.cons.inj (hthreads.symm.trans hcons)
    split <;> simp_all

/-- A run from a reached state ends in a reached state without threads, or a step from
a reached state fails. -/
theorem Reached.run_cases {image : Image} {limit : Nat} {state : Exploration}
    (hreached : Reached image limit state) :
    (∃ found, state.run image limit = .ok found ∧ Reached image limit found ∧
      found.threads = []) ∨
    ∃ error last address rest, state.run image limit = .error error ∧
      Reached image limit last ∧ last.threads = address :: rest ∧
      Fails image limit last address rest error := by
  induction state using run.induct image limit with
  | case1 state hthreads => exact Or.inl ⟨state, run_of_nil hthreads, hreached, hthreads⟩
  | case2 state address rest hthreads error hstep =>
    have hrun := run_of_cons image limit hthreads
    rw [hstep] at hrun
    exact Or.inr ⟨error, state, address, rest, hrun, hreached, hthreads, fails_of_step hstep⟩
  | case3 state address rest hthreads next hstep _ ih =>
    have hrun := run_of_cons image limit hthreads
    rw [hstep] at hrun
    rw [hrun]
    exact ih (hreached.step hthreads (advances_of_step hstep))

/-- A run that succeeds ends in a reached state without threads. -/
theorem Reached.of_run_eq_ok {image : Image} {limit : Nat} {found : Exploration}
    (hrun : Exploration.start.run image limit = .ok found) :
    Reached image limit found ∧ found.threads = [] := by
  rcases (@Reached.start image limit).run_cases with
    ⟨other, hok, hother⟩ | ⟨error, _, _, _, herror, _⟩
  · rw [hrun, Except.ok.injEq] at hok
    exact hok ▸ hother
  · rw [hrun] at herror
    cases herror

end ChipEight.Exploration
