import ChipEight.Proofs.Exploration.Runs

/-!
# How a run ends

A step does what its case says, so that a run is determined by the steps that it takes. `Ends`
lists these steps up to the result. What two runs have in common is proved elsewhere by
induction over the steps of one of them.
-/

namespace ChipEight.Exploration

variable {image : Image} {limit : Nat} {state next : Exploration} {address : Nat}
  {rest : List Nat} {error : DisassemblyError} {outcome : Except DisassemblyError Exploration}

/-- A step that can advance to a state does so. -/
theorem Advances.step_eq (hadvances : Advances image limit state address rest next) :
    state.step image limit address rest = .ok next := by
  cases hadvances with
  | drop hdone =>
    rcases finds_or_drops image limit state address rest with ⟨word, hfinds⟩ | ⟨_, hdrop⟩
    · rcases hdone with hnone | hmem
      · rw [hfinds.word_eq] at hnone
        cases hnone
      · exact absurd hmem hfinds.new
    · exact hdrop
  | @explore word hfinds hnext =>
    rw [step_of_finds hfinds]
    cases htarget : (Instruction.ofWord word).flow.next? address with
    | none => exact follow_of_none htarget
    | some target =>
      obtain ⟨hinside, hfew⟩ := hnext target htarget
      rw [follow_of_some htarget, if_neg (Nat.not_le_of_lt hinside),
        if_neg (Nat.not_lt_of_le hfew)]

/-- A step that can fail with an error does so. -/
theorem Fails.step_eq (hfails : Fails image limit state address rest error) :
    state.step image limit address rest = .error error := by
  cases hfails with
  | outside hfinds hnext houtside =>
    rw [step_of_finds hfinds, follow_of_some hnext, if_pos houtside]
  | runaway hfinds hnext hinside hmany =>
    rw [step_of_finds hfinds, follow_of_some hnext, if_neg (Nat.not_le_of_lt hinside),
      if_pos hmany]

/-- A run from a state takes steps until no thread is left or a step fails. -/
inductive Ends (image : Image) (limit : Nat) :
    Exploration → Except DisassemblyError Exploration → Prop
  | done {state : Exploration} (hthreads : state.threads = []) :
      Ends image limit state (.ok state)
  | fail {state : Exploration} {error : DisassemblyError} {address : Nat} {rest : List Nat}
      (hthreads : state.threads = address :: rest)
      (hfails : Fails image limit state address rest error) :
      Ends image limit state (.error error)
  | step {state next : Exploration} {address : Nat} {rest : List Nat}
      {outcome : Except DisassemblyError Exploration}
      (hthreads : state.threads = address :: rest)
      (hadvances : Advances image limit state address rest next)
      (hrest : Ends image limit next outcome) : Ends image limit state outcome

/-- Every run ends with its result. -/
theorem ends_run (image : Image) (limit : Nat) (state : Exploration) :
    Ends image limit state (state.run image limit) := by
  induction state using run.induct image limit with
  | case1 state hthreads =>
    rw [run_of_nil hthreads]
    exact .done hthreads
  | case2 state address rest hthreads error hstep =>
    rw [run_of_cons image limit hthreads, hstep]
    exact .fail hthreads (fails_of_step hstep)
  | case3 state address rest hthreads next hstep _ ih =>
    rw [run_of_cons image limit hthreads, hstep]
    exact .step hthreads (advances_of_step hstep) ih

/-- A run has no other result than the one with which it ends. -/
theorem Ends.run_eq (hends : Ends image limit state outcome) :
    state.run image limit = outcome := by
  induction hends with
  | done hthreads => exact run_of_nil hthreads
  | fail hthreads hfails => rw [run_of_cons image limit hthreads, hfails.step_eq]
  | step hthreads hadvances _ ih =>
    rw [run_of_cons image limit hthreads, hadvances.step_eq]
    exact ih

end ChipEight.Exploration

namespace ChipEight.Disassembly

variable {bytes : Array UInt8} {limit : Nat}

/-- An exploration has the result of its run. -/
theorem explore_eq_map (bytes : Array UInt8) (limit : Nat) :
    explore bytes limit = (Exploration.start.run (.load bytes) limit).map fun found =>
      ⟨bytes, found.instructions, found.labels, found.edges⟩ := by
  unfold explore
  cases Exploration.start.run (.load bytes) limit <;> rfl

/-- An exploration has found what its run has found. -/
theorem explore_of_ends {found : Exploration}
    (hends : Exploration.Ends (.load bytes) limit .start (.ok found)) :
    explore bytes limit = .ok ⟨bytes, found.instructions, found.labels, found.edges⟩ := by
  rw [explore_eq_map, hends.run_eq]
  rfl

/-- An exploration that succeeds ends without an error. -/
theorem exists_ends_of_explore {disassembly : Disassembly}
    (hexplore : explore bytes limit = .ok disassembly) :
    ∃ found, Exploration.Ends (.load bytes) limit .start (.ok found) ∧
      disassembly = ⟨bytes, found.instructions, found.labels, found.edges⟩ := by
  have hends := Exploration.ends_run (.load bytes) limit .start
  rw [explore_eq_map] at hexplore
  cases hrun : Exploration.start.run (.load bytes) limit with
  | error error =>
    rw [hrun] at hexplore
    cases hexplore
  | ok found =>
    rw [hrun] at hends hexplore
    cases hexplore
    exact ⟨found, hends, rfl⟩

end ChipEight.Disassembly
