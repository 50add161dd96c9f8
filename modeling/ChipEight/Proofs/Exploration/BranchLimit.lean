import ChipEight.Proofs.Basics
import ChipEight.Proofs.Exploration.Outcomes

/-!
# The limit on waiting threads

A step asks its limit one question, whether too many threads wait, and it asks it after all
others. So a run that does not give up takes the same steps under every larger limit, and the
limit has no part in what an exploration finds or in where it leaves memory.
-/

namespace ChipEight

namespace Exploration

variable {image : Image} {limit larger : Nat} {state next : Exploration} {address : Nat}
  {rest : List Nat} {error : DisassemblyError} {outcome : Except DisassemblyError Exploration}

/-- A step that advances under a limit does so under a larger one. -/
theorem Advances.of_limit_le (hadvances : Advances image limit state address rest next)
    (hle : limit ≤ larger) : Advances image larger state address rest next := by
  cases hadvances with
  | drop hdone => exact .drop hdone
  | explore hfinds hnext =>
    refine .explore hfinds fun target htarget => ?_
    obtain ⟨hinside, hfew⟩ := hnext target htarget
    exact ⟨hinside, Nat.le_trans hfew hle⟩

/-- A step that leaves memory under a limit does so under any other one. -/
theorem Fails.of_not_runaway (hfails : Fails image limit state address rest error)
    (hfew : ∀ site opcode count bound, error ≠ .runawayBranching site opcode count bound) :
    Fails image larger state address rest error := by
  cases hfails with
  | outside hfinds hnext houtside => exact .outside hfinds hnext houtside
  | runaway => exact absurd rfl (hfew _ _ _ _)

/-- A run that does not give up ends in the same way under every larger limit. -/
theorem Ends.of_limit_le (hends : Ends image limit state outcome) (hle : limit ≤ larger)
    (hfew : ∀ site opcode count bound,
      outcome ≠ .error (.runawayBranching site opcode count bound)) :
    Ends image larger state outcome := by
  induction hends with
  | done hthreads => exact .done hthreads
  | fail hthreads hfails =>
    refine .fail hthreads (hfails.of_not_runaway fun site opcode count bound heq => ?_)
    exact hfew site opcode count bound (congrArg _ heq)
  | step hthreads hadvances _ ih => exact .step hthreads (hadvances.of_limit_le hle) (ih hfew)

end Exploration

namespace Disassembly

/-- An exploration that does not give up has the same result under every larger limit: it finds
the same instructions, labels and edges, the edges in the same order, or it leaves memory at the
same instruction. -/
theorem explore_of_limit_le {bytes : Array UInt8} {limit larger : Nat} (hle : limit ≤ larger)
    (hfew : ∀ address opcode pending bound,
      explore bytes limit ≠ .error (.runawayBranching address opcode pending bound)) :
    explore bytes larger = explore bytes limit := by
  have hends := Exploration.ends_run (.load bytes) limit .start
  have hlarger := hends.of_limit_le hle fun site opcode count bound heq => by
    refine hfew site opcode count bound ?_
    rw [explore_eq_map, heq]
    rfl
  rw [explore_eq_map, explore_eq_map, hlarger.run_eq]

/-- A skip over a jump leaves one thread waiting. An exploration that allows none gives up, and
whatever more than one is allowed, it finds what it finds with one. -/
theorem explore_of_one_waiting :
    explore #[0x30, 0x01, 0x12, 0x00, 0x00, 0xEE] 0 =
        .error (.runawayBranching 0x200 0x3001 1 0) ∧
      ∃ disassembly, explore #[0x30, 0x01, 0x12, 0x00, 0x00, 0xEE] 1 = .ok disassembly ∧
        explore #[0x30, 0x01, 0x12, 0x00, 0x00, 0xEE] 48 = .ok disassembly := by
  obtain ⟨disassembly, hexplore, -⟩ : ∃ disassembly,
      explore #[0x30, 0x01, 0x12, 0x00, 0x00, 0xEE] 1 = .ok disassembly ∧
        disassembly.instructions.keys = [0x200, 0x202, 0x204] := by
    decide +kernel
  refine ⟨by cbv, disassembly, hexplore, ?_⟩
  have hsame := explore_of_limit_le (by decide : 1 ≤ 48) fun address opcode pending bound heq => by
    rw [hexplore] at heq
    cases heq
  rw [hsame, hexplore]

end Disassembly

end ChipEight
