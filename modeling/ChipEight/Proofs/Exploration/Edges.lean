import ChipEight.Proofs.Exploration.Reachability
import ChipEight.Proofs.Listing.Lines

/-!
# The edges and labels of an exploration

An address is explored once, and what its instruction says of the control flow is recorded then.
So the edges are those of the explored instructions, each recorded once, and the labels are those
of the addresses to which a jump or a call leads, inside the image or not.
-/

namespace ChipEight

/-- A jump or a call. -/
def Edge.IsBranch (edge : Edge) : Prop :=
  edge.kind = .jump ∨ edge.kind = .call

/-- The edges from an instruction at an address. A return has none, and a call has no edge to
the place where it returns. Sums of addresses wrap. -/
def Instruction.edges (instruction : Instruction) (address : Nat) : List Edge :=
  match instruction.mnemonic with
  | .ret => []
  | .jmp => [⟨address, instruction.target, .jump⟩]
  | .jsr => [⟨address, instruction.target, .call⟩]
  | .skeq | .skne | .skpr | .skup =>
    [⟨address, Machine.wrap (address + 2), .sequential⟩,
      ⟨address, Machine.wrap (address + 4), .skip⟩]
  | _ => [⟨address, Machine.wrap (address + 2), .sequential⟩]

namespace Instruction

/-- The edges of an instruction are those of its flow. -/
theorem edges_flow (instruction : Instruction) (address : Nat) :
    instruction.flow.edges address = instruction.edges address := by
  unfold flow edges
  cases instruction.mnemonic <;> rfl

/-- The edges of an instruction start at its address. -/
theorem source_eq_of_mem_edges {instruction : Instruction} {address : Nat} {edge : Edge}
    (hmem : edge ∈ instruction.edges address) : edge.source = address := by
  have hall : ∀ flow : Flow, ∀ edge ∈ flow.edges address, edge.source = address := by
    intro flow
    cases flow <;> simp [Flow.edges]
  exact hall instruction.flow edge (edges_flow instruction address ▸ hmem)

/-- An edge leads to a successor. -/
theorem target_mem_successors {instruction : Instruction} {address : Nat}
    {edge : Edge} (hmem : edge ∈ instruction.edges address) :
    edge.target ∈ instruction.successors address := by
  have hall : ∀ flow : Flow, ∀ edge ∈ flow.edges address,
      flow.next? address = some edge.target ∨ flow.deferred? address = some edge.target := by
    intro flow
    cases flow <;> simp [Flow.edges, Flow.next?, Flow.deferred?, Machine.instructionWidth]
  rw [mem_successors_iff]
  exact hall instruction.flow edge (edges_flow instruction address ▸ hmem)

/-- An instruction has no edge twice. -/
theorem nodup_edges (instruction : Instruction) (address : Nat) :
    (instruction.edges address).Nodup := by
  rw [← edges_flow]
  cases instruction.flow <;> simp [Flow.edges]

/-- An instruction names the target of its jump or call. -/
theorem labelled?_eq_some_iff {instruction : Instruction} {target : Nat} (address : Nat) :
    instruction.flow.labelled? = some target ↔
      ∃ edge ∈ instruction.edges address, edge.IsBranch ∧ edge.target = target := by
  rw [← edges_flow]
  cases instruction.flow <;> simp [Flow.labelled?, Flow.edges, Edge.IsBranch]

end Instruction

/-- The edges of instructions at different addresses differ. -/
theorem nodup_flatMap_edges (instructions : Std.TreeMap Nat Instruction) :
    (instructions.toList.flatMap fun found => found.2.edges found.1).Nodup := by
  rw [List.nodup_flatMap]
  refine ⟨fun found _ => found.2.nodup_edges found.1, ?_⟩
  refine Std.TreeMap.distinct_keys_toList.imp fun {first second} hne edge hfirst hsecond => ?_
  have hsame := (Instruction.source_eq_of_mem_edges hfirst).symm.trans
    (Instruction.source_eq_of_mem_edges hsecond)
  exact hne (Std.LawfulEqCmp.compare_eq_iff_eq.mpr hsame)

namespace Exploration

variable {image : Image} {limit : Nat} {state : Exploration}

/-- Exploring a word adds the edges of its instruction. -/
theorem toList_edges_explored (state : Exploration) (address : Nat) (word : Word)
    (rest : List Nat) :
    (state.explored address word rest).edges.toList =
      state.edges.toList ++ (Instruction.ofWord word).edges address := by
  simp [explored, record, Instruction.edges_flow]

/-- Exploring a word adds the label of the target of its jump or call. -/
theorem mem_labels_explored {address : Nat} {word : Word} {rest : List Nat} {target : Nat} :
    target ∈ (state.explored address word rest).labels ↔
      (∃ edge ∈ (Instruction.ofWord word).edges address,
        edge.IsBranch ∧ edge.target = target) ∨ target ∈ state.labels := by
  rw [← Instruction.labelled?_eq_some_iff]
  simp only [explored, record]
  split
  · next other hlabelled => simp [hlabelled, Std.TreeMap.mem_insert]
  · next hnone => simp [hnone]

/-- The recorded edges are those of the explored instructions. -/
theorem Reached.edges_perm (hreached : Reached image limit state) :
    state.edges.toList.Perm
      (state.instructions.toList.flatMap fun found => found.2.edges found.1) := by
  induction hreached with
  | start => exact .nil
  | @step state next address rest _ _ hadvances ih =>
    cases hadvances with
    | drop => exact ih
    | @explore word hfinds =>
      rw [toList_edges_explored]
      have hinsert := (toList_insert_perm_of_not_mem hfinds.new (.ofWord word)).flatMap_right
        fun found => found.2.edges found.1
      apply List.perm_append_comm.trans
      apply (ih.append_left _).trans
      exact hinsert.symm

/-- The labels are those of the addresses to which a recorded jump or call leads. -/
theorem Reached.mem_labels_iff (hreached : Reached image limit state) {target : Nat} :
    target ∈ state.labels ↔
      ∃ edge ∈ state.edges.toList, edge.IsBranch ∧ edge.target = target := by
  induction hreached with
  | start => simp [Exploration.start]
  | step _ _ hadvances ih =>
    cases hadvances with
    | drop => exact ih
    | explore =>
      rw [mem_labels_explored, toList_edges_explored, ih]
      simp only [List.mem_append, or_and_right, exists_or]
      exact or_comm

end Exploration

namespace Disassembly

/-- An address that has a label was explored, unless it holds no word. -/
theorem explored_of_label {bytes : Array UInt8} {limit : Nat} {disassembly : Disassembly}
    (hexplore : explore bytes limit = .ok disassembly) {address : Nat} {name : String}
    (hlabel : disassembly.labels[address]? = some name) :
    address ∈ disassembly.instructions ∨ (Image.load bytes).fetch? address = none := by
  obtain ⟨found, hreached, hthreads, rfl⟩ := exists_reached_of_explore hexplore
  obtain ⟨edge, hedge, _, rfl⟩ := hreached.mem_labels_iff.mp (mem_of_getElem?_eq_some hlabel)
  obtain ⟨⟨start, instruction⟩, hentry, hmem⟩ :=
    List.mem_flatMap.mp (hreached.edges_perm.mem_iff.mp hedge)
  have hfound := Std.TreeMap.mem_toList_iff_getElem?_eq_some.mp hentry
  have hcovered := hreached.covered.2 _ _ hfound _ (Instruction.target_mem_successors hmem)
  simpa [Exploration.Covered, hthreads] using hcovered

/-- An exploration that succeeds records the control flow of the explored instructions. Its edges
are theirs, so that no edge is recorded twice and each starts at an explored address. Its labels
are the names of the addresses to which jumps and calls lead, and different addresses have
different names. If the image fits, then no sum in an edge wraps. -/
theorem explore_records_flow {bytes : Array UInt8} {limit : Nat} {disassembly : Disassembly}
    (hexplore : explore bytes limit = .ok disassembly) :
    disassembly.edges.toList.Perm
      (disassembly.instructions.toList.flatMap fun found => found.2.edges found.1) ∧
    disassembly.edges.toList.Nodup ∧
    (∀ edge ∈ disassembly.edges.toList, edge.source ∈ disassembly.instructions) ∧
    (∀ (target : Nat) (name : String), disassembly.labels[target]? = some name ↔
      name = labelFor target ∧
        ∃ edge ∈ disassembly.edges.toList, edge.IsBranch ∧ edge.target = target) ∧
    (∀ (first second : Nat) (name : String), disassembly.labels[first]? = some name →
      disassembly.labels[second]? = some name → first = second) ∧
    (Image.Fits bytes → ∀ address ∈ disassembly.instructions,
      Machine.wrap (address + 2) = address + 2 ∧ Machine.wrap (address + 4) = address + 4) := by
  obtain ⟨found, hreached, _, rfl⟩ := exists_reached_of_explore hexplore
  have hperm := hreached.edges_perm
  refine ⟨hperm, hperm.nodup_iff.mpr (nodup_flatMap_edges _), ?_, ?_, ?_, ?_⟩
  · intro edge hedge
    obtain ⟨⟨address, instruction⟩, hentry, hmem⟩ := List.mem_flatMap.mp (hperm.mem_iff.mp hedge)
    have hfound := Std.TreeMap.mem_toList_iff_getElem?_eq_some.mp hentry
    rw [Instruction.source_eq_of_mem_edges hmem]
    exact mem_of_getElem?_eq_some hfound
  · intro target name
    rw [← hreached.mem_labels_iff]
    constructor
    · intro hlabel
      exact ⟨hreached.label_eq hlabel, mem_of_getElem?_eq_some hlabel⟩
    · rintro ⟨rfl, hmem⟩
      have hlabel := Std.TreeMap.getElem?_eq_some_getElem hmem
      rw [hlabel, hreached.label_eq hlabel]
  · intro first second name hfirst hsecond
    exact labelFor_injective ((hreached.label_eq hfirst).symm.trans (hreached.label_eq hsecond))
  · intro hfits address hmem
    obtain ⟨_, hword, _⟩ := hreached.instruction_eq (Std.TreeMap.getElem?_eq_some_getElem hmem)
    exact ⟨Machine.wrap_of_lt (Image.add_two_lt_of_fetch? hword),
      Machine.wrap_of_lt (hfits.add_four_lt hword)⟩

/-- A loop of a skip and a jump, and a call out of the image, have their edges and labels. -/
theorem explore_records_loop :
    ∃ disassembly, explore #[0x30, 0x01, 0x12, 0x00, 0x2F, 0x00] 48 = .ok disassembly ∧
      disassembly.edges = #[⟨0x200, 0x202, .sequential⟩, ⟨0x200, 0x204, .skip⟩,
        ⟨0x204, 0xF00, .call⟩, ⟨0x202, 0x200, .jump⟩] ∧
      disassembly.edges.toList.Nodup ∧
      disassembly.labels[0xF00]? = some (labelFor 0xF00) := by
  obtain ⟨disassembly, hexplore, hedges⟩ : ∃ disassembly,
      explore #[0x30, 0x01, 0x12, 0x00, 0x2F, 0x00] 48 = .ok disassembly ∧
        disassembly.edges = #[⟨0x200, 0x202, .sequential⟩, ⟨0x200, 0x204, .skip⟩,
          ⟨0x204, 0xF00, .call⟩, ⟨0x202, 0x200, .jump⟩] := by
    decide +kernel
  obtain ⟨_, hnodup, _, hlabels, _⟩ := explore_records_flow hexplore
  refine ⟨disassembly, hexplore, hedges, hnodup, (hlabels _ _).mpr ⟨rfl, ?_⟩⟩
  rw [hedges]
  exact ⟨⟨0x204, 0xF00, .call⟩, by simp, Or.inr rfl, rfl⟩

end Disassembly

end ChipEight
