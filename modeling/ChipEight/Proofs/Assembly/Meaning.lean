import Mathlib.Data.Nat.Find
import Mathlib.Order.Bounds.Basic
import Mathlib.Tactic.Choose
import ChipEight.Proofs.Assembly.Emission
import ChipEight.Proofs.Assembly.Resolution

/-!
# What a program means

Clauses determine the sites of their instructions, and with these the addresses of their
labels, which numbers their operands stand for, and every byte and every symbol of a program
that means what they say.
-/

namespace ChipEight

namespace Clause

/-- The sites of instructions: each is the least address without data at or after the end
of the instruction before it. The place after the last instruction is a site as well. -/
structure Sites (clauses : List Clause) (site : Nat → Nat) : Prop where
  first : IsLeast {address | Machine.loadAddress ≤ address ∧ ¬IsData clauses address} (site 0)
  next : ∀ index, IsLeast
    {address | site index + Machine.instructionWidth ≤ address ∧ ¬IsData clauses address}
    (site (index + 1))

/-- Clauses have one sequence of sites. -/
theorem Sites.unique {clauses : List Clause} {site other : Nat → Nat}
    (hsites : Sites clauses site) (hother : Sites clauses other) : site = other := by
  funext index
  induction index with
  | zero => exact hsites.first.unique hother.first
  | succ index ih => exact (ih ▸ hsites.next index).unique (hother.next index)

/-- Some address at or after a given one is the least without data. -/
theorem exists_isLeast_free (clauses : List Clause) (start : Nat) :
    ∃ address, IsLeast {address | start ≤ address ∧ ¬IsData clauses address} address := by
  have hfree : ∃ address, start ≤ address ∧ ¬IsData clauses address := by
    obtain ⟨bound, hbound⟩ : ∃ bound, ∀ cell ∈ cells clauses, cell.1 < bound := by
      induction cells clauses with
      | nil => exact ⟨0, fun _ hmem => nomatch hmem⟩
      | cons cell cells ih =>
        obtain ⟨bound, hbound⟩ := ih
        refine ⟨max bound (cell.1 + 1), List.forall_mem_cons.mpr ⟨by omega, ?_⟩⟩
        exact fun other hmem => Nat.lt_of_lt_of_le (hbound other hmem) (Nat.le_max_left _ _)
    refine ⟨max start bound, Nat.le_max_left _ _, ?_⟩
    rintro ⟨value, hmem⟩
    exact absurd (hbound _ hmem) (Nat.not_lt_of_le (Nat.le_max_right _ _))
  classical
  exact ⟨Nat.find hfree, Nat.find_spec hfree, fun _ hmem => Nat.find_min' hfree hmem⟩

/-- Clauses have a sequence of sites. -/
theorem exists_sites (clauses : List Clause) : ∃ site, Sites clauses site := by
  choose free hfree using exists_isLeast_free clauses
  exact ⟨Nat.rec (free Machine.loadAddress) fun _ last => free (last + Machine.instructionWidth),
    hfree _, fun _ => hfree _⟩

/-- The address of a label, given the sites of instructions. -/
def addressOf? (clauses : List Clause) (site : Nat → Nat) (name : String) : Option Nat :=
  ((definitions clauses).lookup name).map site

/-- Clauses can be carried out in a memory without end: no label is defined twice and every
label in use is defined; data consists of bytes in the program's part of memory, at most one
for each address; no instruction's second byte lies on data; and every operand fits its
slot, labels standing for their addresses. -/
structure Coherent (clauses : List Clause) (site : Nat → Nat) : Prop where
  names_nodup : ((definitions clauses).map (·.1)).Nodup
  defined : ∀ instruction ∈ instructions clauses, ∀ name, .label name ∈ instruction.2 →
    ∃ index, (name, index) ∈ definitions clauses
  blocks : ∀ start bytes, .data start bytes ∈ clauses →
    Machine.loadAddress ≤ start ∧ ∀ byte ∈ bytes, byte ≤ 0xFF
  addresses_nodup : ((cells clauses).map (·.1)).Nodup
  clear : ∀ index < (instructions clauses).length, ¬IsData clauses (site index + 1)
  operands_fit : ∀ instruction ∈ instructions clauses, ∃ numbers,
    Slot.Fill instruction.1.shape.slots
      (instruction.2.map (Operand.resolved (addressOf? clauses site))) numbers

/-- Clauses make a program: they are coherent, and all that they say fits into memory. -/
structure WellFormed (clauses : List Clause) (site : Nat → Nat) : Prop
    extends Coherent clauses site where
  data_lt : ∀ address, IsData clauses address → address < Machine.memorySize
  code_le : ∀ index < (instructions clauses).length,
    site index + Machine.instructionWidth ≤ Machine.memorySize

/-- An image of a size has room for all data and every instruction. -/
def Covers (clauses : List Clause) (site : Nat → Nat) (size : Nat) : Prop :=
  ∀ address, (IsData clauses address ∨
    ∃ index < (instructions clauses).length, address = site index + 1) →
    address < Machine.loadAddress + size

/-- Coherent clauses do not contradict each other if the addresses of their data are
numbers. -/
theorem Coherent.consistent {clauses : List Clause} {site : Nat → Nat}
    (hcoherent : Coherent clauses site)
    (haddresses : ∀ address, IsData clauses address → address + 1 < Machine.numberBound) :
    Consistent clauses where
  names_nodup := hcoherent.names_nodup
  blocks := hcoherent.blocks
  addresses_nodup := hcoherent.addresses_nodup
  addresses_lt := by
    rintro _ hmem
    obtain ⟨⟨address, value⟩, hcell, rfl⟩ := List.mem_map.mp hmem
    exact haddresses address ⟨value, hcell⟩

/-- Addresses in memory are numbers. -/
theorem WellFormed.addresses_lt {clauses : List Clause} {site : Nat → Nat}
    (hformed : WellFormed clauses site) {address : Nat} (hdata : IsData clauses address) :
    address + 1 < Machine.numberBound := by
  have hlt := hformed.data_lt address hdata
  have hbound : Machine.memorySize < Machine.numberBound := by decide
  omega

end Clause

/-- A program means what some clauses say: no instruction lies on data, data and words lie at
their addresses, the other bytes are zero, the image ends with the last byte that is claimed,
and the symbols are the labels that are defined, each at the site of the instruction after
its definition. -/
structure Program.Means (program : Program) (clauses : List Clause) (site : Nat → Nat) :
    Prop where
  clear : ∀ index < (Clause.instructions clauses).length,
    ¬Clause.IsData clauses (site index) ∧ ¬Clause.IsData clauses (site index + 1)
  data : ∀ address value, (address, value) ∈ Clause.cells clauses →
    ∃ byte, program.bytes[address - Machine.loadAddress]? = some byte ∧ byte.toNat = value
  code : ∀ index opcode operands,
    (Clause.instructions clauses)[index]? = some (opcode, operands) → ∃ word,
      opcode.Encodes (operands.map (Operand.resolved (List.lookup · program.symbols))) word ∧
      program.bytes[site index - Machine.loadAddress]? = some word.high ∧
      program.bytes[site index + 1 - Machine.loadAddress]? = some word.low
  zero : ∀ offset < program.bytes.size, ¬Clause.IsData clauses (Machine.loadAddress + offset) →
    (∀ index < (Clause.instructions clauses).length,
      Machine.loadAddress + offset ≠ site index ∧
      Machine.loadAddress + offset ≠ site index + 1) →
    program.bytes[offset]? = some 0
  size : IsLeast {size | Clause.Covers clauses site size} program.bytes.size
  symbols_nodup : (program.symbols.map (·.1)).Nodup
  symbols_iff : ∀ name address, (name, address) ∈ program.symbols ↔
    ∃ index, (name, index) ∈ Clause.definitions clauses ∧ address = site index

namespace Program

/-- The symbols of a program are the addresses of its labels. -/
theorem Means.lookup_symbols {program : Program} {clauses : List Clause} {site : Nat → Nat}
    (hmeans : program.Means clauses site)
    (hnames : ((Clause.definitions clauses).map (·.1)).Nodup) :
    (List.lookup · program.symbols) = Clause.addressOf? clauses site := by
  funext name
  refine Option.ext fun address => ?_
  rw [lookup_eq_some_iff_mem (List.pairwise_map.mp hmeans.symbols_nodup), hmeans.symbols_iff,
    Clause.addressOf?, Option.map_eq_some_iff]
  simp only [lookup_eq_some_iff_mem (List.pairwise_map.mp hnames), eq_comm]

end Program

end ChipEight
