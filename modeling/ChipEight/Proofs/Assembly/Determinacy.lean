import Mathlib.Data.List.Sort
import ChipEight.Proofs.Assembly.Correctness

/-!
# Tokens determine their program

Tokens spell at most one sequence of clauses, and at most one program means what clauses with
given sites say and lists its symbols in order. So the program that tokens are assembled to is
known from their clauses alone: it is the one that means what they say, if they are well formed.
-/

namespace ChipEight

/-- A statement says at most one clause whose form is in the table. -/
theorem Statement.Says.unique {statement : Statement} {clause other : Clause}
    (hsaid : statement.Says clause) (hother : statement.Says other)
    (htable : ∀ form ∈ clause.instruction?, form.1 ∈ Opcode.table)
    (htable' : ∀ form ∈ other.instruction?, form.1 ∈ Opcode.table) : clause = other := by
  cases hsaid with
  | label | data =>
    cases hother
    rfl
  | @instruction instruction opcode hmnemonic hshape =>
    cases hother with
    | @instruction _ opcode' hmnemonic' hshape' =>
      have hlookup := Opcode.lookup?_eq_some_iff.mpr
        ⟨htable _ rfl, hmnemonic.symm, hshape.symm⟩
      have hlookup' := Opcode.lookup?_eq_some_iff.mpr
        ⟨htable' _ rfl, hmnemonic'.symm, hshape'.symm⟩
      obtain rfl := Option.some.inj (hlookup.symm.trans hlookup')
      rfl

namespace Clause

/-- The form of the first clause that tokens spell is in the table. -/
theorem Spells.head_mem_table {clause : Clause} {clauses : List Clause}
    {kinds : List Token.Kind} (hspells : Spells (clause :: clauses) kinds) :
    ∀ form ∈ clause.instruction?, form.1 ∈ Opcode.table := by
  intro form hform
  refine (hspells.admits form ?_).mem_table
  rw [instructions, List.filterMap_cons_some hform]
  exact List.mem_cons_self

/-- Tokens spell at most one sequence of clauses. -/
theorem Spells.unique {clauses others : List Clause} {tokens : List Token}
    (hspells : Spells clauses (tokens.map (·.value)))
    (hothers : Spells others (tokens.map (·.value))) : clauses = others := by
  induction clauses generalizing others tokens with
  | nil =>
    obtain _ | ⟨token, rest⟩ := tokens
    · cases hspells
    · exact (hothers.eq_nil_iff.mpr (hspells.eq_nil_iff.mp rfl)).symm
  | cons clause clauses ih =>
    obtain _ | ⟨token, rest⟩ := tokens
    · cases hspells
    · obtain _ | ⟨other, others⟩ := others
      · exact absurd (hspells.eq_nil_iff.mpr (hothers.eq_nil_iff.mp rfl)) (List.cons_ne_nil _ _)
      · obtain ⟨statement, taken, hread, hsaid, hrest⟩ := Statement.exists_read_of_spells hspells
        obtain ⟨_, _, hread', hother, hrest'⟩ := Statement.exists_read_of_spells hothers
        cases hread.symm.trans hread'
        rw [hsaid.unique hother hspells.head_mem_table hothers.head_mem_table, ih hrest hrest']

/-- An address belongs to data or to an instruction, or is claimed by neither. -/
theorem claimed_cases (clauses : List Clause) (site : Nat → Nat) (address : Nat) :
    IsData clauses address ∨
      (∃ (index : Nat) (form : Opcode × List Operand), (instructions clauses)[index]? = some form ∧
        (address = site index ∨ address = site index + 1)) ∨
      ¬IsData clauses address ∧ ∀ index < (instructions clauses).length,
        address ≠ site index ∧ address ≠ site index + 1 := by
  by_cases hdata : IsData clauses address
  · exact Or.inl hdata
  · refine Or.inr (or_iff_not_imp_left.mpr fun hcode => ⟨hdata, fun index hindex => ?_⟩)
    rw [← not_or]
    exact fun hplace => hcode ⟨index, _, List.getElem?_eq_getElem hindex, hplace⟩

end Clause

namespace Program

/-- The symbols of a program are listed in the order of their names. -/
def Sorted (program : Program) : Prop :=
  program.symbols.Pairwise fun first second => compare first.1 second.1 = .lt

/-- Assembled programs list their symbols in order. -/
theorem sorted_of_ofTokens {tokens : List Token} {program : Program}
    (hprogram : ofTokens tokens = .ok program) : program.Sorted := by
  obtain ⟨draft, placement, _, _, _, _, hsymbols⟩ := ofTokens_eq_ok_iff.mp hprogram
  rw [Sorted, hsymbols]
  exact Std.TreeMap.ordered_keys_toList

/-- Programs with the same symbols list them in the same order. -/
theorem Sorted.symbols_eq {program other : Program} (hsorted : program.Sorted)
    (hsorted' : other.Sorted) (hmem : ∀ entry, entry ∈ program.symbols ↔ entry ∈ other.symbols) :
    program.symbols = other.symbols := by
  have hnodup : ∀ {program : Program}, program.Sorted → program.symbols.Nodup := by
    intro program hsorted
    refine hsorted.imp ?_
    rintro first _ hlt rfl
    exact Std.OrientedCmp.not_lt_of_lt hlt hlt
  refine ((List.perm_ext_iff_of_nodup (hnodup hsorted) (hnodup hsorted')).mpr hmem).eq_of_pairwise
    (fun first second _ _ hlt hgt => ?_) hsorted hsorted'
  exact absurd hgt (Std.OrientedCmp.not_lt_of_lt hlt)

/-- Programs that mean the same have the same bytes. -/
theorem Means.bytes_eq {program other : Program} {clauses : List Clause} {site : Nat → Nat}
    (hmeans : program.Means clauses site) (hother : other.Means clauses site)
    (hnames : ((Clause.definitions clauses).map (·.1)).Nodup) : program.bytes = other.bytes := by
  have hsize : program.bytes.size = other.bytes.size := hmeans.size.unique hother.size
  have hlookup : (List.lookup · program.symbols) = (List.lookup · other.symbols) :=
    (hmeans.lookup_symbols hnames).trans (hother.lookup_symbols hnames).symm
  refine Array.ext_getElem? fun offset => ?_
  by_cases hlt : offset < program.bytes.size
  · rcases Clause.claimed_cases clauses site (Machine.loadAddress + offset) with
      ⟨value, hcell⟩ | ⟨index, ⟨opcode, operands⟩, hclause, hplace⟩ | ⟨hdata, hcode⟩
    · obtain ⟨byte, hbyte, hvalue⟩ := hmeans.data _ _ hcell
      obtain ⟨byte', hbyte', hvalue'⟩ := hother.data _ _ hcell
      rw [Nat.add_sub_cancel_left] at hbyte hbyte'
      rw [hbyte, hbyte', UInt8.toNat_inj.mp (hvalue.trans hvalue'.symm)]
    · obtain ⟨word, hword, hhigh, hlow⟩ := hmeans.code index opcode operands hclause
      obtain ⟨word', hword', hhigh', hlow'⟩ := hother.code index opcode operands hclause
      rw [hlookup] at hword
      obtain rfl := hword.unique hword'
      rcases hplace with hplace | hplace
      · rw [← hplace, Nat.add_sub_cancel_left] at hhigh hhigh'
        rw [hhigh, hhigh']
      · rw [← hplace, Nat.add_sub_cancel_left] at hlow hlow'
        rw [hlow, hlow']
    · rw [hmeans.zero offset hlt hdata hcode, hother.zero offset (hsize ▸ hlt) hdata hcode]
  · rw [Array.getElem?_eq_none (Nat.not_lt.mp hlt),
      Array.getElem?_eq_none (hsize ▸ Nat.not_lt.mp hlt)]

/-- Programs that mean the same and list their symbols in order are equal. -/
theorem Means.unique {program other : Program} {clauses : List Clause} {site : Nat → Nat}
    (hmeans : program.Means clauses site) (hother : other.Means clauses site)
    (hnames : ((Clause.definitions clauses).map (·.1)).Nodup) (hsorted : program.Sorted)
    (hsorted' : other.Sorted) : program = other := by
  obtain ⟨bytes, symbols⟩ := program
  obtain ⟨bytes', symbols'⟩ := other
  obtain rfl : bytes = bytes' := hmeans.bytes_eq hother hnames
  obtain rfl : symbols = symbols' := hsorted.symbols_eq hsorted' fun ⟨name, address⟩ => by
    rw [hmeans.symbols_iff, hother.symbols_iff]
  rfl

end Program

/-- An image of the size of memory covers well-formed clauses. -/
theorem Clause.WellFormed.covers {clauses : List Clause} {site : Nat → Nat}
    (hformed : WellFormed clauses site) : Covers clauses site Machine.programLimit := by
  have hlimit : Machine.loadAddress + Machine.programLimit = Machine.memorySize := by decide
  have hwidth : Machine.instructionWidth = 2 := rfl
  rintro address (hdata | ⟨index, hlt, rfl⟩)
  · exact hlimit ▸ hformed.data_lt address hdata
  · have hle := hformed.code_le index hlt
    omega

/-- Tokens that are assembled to a program spell clauses. -/
theorem Program.exists_spells_of_ofTokens {tokens : List Token} {program : Program}
    (hprogram : ofTokens tokens = .ok program) :
    ∃ clauses, Clause.Spells clauses (tokens.map (·.value)) := by
  obtain ⟨_, _, hdraft, _⟩ := ofTokens_eq_ok_iff.mp hprogram
  obtain ⟨clauses, hspells, _⟩ := Draft.exists_holds_of_ofTokens hdraft
  exact ⟨clauses, hspells⟩

/-- Tokens that spell clauses are assembled to a program exactly if the clauses are well formed
and the program is the one that means what they say. -/
theorem Program.ofTokens_eq_ok_iff_means {tokens : List Token} {clauses : List Clause}
    {site : Nat → Nat} {program : Program}
    (hspells : Clause.Spells clauses (tokens.map (·.value))) (hsites : Clause.Sites clauses site) :
    ofTokens tokens = .ok program ↔
      Clause.WellFormed clauses site ∧ program.Means clauses site ∧ program.Sorted := by
  constructor
  · intro hprogram
    obtain ⟨draft, placement, hdraft, hplace, hdefined, himage, hsymbols⟩ :=
      ofTokens_eq_ok_iff.mp hprogram
    obtain ⟨others, hothers, hconsistent, hholds⟩ := Draft.exists_holds_of_ofTokens hdraft
    obtain rfl := hspells.unique hothers
    obtain rfl := hsites.unique hholds.sites
    exact ⟨(hholds.wellFormed_iff (Draft.indexed_empty.extend hdraft) hconsistent
        hspells.admits).mpr ⟨placement, _, hplace, hdefined, himage⟩,
      means_of_draft hholds hconsistent hspells.admits hplace himage hsymbols,
      sorted_of_ofTokens hprogram⟩
  · rintro ⟨hformed, hmeans, hsorted⟩
    obtain ⟨size, hleast, hfits, _⟩ := ofTokens_cases_of_coherent hspells hsites
      hformed.toCoherent fun _ => hformed.addresses_lt
    obtain ⟨other, hother, hmeans'⟩ := hfits (hleast.2 hformed.covers)
    rwa [hmeans.unique hmeans' hformed.names_nodup hsorted (sorted_of_ofTokens hother)]

end ChipEight
