import ChipEight.Proofs.Assembly.Determinacy

/-!
# The arrangement of a program does not matter

Where data stands among the other clauses, how it is divided into blocks, and the order of the
labels of one place are matters of arrangement. Clauses that differ in these alone have the same
sites, are well formed together, and are meant by the same programs, so that tokens that spell
them are assembled alike.
-/

namespace ChipEight

namespace Clause

/-- Blocks start in the program's part of memory and hold bytes exactly if their cells do, unless
a block is empty. -/
theorem blocks_iff_cells {clauses : List Clause} (hempty : ∀ start, .data start [] ∉ clauses) :
    (∀ start bytes, .data start bytes ∈ clauses →
      Machine.loadAddress ≤ start ∧ ∀ byte ∈ bytes, byte ≤ 0xFF) ↔
      ∀ cell ∈ cells clauses, Machine.loadAddress ≤ cell.1 ∧ cell.2 ≤ 0xFF := by
  constructor
  · rintro hblocks ⟨address, value⟩ hcell
    obtain ⟨start, bytes, hmem, hle, hvalue⟩ := exists_block_of_mem_cells hcell
    obtain ⟨hlow, hbytes⟩ := hblocks start bytes hmem
    exact ⟨Nat.le_trans hlow hle, hbytes value hvalue⟩
  · intro hcells start bytes hmem
    have hblock : ∀ cell ∈ cellsFrom start bytes,
        Machine.loadAddress ≤ cell.1 ∧ cell.2 ≤ 0xFF := fun cell hcell =>
      hcells cell (List.mem_flatMap.mpr ⟨_, hmem, hcell⟩)
    constructor
    · obtain _ | ⟨byte, bytes⟩ := bytes
      · exact absurd hmem (hempty start)
      · exact (hblock (start, byte) List.mem_cons_self).1
    · intro byte hbyte
      rw [← map_snd_cellsFrom start bytes] at hbyte
      obtain ⟨cell, hcell, rfl⟩ := List.mem_map.mp hbyte
      exact (hblock cell hcell).2

/-- Clauses take the same places if they give the same addresses the same bytes, each as often,
and have as many instructions. -/
structure SamePlaces (clauses others : List Clause) : Prop where
  cells_perm : (cells clauses).Perm (cells others)
  length_eq : (instructions clauses).length = (instructions others).length

namespace SamePlaces

variable {clauses others : List Clause} {site : Nat → Nat}

/-- Clauses that take the same places have the same data. -/
theorem isData_iff (hplaces : SamePlaces clauses others) (address : Nat) :
    IsData clauses address ↔ IsData others address :=
  exists_congr fun _ => hplaces.cells_perm.mem_iff

/-- Clauses that take the same places have the same sites. -/
theorem sites (hplaces : SamePlaces clauses others) (hsites : Sites clauses site) :
    Sites others site where
  first := by simpa only [hplaces.isData_iff] using hsites.first
  next index := by simpa only [hplaces.isData_iff] using hsites.next index

/-- Clauses that take the same places are covered by the same images. -/
theorem covers_iff (hplaces : SamePlaces clauses others) (size : Nat) :
    Covers clauses site size ↔ Covers others site size := by
  simp only [Covers, hplaces.isData_iff, hplaces.length_eq]

/-- Clauses that take the same places as well-formed ones are well formed if their labels and
operands are. -/
theorem wellFormed (hplaces : SamePlaces clauses others) (hformed : WellFormed clauses site)
    (hempty : ∀ start, .data start [] ∉ clauses) (hempty' : ∀ start, .data start [] ∉ others)
    (hnames : ((definitions others).map (·.1)).Nodup)
    (hdefined : ∀ instruction ∈ instructions others, ∀ name, .label name ∈ instruction.2 →
      ∃ index, (name, index) ∈ definitions others)
    (hfit : ∀ instruction ∈ instructions others, ∃ numbers,
      Slot.Fill instruction.1.shape.slots
        (instruction.2.map (Operand.resolved (addressOf? others site))) numbers) :
    WellFormed others site where
  names_nodup := hnames
  defined := hdefined
  blocks := by
    have hblocks := (blocks_iff_cells hempty).mp hformed.blocks
    exact (blocks_iff_cells hempty').mpr fun cell hcell =>
      hblocks cell (hplaces.cells_perm.mem_iff.mpr hcell)
  addresses_nodup := (hplaces.cells_perm.map (·.1)).nodup_iff.mp hformed.addresses_nodup
  clear index hlt hdata :=
    hformed.clear index (hplaces.length_eq ▸ hlt) ((hplaces.isData_iff _).mpr hdata)
  operands_fit := hfit
  data_lt address hdata := hformed.data_lt address ((hplaces.isData_iff address).mpr hdata)
  code_le index hlt := hformed.code_le index (hplaces.length_eq ▸ hlt)

/-- A program that means what some clauses say has the bytes of one that means what others say
in the same places, if the words and the symbols are right. -/
theorem means {program : Program} (hplaces : SamePlaces clauses others)
    (hmeans : program.Means clauses site) {symbols : List (String × Nat)}
    (hcode : ∀ index opcode operands, (instructions others)[index]? = some (opcode, operands) →
      ∃ word, opcode.Encodes (operands.map (Operand.resolved (List.lookup · symbols))) word ∧
        program.bytes[site index - Machine.loadAddress]? = some word.high ∧
        program.bytes[site index + 1 - Machine.loadAddress]? = some word.low)
    (hnodup : (symbols.map (·.1)).Nodup)
    (hsymbols : ∀ name address, (name, address) ∈ symbols ↔
      ∃ index, (name, index) ∈ definitions others ∧ address = site index) :
    Program.Means ⟨program.bytes, symbols⟩ others site where
  clear index hlt := by
    simpa only [hplaces.isData_iff] using hmeans.clear index (hplaces.length_eq ▸ hlt)
  data address value hcell := hmeans.data address value (hplaces.cells_perm.mem_iff.mpr hcell)
  code := hcode
  zero offset hlt hdata hcode :=
    hmeans.zero offset hlt (mt (hplaces.isData_iff _).mp hdata) fun index hindex =>
      hcode index (hplaces.length_eq ▸ hindex)
  size := by simpa only [hplaces.covers_iff] using hmeans.size
  symbols_nodup := hnodup
  symbols_iff := hsymbols

end SamePlaces

/-- What an instruction says: its mnemonic and its operands. -/
def said (instruction : Opcode × List Operand) : Mnemonic × List Operand :=
  (instruction.1.mnemonic, instruction.2)

/-- Instructions whose forms admit their operands are known from what they say. -/
theorem eq_of_map_said_eq {first second : List (Opcode × List Operand)}
    (hfirst : ∀ instruction ∈ first, instruction.1.Admits instruction.2)
    (hsecond : ∀ instruction ∈ second, instruction.1.Admits instruction.2)
    (hsaid : first.map said = second.map said) : first = second := by
  induction first generalizing second with
  | nil => exact (List.map_eq_nil_iff.mp hsaid.symm).symm
  | cons instruction first ih =>
    obtain _ | ⟨other, second⟩ := second
    · cases hsaid
    · obtain ⟨hhead, htail⟩ := List.cons.inj hsaid
      obtain ⟨hadmits, hrest⟩ := List.forall_mem_cons.mp hfirst
      obtain ⟨hadmits', hrest'⟩ := List.forall_mem_cons.mp hsecond
      obtain ⟨opcode, operands⟩ := instruction
      obtain ⟨opcode', _⟩ := other
      obtain ⟨hmnemonic, rfl⟩ := Prod.mk.inj hhead
      obtain rfl : opcode = opcode' := hadmits.unique hadmits' hmnemonic
      rw [ih hrest hrest' htail]

/-- Clauses are arranged differently: they have the same instructions in the same order, define
the same labels after as many instructions, and give the same addresses the same bytes. -/
structure Rearranges (clauses others : List Clause) : Prop where
  instructions_eq : (instructions clauses).map said = (instructions others).map said
  definitions_perm : (definitions clauses).Perm (definitions others)
  cells_perm : (cells clauses).Perm (cells others)

namespace Rearranges

variable {clauses others : List Clause} {kinds kinds' : List Token.Kind} {site : Nat → Nat}

/-- Arrangements can be undone. -/
theorem symm (hrearranges : Rearranges clauses others) : Rearranges others clauses :=
  ⟨hrearranges.instructions_eq.symm, hrearranges.definitions_perm.symm,
    hrearranges.cells_perm.symm⟩

/-- Clauses in another arrangement take the same places. -/
theorem samePlaces (hrearranges : Rearranges clauses others) : SamePlaces clauses others where
  cells_perm := hrearranges.cells_perm
  length_eq := by simpa using congrArg List.length hrearranges.instructions_eq

/-- A program of well-formed clauses is one of the clauses in another arrangement. -/
theorem program (hrearranges : Rearranges clauses others) (hspells : Spells clauses kinds)
    (hothers : Spells others kinds') (hformed : WellFormed clauses site) {program : Program}
    (hmeans : program.Means clauses site) :
    WellFormed others site ∧ program.Means others site := by
  have hinstructions : instructions clauses = instructions others :=
    eq_of_map_said_eq hspells.admits hothers.admits hrearranges.instructions_eq
  have hdefinitions := hrearranges.definitions_perm
  have haddress : addressOf? clauses site = addressOf? others site := by
    funext name
    rw [addressOf?, addressOf?, lookup_eq_of_perm hdefinitions hformed.names_nodup]
  refine ⟨hrearranges.samePlaces.wellFormed hformed hspells.not_mem_empty_block
    hothers.not_mem_empty_block ((hdefinitions.map (·.1)).nodup_iff.mp hformed.names_nodup)
    ?_ ?_, hrearranges.samePlaces.means hmeans ?_ hmeans.symbols_nodup ?_⟩
  · simpa only [← hinstructions, ← hdefinitions.mem_iff] using hformed.defined
  · simpa only [← hinstructions, ← haddress] using hformed.operands_fit
  · simpa only [← hinstructions] using hmeans.code
  · simpa only [← hdefinitions.mem_iff] using hmeans.symbols_iff

end Rearranges

end Clause

/-- Tokens that spell clauses in different arrangements are assembled to the same programs. -/
theorem Program.ofTokens_iff_of_rearranges {tokens others : List Token}
    {clauses rearranged : List Clause} (hspells : Clause.Spells clauses (tokens.map (·.value)))
    (hothers : Clause.Spells rearranged (others.map (·.value)))
    (hrearranges : Clause.Rearranges clauses rearranged) (program : Program) :
    ofTokens tokens = .ok program ↔ ofTokens others = .ok program := by
  obtain ⟨site, hsites⟩ := Clause.exists_sites clauses
  rw [ofTokens_eq_ok_iff_means hspells hsites,
    ofTokens_eq_ok_iff_means hothers (hrearranges.samePlaces.sites hsites)]
  constructor
  · rintro ⟨hformed, hmeans, hsorted⟩
    obtain ⟨hformed', hmeans'⟩ := hrearranges.program hspells hothers hformed hmeans
    exact ⟨hformed', hmeans', hsorted⟩
  · rintro ⟨hformed, hmeans, hsorted⟩
    obtain ⟨hformed', hmeans'⟩ := hrearranges.symm.program hothers hspells hformed hmeans
    exact ⟨hformed', hmeans', hsorted⟩

/-- Two labels of one place may change places, and a block of data may be divided and its parts
stand in front of the program and inside it. -/
theorem Program.ofTokens_of_divided_block :
    ∃ clauses rearranged, Clause.Spells clauses [.operand (.label "a"), .operand (.label "b"),
        .instruction .mov, .operand (.register 1), .operand (.register 2), .data,
        .operand (.integer 0x202), .operand (.integer 1), .operand (.integer 2),
        .instruction .jmp, .operand (.label "end"), .operand (.label "end"), .eof] ∧
      Clause.Spells rearranged [.data, .operand (.integer 0x203), .operand (.integer 2),
        .operand (.label "b"), .operand (.label "a"), .instruction .mov, .operand (.register 1),
        .operand (.register 2), .instruction .jmp, .operand (.label "end"), .data,
        .operand (.integer 0x202), .operand (.integer 1), .operand (.label "end"), .eof] ∧
      Clause.Rearranges clauses rearranged ∧
      ofTokens ([.data, .operand (.integer 0x203), .operand (.integer 2), .operand (.label "b"),
        .operand (.label "a"), .instruction .mov, .operand (.register 1), .operand (.register 2),
        .instruction .jmp, .operand (.label "end"), .data, .operand (.integer 0x202),
        .operand (.integer 1), .operand (.label "end"), .eof].map (⟨·, ⟨7, 3⟩⟩)) =
          .ok ⟨#[0x81, 0x20, 0x01, 0x02, 0x12, 0x06], [("a", 0x200), ("b", 0x200), ("end", 0x206)]⟩
    := by
  have hmov : Opcode.Admits ⟨.mov, .registerRegister, 0x8000⟩ [.register 1, .register 2] :=
    ⟨by decide, rfl, fun _ => ⟨fun _ => ⟨2, rfl⟩, fun _ => rfl⟩⟩
  have hjmp : Opcode.Admits ⟨.jmp, .address, 0x1000⟩ [.label "end"] :=
    ⟨by decide, rfl, fun htwo => absurd htwo (by decide)⟩
  have hspells : Clause.Spells [.label "a", .label "b",
      .instruction ⟨.mov, .registerRegister, 0x8000⟩ [.register 1, .register 2],
      .data 0x202 [1, 2], .instruction ⟨.jmp, .address, 0x1000⟩ [.label "end"], .label "end"]
      (([.operand (.label "a"), .operand (.label "b"), .instruction .mov, .operand (.register 1),
        .operand (.register 2), .data, .operand (.integer 0x202), .operand (.integer 1),
        .operand (.integer 2), .instruction .jmp, .operand (.label "end"),
        .operand (.label "end"), .eof].map fun kind => (⟨kind, .first⟩ : Token)).map (·.value)) :=
    .label (.label (.instruction hmov
      (.data (by decide) (by simp [Clause.number]) (.instruction hjmp (.label .done)))))
  have hothers : Clause.Spells [.data 0x203 [2], .label "b", .label "a",
      .instruction ⟨.mov, .registerRegister, 0x8000⟩ [.register 1, .register 2],
      .instruction ⟨.jmp, .address, 0x1000⟩ [.label "end"], .data 0x202 [1], .label "end"]
      (([.data, .operand (.integer 0x203), .operand (.integer 2), .operand (.label "b"),
        .operand (.label "a"), .instruction .mov, .operand (.register 1), .operand (.register 2),
        .instruction .jmp, .operand (.label "end"), .data, .operand (.integer 0x202),
        .operand (.integer 1), .operand (.label "end"), .eof].map
          fun kind => (⟨kind, ⟨7, 3⟩⟩ : Token)).map (·.value)) :=
    .data (by decide) (by simp [Clause.number]) (.label (.label (.instruction hmov
      (.instruction hjmp (.data (by decide) (by simp [Clause.number]) (.label .done))))))
  have hrearranges : Clause.Rearranges [.label "a", .label "b",
      .instruction ⟨.mov, .registerRegister, 0x8000⟩ [.register 1, .register 2],
      .data 0x202 [1, 2], .instruction ⟨.jmp, .address, 0x1000⟩ [.label "end"], .label "end"]
      [.data 0x203 [2], .label "b", .label "a",
      .instruction ⟨.mov, .registerRegister, 0x8000⟩ [.register 1, .register 2],
      .instruction ⟨.jmp, .address, 0x1000⟩ [.label "end"], .data 0x202 [1], .label "end"] :=
    ⟨rfl, .swap _ _ _, .swap _ _ _⟩
  refine ⟨_, _, hspells, hothers, hrearranges,
    (ofTokens_iff_of_rearranges hspells hothers hrearranges _).mp ?_⟩
  cbv

end ChipEight
