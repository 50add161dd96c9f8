import ChipEight.Proofs.Assembly.Correctness
import ChipEight.Proofs.Listing.Clauses

/-!
# Assembling a listing

The text of a listing is read as its clauses, which are coherent and determine the image: each
byte is that of a data item or belongs to the word of an instruction item, and the image ends
with the last item. So a listing is assembled to the image it was made of, or refused because
that image is too large.
-/

namespace ChipEight.Disassembly

variable {image : Array UInt8} {limit : Nat} {disassembly : Disassembly} {site : Nat → Nat}

/-- The instructions of a listing are those that its instruction items are listed as. -/
theorem exists_item_of_mem_instructions {instruction : Opcode × List Operand}
    (hmem : instruction ∈ Clause.instructions disassembly.clauses) :
    ∃ start found, .instruction start found ∈ disassembly.items ∧
      instruction = disassembly.listed found := by
  rw [clauses, instructions_clausesOf] at hmem
  obtain ⟨⟨start, found⟩, hcode, rfl⟩ := List.mem_map.mp hmem
  exact ⟨start, found, Item.mem_codes_iff.mp hcode, rfl⟩

/-- The blocks of a listing hold the byte of a data item. -/
theorem exists_item_of_mem_blocks {start : Nat} {block : List Nat}
    (hmem : .data start block ∈ disassembly.clauses) :
    ∃ byte : UInt8, block = [byte.toNat] ∧ .data start byte ∈ disassembly.items := by
  obtain ⟨item, hitem, hclause⟩ := List.mem_flatMap.mp hmem
  rw [clausesOf, List.mem_append, List.mem_singleton] at hclause
  rcases hclause with hlabel | hclause
  · obtain ⟨name, _, hname⟩ := List.mem_map.mp hlabel
    cases hname
  · cases item with
    | instruction => cases hclause
    | data address byte =>
      cases hclause
      exact ⟨byte, rfl, hitem⟩

/-- The instructions of a listing stand at their numbers, and the sites with these numbers are
the addresses of their items. -/
theorem exists_index_of_mem (hexplore : explore image limit = .ok disassembly)
    (hsites : Clause.Sites disassembly.clauses site) {start : Nat} {found : Instruction}
    (hmem : .instruction start found ∈ disassembly.items) :
    ∃ index, site index = start ∧
      (Clause.instructions disassembly.clauses)[index]? = some (disassembly.listed found) := by
  obtain ⟨index, hindex⟩ := List.mem_iff_getElem?.mp (Item.mem_codes_iff.mpr hmem)
  refine ⟨index, site_eq hexplore hsites hindex, ?_⟩
  rw [clauses, instructions_clausesOf, List.getElem?_map, hindex, Option.map_some]

/-- Each site with the number of an instruction is the address of its item. -/
theorem exists_item_of_lt (hexplore : explore image limit = .ok disassembly)
    (hsites : Clause.Sites disassembly.clauses site) {index : Nat}
    (hlt : index < (Clause.instructions disassembly.clauses).length) :
    ∃ found, .instruction (site index) found ∈ disassembly.items := by
  rw [clauses, instructions_clausesOf, List.length_map] at hlt
  obtain ⟨⟨start, found⟩, hindex⟩ : ∃ code,
      (disassembly.items.filterMap Item.code?)[index]? = some code :=
    ⟨_, List.getElem?_eq_getElem hlt⟩
  rw [site_eq hexplore hsites hindex]
  exact ⟨found, Item.mem_codes_iff.mp (List.mem_of_getElem? hindex)⟩

/-- The clauses of a listing are coherent. -/
theorem coherent_clauses (hexplore : explore image limit = .ok disassembly)
    (hsites : Clause.Sites disassembly.clauses site) :
    Clause.Coherent disassembly.clauses site where
  names_nodup := names_nodup hexplore
  defined := by
    intro instruction hmem name hname
    obtain ⟨start, found, hitem, rfl⟩ := exists_item_of_mem_instructions hmem
    rcases Opcode.listed_cases found.raw (Listing.operandLabel? disassembly disassembly.starts found)
      with ⟨other, hother, hlisted⟩ | hnumbers
    · rw [listed, hlisted, List.mem_singleton, Operand.label.injEq] at hname
      obtain ⟨_, hlabel, _, htarget⟩ := operandLabel?_eq_some hexplore (hname ▸ hother)
      obtain ⟨index, hdefined, _⟩ := addressOf?_eq hexplore hsites htarget hlabel
      exact ⟨index, hdefined⟩
    · obtain ⟨number, _, hnumber | hnumber⟩ := hnumbers _ hname <;> cases hnumber
  blocks := by
    intro start block hmem
    obtain ⟨byte, rfl, hitem⟩ := exists_item_of_mem_blocks hmem
    refine ⟨(divides_items hexplore).le_address _ hitem, ?_⟩
    rw [List.forall_mem_singleton]
    exact Nat.le_of_lt_succ byte.toNat_lt
  addresses_nodup := by
    rw [clauses, cells_clausesOf, List.Nodup, List.pairwise_map, List.pairwise_filterMap]
    refine (divides_items hexplore).pairwise.imp fun {first second} hle cell hcell other hother => ?_
    cases first with
    | instruction => cases hcell
    | data address byte =>
      cases second with
      | instruction => cases hother
      | data start value =>
        cases hcell
        cases hother
        exact Nat.ne_of_lt hle
  clear := by
    intro index hlt
    obtain ⟨found, hitem⟩ := exists_item_of_lt hexplore hsites hlt
    exact (not_isData_of_mem hexplore hitem).2
  operands_fit := by
    intro instruction hmem
    obtain ⟨start, found, hitem, rfl⟩ := exists_item_of_mem_instructions hmem
    obtain ⟨_, numbers, hfill, _⟩ := encodes_listed hexplore hsites hitem
    exact ⟨numbers, hfill⟩

/-- An image whose end has 32 bits is the least one with room for what its listing says. -/
theorem isLeast_size (hexplore : explore image limit = .ok disassembly)
    (hbound : Machine.loadAddress + image.size < Machine.numberBound)
    (hsites : Clause.Sites disassembly.clauses site) :
    IsLeast {size | Clause.Covers disassembly.clauses site size} image.size := by
  have hdivides := divides_items_of_lt hbound hexplore
  have hstop : ∀ (place : Nat) (byte : UInt8),
      image.toList[place - Machine.loadAddress]? = some byte →
      place < Machine.loadAddress + image.size := by
    intro place byte hbyte
    have hlt := (List.getElem?_eq_some_iff.mp hbyte).1
    rw [Array.length_toList] at hlt
    omega
  constructor
  · rintro address (hdata | ⟨index, hlt, rfl⟩)
    · obtain ⟨byte, hitem⟩ := isData_clauses_iff.mp hdata
      exact hstop address byte (hdivides.getElem?_data hitem)
    · obtain ⟨found, hitem⟩ := exists_item_of_lt hexplore hsites hlt
      obtain ⟨_, low, _, _, hlow⟩ := hdivides.getElem?_instruction hitem
      exact hstop _ low hlow
  · intro size hcovers
    by_contra hlt
    have hlast : Machine.loadAddress + size < Machine.loadAddress + image.toList.length := by
      rw [Array.length_toList]
      omega
    rcases hdivides.covers (Nat.le_add_right _ size) hlast with
      ⟨byte, hitem⟩ | ⟨start, found, hitem, hplace⟩
    · exact Nat.lt_irrefl _ (hcovers _ (Or.inl (isData_clauses_iff.mpr ⟨byte, hitem⟩)))
    · obtain ⟨index, hsite, hindex⟩ := exists_index_of_mem hexplore hsites hitem
      have hbound := hcovers (site index + 1)
        (Or.inr ⟨index, (List.getElem?_eq_some_iff.mp hindex).1, rfl⟩)
      omega

/-- A program that means what a listing says has the bytes of the image, if the end of the image
has 32 bits. -/
theorem bytes_eq_of_means (hexplore : explore image limit = .ok disassembly)
    (hbound : Machine.loadAddress + image.size < Machine.numberBound)
    (hsites : Clause.Sites disassembly.clauses site) {program : Program}
    (hmeans : program.Means disassembly.clauses site) : program.bytes = image := by
  have hdivides := divides_items_of_lt hbound hexplore
  have hsize : program.bytes.size = image.size :=
    hmeans.size.unique (isLeast_size hexplore hbound hsites)
  have hlookup := hmeans.lookup_symbols (names_nodup hexplore)
  refine Array.ext_getElem? fun offset => ?_
  by_cases hlt : offset < image.size
  · have hplace : Machine.loadAddress + offset < Machine.loadAddress + image.toList.length := by
      rw [Array.length_toList]
      omega
    rcases hdivides.covers (Nat.le_add_right _ offset) hplace with
      ⟨byte, hitem⟩ | ⟨start, found, hitem, hat⟩
    · obtain ⟨other, hother, hvalue⟩ := hmeans.data (Machine.loadAddress + offset) byte.toNat (by
        rw [clauses, cells_clausesOf, Item.mem_cells_iff]
        exact ⟨byte, rfl, hitem⟩)
      have hbyte := hdivides.getElem?_data hitem
      rw [Nat.add_sub_cancel_left] at hother hbyte
      rw [hother, UInt8.toNat_inj.mp hvalue, ← Array.getElem?_toList, hbyte]
    · obtain ⟨index, rfl, hindex⟩ := exists_index_of_mem hexplore hsites hitem
      obtain ⟨word, hword, hhigh, hlow⟩ := hmeans.code index _ _ hindex
      rw [hlookup] at hword
      obtain ⟨high, low, hfound, hfirst, hsecond⟩ := hdivides.getElem?_instruction hitem
      have hraw : word = .ofBytes high low := by
        rw [hword.unique (encodes_listed hexplore hsites hitem).2, hfound, Opcode.raw_ofWord]
      rw [hraw, Word.high_ofBytes] at hhigh
      rw [hraw, Word.low_ofBytes] at hlow
      rcases hat with hat | hat
      · rw [← hat, Nat.add_sub_cancel_left] at hhigh hfirst
        rw [hhigh, ← Array.getElem?_toList, hfirst]
      · rw [← hat, Nat.add_sub_cancel_left] at hlow hsecond
        rw [hlow, ← Array.getElem?_toList, hsecond]
  · rw [Array.getElem?_eq_none (by omega), Array.getElem?_eq_none (by omega)]

/-- Every item lies inside the image. -/
theorem address_lt (hexplore : explore image limit = .ok disassembly) {item : Item}
    (hmem : item ∈ disassembly.items) : item.address < Machine.loadAddress + image.size := by
  have hdivides := divides_items hexplore
  have hle := hdivides.le_address item hmem
  have hstop := Image.stop_load_le image
  have hlt : item.address - Machine.loadAddress < (Image.load image).inside.length := by
    cases item with
    | instruction start found =>
      obtain ⟨high, _, _, hhigh, _⟩ := hdivides.getElem?_instruction hmem
      exact (List.getElem?_eq_some_iff.mp hhigh).1
    | data start byte =>
      exact (List.getElem?_eq_some_iff.mp (hdivides.getElem?_data hmem)).1
  rw [Image.length_inside] at hlt
  omega

/-- The line of an item itself. -/
def lineOf (disassembly : Disassembly) (comments : Bool) : Item → String
  | .instruction address found => Listing.instructionLine address found
      (Listing.operandLabel? disassembly disassembly.starts found) comments
  | .data address byte => Listing.dataLine address byte

/-- The lines of an item are that of the label of its address, if there is one, and its own. -/
theorem itemLines_eq (disassembly : Disassembly) (comments : Bool) (item : Item) :
    Listing.itemLines disassembly disassembly.starts comments item =
      (disassembly.labels[item.address]?).toList.map Listing.labelLine ++
        [disassembly.lineOf comments item] := by
  unfold Listing.itemLines
  cases disassembly.labels[item.address]? <;> cases item <;> rfl

/-- The line of an item is read as its clause. -/
theorem reads_lineOf (hexplore : explore image limit = .ok disassembly)
    (hsize : image.size < 0x80000000) (comments : Bool) {item : Item}
    (hmem : item ∈ disassembly.items) :
    Reads Lexeme.EndsLine (disassembly.lineOf comments item).toList
      (disassembly.clauseOf item).kinds := by
  cases item with
  | instruction address found =>
    obtain ⟨high, low, rfl, _⟩ := (divides_items hexplore).getElem?_instruction hmem
    have hname : ∀ name ∈ Listing.operandLabel? disassembly disassembly.starts
        (.ofWord (.ofBytes high low)),
        name = labelFor (Instruction.ofWord (.ofBytes high low)).target := fun name hname =>
      label_eq_of_explore hexplore (operandLabel?_eq_some hexplore hname).2.1
    simp only [lineOf, clauseOf, listed, Opcode.raw_ofWord]
    refine Listing.reads_instructionLine address _ (fun name hmem => ?_) fun _ name hmem => ?_
    · exact hname name hmem ▸ writable_labelFor _
    · exact hname name hmem ▸ length_labelFor_target_lt _
  | data address byte =>
    have hlt := address_lt hexplore hmem
    have hbound : Machine.loadAddress + 0x80000000 < Machine.numberBound := by decide
    exact Listing.reads_dataLine (Nat.lt_trans hlt (by omega)) byte

/-- The lines of an item are read as its clauses. -/
theorem forall₂_reads_itemLines (hexplore : explore image limit = .ok disassembly)
    (hsize : image.size < 0x80000000) (comments : Bool) {item : Item}
    (hmem : item ∈ disassembly.items) :
    List.Forall₂ (fun line clause => Reads Lexeme.EndsLine (String.toList line) clause.kinds)
      (Listing.itemLines disassembly disassembly.starts comments item)
      (disassembly.clausesOf item) := by
  have hline := reads_lineOf hexplore hsize comments hmem
  rw [itemLines_eq, clausesOf]
  cases hlabel : disassembly.labels[item.address]? with
  | none => exact .cons hline .nil
  | some name =>
    refine .cons ?_ (.cons hline .nil)
    exact Listing.reads_labelLine (label_eq_of_explore hexplore hlabel ▸ writable_labelFor _)

/-- The text of a listing is read as its clauses. -/
theorem reads_text (hexplore : explore image limit = .ok disassembly)
    (hsize : image.size < 0x80000000) (comments : Bool) :
    Reads Lexeme.EndsLine (disassembly.text comments).toList
      (disassembly.clauses.flatMap Clause.kinds) := by
  have hlines : ∀ items : List Item, (∀ item ∈ items, item ∈ disassembly.items) →
      List.Forall₂ (Reads Lexeme.EndsLine)
        ((items.flatMap (Listing.itemLines disassembly disassembly.starts comments)).map
          String.toList)
        ((items.flatMap disassembly.clausesOf).map Clause.kinds) := by
    intro items hall
    rw [List.forall₂_map_left_iff, List.forall₂_map_right_iff]
    induction items with
    | nil => exact .nil
    | cons item items ih =>
      obtain ⟨hhead, htail⟩ := List.forall_mem_cons.mp hall
      exact List.rel_append (forall₂_reads_itemLines hexplore hsize comments hhead) (ih htail)
  have hseparator : ∀ tail, Lexeme.EndsLine ("\n".toList ++ tail) :=
    fun tail c hmem => (Option.some.inj hmem).symm
  have hreads := Reads.intercalate hseparator (List.all_eq_true.mp (by decide))
    (hlines disassembly.items fun _ hmem => hmem)
  rw [text, lines, String.toList_intercalate, List.flatMap_def]
  exact hreads

/-- The clauses of a listing are spelled by the tokens of its text. -/
theorem exists_tokenize_text (hexplore : explore image limit = .ok disassembly)
    (hsize : image.size < 0x80000000) (hsites : Clause.Sites disassembly.clauses site)
    (comments : Bool) :
    ∃ tokens, tokenize (disassembly.text comments) = .ok tokens ∧
      Clause.Spells disassembly.clauses (tokens.map (·.value)) := by
  obtain ⟨tokens, htokens, hkinds⟩ :=
    (reads_text hexplore hsize comments).exists_tokenize fun _ hmem => nomatch hmem
  refine ⟨tokens, htokens, hkinds ▸ Clause.spells_kinds (fun start hmem => ?_) ?_⟩
  · obtain ⟨byte, hnil, _⟩ := exists_item_of_mem_blocks hmem
    cases hnil
  · intro instruction hmem
    obtain ⟨start, found, hitem, rfl⟩ := exists_item_of_mem_instructions hmem
    exact (encodes_listed hexplore hsites hitem).1

/-- The listing of an image that fits into memory is assembled to a program that means what it
says. -/
theorem exists_means_of_text (hexplore : explore image limit = .ok disassembly)
    (hsize : image.size ≤ Machine.programLimit) (hsites : Clause.Sites disassembly.clauses site)
    (comments : Bool) :
    ∃ program, Program.ofSource (disassembly.text comments) = .ok program ∧
      program.Means disassembly.clauses site := by
  have hlimit : Machine.loadAddress + Machine.programLimit < Machine.numberBound ∧
      Machine.programLimit < 0x80000000 := by decide
  obtain ⟨tokens, htokens, hspells⟩ :=
    exists_tokenize_text hexplore (by omega) hsites comments
  have haddresses : ∀ address, Clause.IsData disassembly.clauses address →
      address + 1 < Machine.numberBound := by
    intro address hdata
    obtain ⟨byte, hitem⟩ := isData_clauses_iff.mp hdata
    have hlt : address < Machine.loadAddress + image.size := address_lt hexplore hitem
    omega
  obtain ⟨size, hleast, hfits, _⟩ := Program.ofTokens_cases_of_coherent hspells hsites
    (coherent_clauses hexplore hsites) haddresses
  obtain rfl : size = image.size := hleast.unique (isLeast_size hexplore (by omega) hsites)
  obtain ⟨program, hprogram, hmeans⟩ := hfits hsize
  refine ⟨program, ?_, hmeans⟩
  rw [Program.ofSource, htokens]
  simp only [hprogram, Except.mapError]

end ChipEight.Disassembly

namespace ChipEight

/-- Assembling the listing of an image gives back the image, or refuses it because it is too
large. -/
theorem Program.ofSource_lines_of_disassemble {image : Array UInt8} {options : Options}
    {lines : List String} (hsize : image.size < 0x80000000)
    (hlines : disassemble image options = .ok lines) :
    (ofSource ("\n".intercalate lines)).map (·.bytes) =
      if image.size ≤ Machine.programLimit then .ok image
      else .error (.assembly (.programTooLarge image.size Machine.programLimit)) := by
  cases hexplore : Disassembly.explore image options.branchLimit with
  | error error => simp [disassemble, hexplore, bind, Except.bind] at hlines
  | ok disassembly =>
    obtain rfl : disassembly.lines options.comments = lines := by
      simpa [disassemble, hexplore, bind, Except.bind, pure, Except.pure] using hlines
    obtain ⟨site, hsites⟩ := Clause.exists_sites disassembly.clauses
    obtain ⟨tokens, htokens, hkinds⟩ :=
      (Disassembly.reads_text hexplore hsize options.comments).exists_tokenize
        fun _ hmem => nomatch hmem
    have hspells : Clause.Spells disassembly.clauses (tokens.map (·.value)) := by
      rw [hkinds]
      refine Clause.spells_kinds (fun start hmem => ?_) fun instruction hmem => ?_
      · obtain ⟨byte, hnil, _⟩ := Disassembly.exists_item_of_mem_blocks hmem
        cases hnil
      · obtain ⟨start, found, hitem, rfl⟩ := Disassembly.exists_item_of_mem_instructions hmem
        exact (Disassembly.encodes_listed hexplore hsites hitem).1
    have hbound : Machine.loadAddress + image.size < Machine.numberBound :=
      Nat.lt_trans (Nat.add_lt_add_left hsize Machine.loadAddress) (by decide)
    have haddresses : ∀ address, Clause.IsData disassembly.clauses address →
        address + 1 < Machine.numberBound := by
      intro address hdata
      obtain ⟨byte, hitem⟩ := Disassembly.isData_clauses_iff.mp hdata
      exact Nat.lt_of_le_of_lt (Disassembly.address_lt hexplore hitem) hbound
    obtain ⟨size, hleast, hfits, hlarge⟩ := Program.ofTokens_cases_of_coherent hspells hsites
      (Disassembly.coherent_clauses hexplore hsites) haddresses
    obtain rfl : size = image.size :=
      hleast.unique (Disassembly.isLeast_size hexplore hbound hsites)
    have hsource : ofSource ("\n".intercalate (disassembly.lines options.comments)) =
        (Program.ofTokens tokens).mapError .assembly := by
      simp only [Disassembly.text] at htokens
      rw [Program.ofSource, htokens]
    rw [hsource]
    by_cases hle : image.size ≤ Machine.programLimit
    · obtain ⟨program, hprogram, hmeans⟩ := hfits hle
      rw [if_pos hle, hprogram, ← Disassembly.bytes_eq_of_means hexplore hbound hsites hmeans]
      rfl
    · rw [if_neg hle, hlarge (Nat.lt_of_not_le hle)]
      rfl

/-- The listing of an image with overlapping code, a label, a data byte and a word with unused
bits is assembled to the image. -/
theorem Program.ofSource_lines_of_overlapping_code :
    ∃ lines, disassemble #[0x22, 0x01, 0x12, 0x05, 0x99, 0x81, 0x26, 0x00, 0xEE] ⟨false, 48⟩ =
        .ok lines ∧
      lines = ["JSR   201h                ", "JMP   :label-0x0205       ", "DATA\t204h, 99h",
        ":label-0x0205", "NOOP  8126h               ", "RET                       "] ∧
      (ofSource ("\n".intercalate lines)).map (·.bytes) =
        .ok #[0x22, 0x01, 0x12, 0x05, 0x99, 0x81, 0x26, 0x00, 0xEE] := by
  have hlines : disassemble #[0x22, 0x01, 0x12, 0x05, 0x99, 0x81, 0x26, 0x00, 0xEE]
      ⟨false, 48⟩ = .ok ["JSR   201h                ", "JMP   :label-0x0205       ",
        "DATA\t204h, 99h", ":label-0x0205", "NOOP  8126h               ",
        "RET                       "] := by
    decide +kernel
  exact ⟨_, hlines, rfl, ofSource_lines_of_disassemble (by decide) hlines⟩

end ChipEight
