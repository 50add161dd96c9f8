import ChipEight.Proofs.Exploration.Edges
import ChipEight.Proofs.Listing.Partition
import ChipEight.Proofs.Listing.RoundTrip

/-!
# The symbols of a listing

A label is listed at the item of its address, and where the listing is assembled it means the
place of the next instruction. The two are the same address wherever an instruction is listed. A
label can only stand at a byte of data if no word fits there, which is so at the last byte of the
image: such a label is not used in the listing, and it means the end of the image.
-/

namespace ChipEight

namespace Listing

/-- Labels with different names have different lines. -/
theorem labelLine_injective : Function.Injective labelLine := by
  intro first second heq
  have htext := congrArg String.toList heq
  rw [labelLine, labelLine, Operand.text, Operand.text, String.toList_append,
    String.toList_append] at htext
  exact String.toList_injective (List.append_cancel_left htext)

/-- The line of a label starts with a colon. -/
theorem head?_labelLine (name : String) : (labelLine name).toList.head? = some ':' := by
  rw [labelLine, Operand.text, String.toList_append]
  rfl

end Listing

namespace Disassembly

variable {image : Array UInt8} {limit : Nat} {disassembly : Disassembly} {site : Nat → Nat}

/-- Data with a label is the last byte before the end of the image. -/
theorem last_of_labelled_data (hexplore : explore image limit = .ok disassembly) {place : Nat}
    {byte : UInt8} {name : String} (hmem : .data place byte ∈ disassembly.items)
    (hlabel : disassembly.labels[place]? = some name) : place + 1 = disassembly.stop := by
  have hnone := (divides_items hexplore).none_of_data hmem
  have hword : (Image.load image).fetch? place = none := by
    refine (explored_of_label hexplore hlabel).resolve_left fun hfound => ?_
    rw [Std.TreeMap.mem_iff_isSome_getElem?, hnone] at hfound
    cases hfound
  have hbounds := bounds_of_data hexplore hmem
  rw [Image.fetch?_load_eq_none_iff, ← stop_eq_of_explore hexplore] at hword
  omega

/-- Behind the last byte there is no more data, so a label at it means the end of the image. -/
theorem site_of_labelled_data (hexplore : explore image limit = .ok disassembly)
    (hsites : Clause.Sites disassembly.clauses site) {front back : List Item} {place : Nat}
    {byte : UInt8} {name : String} (hitems : disassembly.items = front ++ .data place byte :: back)
    (hlabel : disassembly.labels[place]? = some name) :
    site (front.filterMap Item.code?).length = place + 1 := by
  have hleast := isLeast_site hexplore hsites hitems
  have hmem : .data place byte ∈ disassembly.items := by
    rw [hitems]
    exact List.mem_append_right _ List.mem_cons_self
  have hlast := last_of_labelled_data hexplore hmem hlabel
  have hend : ¬Clause.IsData disassembly.clauses (place + 1) := by
    rw [isData_clauses_iff]
    rintro ⟨other, hother⟩
    exact absurd hlast (Nat.ne_of_lt (bounds_of_data hexplore hother).2)
  have hne : site (front.filterMap Item.code?).length ≠ place := fun heq =>
    hleast.1.2 (heq ▸ isData_clauses_iff.mpr ⟨byte, hmem⟩)
  exact Nat.le_antisymm (hleast.2 ⟨Nat.le_succ place, hend⟩)
    (Nat.lt_of_le_of_ne hleast.1.1 hne.symm)

/-- The line of an item is no line of a label. -/
theorem lineOf_ne_labelLine (hexplore : explore image limit = .ok disassembly) (comments : Bool)
    {item : Item} (hmem : item ∈ disassembly.items) (name : String) :
    disassembly.lineOf comments item ≠ Listing.labelLine name := by
  intro heq
  have hhead := Listing.head?_labelLine name
  rw [← heq] at hhead
  cases item with
  | data address byte =>
    rw [lineOf, Listing.dataLine, String.append_assoc, String.append_assoc, String.toList_append]
      at hhead
    exact absurd hhead (by simp [Token.Kind.text, Mnemonic.text])
  | instruction address found =>
    obtain ⟨high, low, rfl, _⟩ := (divides_items hexplore).getElem?_instruction hmem
    have hmnemonic : ∀ mnemonic : Mnemonic, ∀ text : List Char,
        (mnemonic.text.toList ++ text).head? ≠ some ':' := by
      intro mnemonic text
      cases mnemonic <;> simp [Mnemonic.text]
    rw [lineOf, Listing.instructionLine, Opcode.parts_ofWord] at hhead
    cases comments with
    | false =>
      simp only [Bool.false_eq_true, if_false, String.toList_append, Listing.toList_column,
        List.append_assoc] at hhead
      exact hmnemonic _ _ hhead
    | true =>
      simp only [if_true, String.toList_append, Listing.toList_column, List.append_assoc] at hhead
      exact hmnemonic _ _ hhead

/-- The lines of some items. -/
def linesOf (disassembly : Disassembly) (comments : Bool) (items : List Item) : List String :=
  items.flatMap (Listing.itemLines disassembly disassembly.starts comments)

/-- What an item is listed as if it has a label. -/
theorem itemLines_of_label {comments : Bool} {item : Item} {name : String}
    (hlabel : disassembly.labels[item.address]? = some name) :
    Listing.itemLines disassembly disassembly.starts comments item =
      [Listing.labelLine name, disassembly.lineOf comments item] := by
  rw [itemLines_eq, hlabel]
  rfl

/-- The line of a label in a text that an item starts is the first line of the item, or it stands
behind all lines of the item. -/
theorem label_or_behind_of_itemLines_append {comments : Bool} {item : Item}
    {rest above below : List String} {name : String}
    (hne : disassembly.lineOf comments item ≠ Listing.labelLine name)
    (hlines : Listing.itemLines disassembly disassembly.starts comments item ++ rest =
      above ++ Listing.labelLine name :: below) :
    (above = [] ∧ disassembly.labels[item.address]? = some name ∧
        below = disassembly.lineOf comments item :: rest) ∨
      ∃ more, above = Listing.itemLines disassembly disassembly.starts comments item ++ more ∧
        rest = more ++ Listing.labelLine name :: below := by
  rw [itemLines_eq] at hlines ⊢
  cases hown : disassembly.labels[item.address]? with
  | none =>
    rw [hown, Option.toList_none, List.map_nil, List.nil_append, List.singleton_append] at hlines
    obtain _ | ⟨first, above⟩ := above
    · exact absurd (List.cons.inj hlines).1 hne
    · rw [List.cons_append, List.cons.injEq] at hlines
      obtain ⟨rfl, hrest⟩ := hlines
      exact Or.inr ⟨above, rfl, hrest⟩
  | some own =>
    rw [hown, Option.toList_some, List.map_singleton, List.append_assoc, List.singleton_append,
      List.singleton_append] at hlines
    obtain _ | ⟨first, _ | ⟨second, above⟩⟩ := above
    · obtain ⟨hline, hrest⟩ := List.cons.inj hlines
      exact Or.inl ⟨rfl, congrArg some (Listing.labelLine_injective hline), hrest.symm⟩
    · exact absurd (List.cons.inj (List.cons.inj hlines).2).1 hne
    · simp only [List.cons_append, List.cons.injEq] at hlines
      obtain ⟨rfl, rfl, hrest⟩ := hlines
      exact Or.inr ⟨above, rfl, hrest⟩

/-- Below the line of a label stands the line of an item that has the label, and above it stand
the lines of the items in front. -/
theorem exists_item_of_linesOf_eq (hexplore : explore image limit = .ok disassembly)
    (comments : Bool) {items : List Item} (hitems : ∀ item ∈ items, item ∈ disassembly.items)
    {above below : List String} {name : String}
    (hlines : disassembly.linesOf comments items = above ++ Listing.labelLine name :: below) :
    ∃ front item back, items = front ++ item :: back ∧
      disassembly.labels[item.address]? = some name ∧
      above = disassembly.linesOf comments front ∧
      below = disassembly.lineOf comments item :: disassembly.linesOf comments back := by
  induction items generalizing above with
  | nil => simp [linesOf] at hlines
  | cons item items ih =>
    obtain ⟨hmem, hitems⟩ := List.forall_mem_cons.mp hitems
    rcases label_or_behind_of_itemLines_append
      (lineOf_ne_labelLine hexplore comments hmem name) hlines with
        ⟨rfl, hlabel, rfl⟩ | ⟨more, rfl, hrest⟩
    · exact ⟨[], item, items, rfl, hlabel, rfl, rfl⟩
    · obtain ⟨front, found, back, rfl, hlabel, rfl, rfl⟩ := ih hitems hrest
      exact ⟨item :: front, found, back, rfl, hlabel, rfl, rfl⟩

/-- The lines of labels are those of the items that have one. -/
theorem labelLine_mem_iff (hexplore : explore image limit = .ok disassembly) (comments : Bool)
    {name : String} :
    Listing.labelLine name ∈ disassembly.lines comments ↔
      ∃ item ∈ disassembly.items, disassembly.labels[item.address]? = some name := by
  constructor
  · intro hmem
    obtain ⟨above, below, hlines⟩ := List.append_of_mem hmem
    obtain ⟨front, item, back, hitems, hlabel, -⟩ :=
      exists_item_of_linesOf_eq hexplore comments (fun _ hmem => hmem) hlines
    exact ⟨item, hitems ▸ List.mem_append_right _ List.mem_cons_self, hlabel⟩
  · rintro ⟨item, hmem, hlabel⟩
    refine List.mem_flatMap.mpr ⟨item, hmem, ?_⟩
    rw [itemLines_of_label hlabel]
    exact List.mem_cons_self

/-- The labels that are defined are those of the items that have one. -/
theorem exists_item_of_mem_definitions {name : String} {index : Nat}
    (hmem : (name, index) ∈ Clause.definitions disassembly.clauses) :
    ∃ item ∈ disassembly.items, disassembly.labels[item.address]? = some name := by
  have hname := List.mem_map_of_mem (f := Prod.fst) hmem
  rw [Clause.definitions, clauses, names_clausesOf] at hname
  exact List.mem_filterMap.mp hname

end Disassembly

/-- Whatever image is explored and fits into memory, its listing can be assembled, and the symbols
are the names on the lines of labels. Such a name is that of the address of the item whose line
stands below. If this is an instruction, then the symbol is its address. Otherwise it is the last
byte of the image, and the symbol is the end of the image. -/
theorem Program.symbols_of_listing {image : Array UInt8} {limit : Nat} {disassembly : Disassembly}
    (hsize : image.size ≤ Machine.programLimit)
    (hexplore : Disassembly.explore image limit = .ok disassembly) (comments : Bool) :
    ∃ program, ofSource ("\n".intercalate (disassembly.lines comments)) = .ok program ∧
      (program.symbols.map (·.1)).Nodup ∧
      (∀ name, name ∈ program.symbols.map (·.1) ↔
        Listing.labelLine name ∈ disassembly.lines comments) ∧
      ∀ above name below, disassembly.lines comments = above ++ Listing.labelLine name :: below →
        ∃ front item back, disassembly.items = front ++ item :: back ∧
          above = disassembly.linesOf comments front ∧
          below = disassembly.lineOf comments item :: disassembly.linesOf comments back ∧
          name = labelFor item.address ∧
          (item.isInstruction = true → (name, item.address) ∈ program.symbols) ∧
          (item.isInstruction = false →
            item.address + 1 = Machine.loadAddress + image.size ∧
              (name, item.address + 1) ∈ program.symbols) := by
  obtain ⟨site, hsites⟩ := Clause.exists_sites disassembly.clauses
  obtain ⟨program, hprogram, hmeans⟩ :=
    Disassembly.exists_means_of_text hexplore hsize hsites comments
  have hsymbol : ∀ (front : List Item) (item : Item) (back : List Item) (name : String),
      disassembly.items = front ++ item :: back →
      disassembly.labels[item.address]? = some name →
      (name, site (front.filterMap Item.code?).length) ∈ program.symbols :=
    fun front item back name hitems hlabel =>
      (hmeans.symbols_iff _ _).mpr ⟨_, Disassembly.mem_definitions hitems hlabel, rfl⟩
  refine ⟨program, hprogram, hmeans.symbols_nodup, fun name => ?_, ?_⟩
  · rw [Disassembly.labelLine_mem_iff hexplore, List.mem_map]
    constructor
    · rintro ⟨⟨_, value⟩, hmem, rfl⟩
      obtain ⟨index, hdefined, _⟩ := (hmeans.symbols_iff _ _).mp hmem
      exact Disassembly.exists_item_of_mem_definitions hdefined
    · rintro ⟨item, hmem, hlabel⟩
      obtain ⟨front, back, hitems⟩ := List.append_of_mem hmem
      exact ⟨_, hsymbol front item back name hitems hlabel, rfl⟩
  · intro above name below hlines
    have hstop : disassembly.stop = Machine.loadAddress + image.size := by
      rw [Disassembly.stop_eq_of_explore hexplore,
        Image.stop_load_eq (Image.fits_of_le hsize).stop_lt]
    obtain ⟨front, item, back, hitems, hlabel, habove, hbelow⟩ :=
      Disassembly.exists_item_of_linesOf_eq hexplore comments (fun _ hmem => hmem) hlines
    have hmem : item ∈ disassembly.items := hitems ▸ List.mem_append_right _ List.mem_cons_self
    have hdefined := hsymbol front item back name hitems hlabel
    refine ⟨front, item, back, hitems, habove, hbelow,
      Disassembly.label_eq_of_explore hexplore hlabel, ?_⟩
    cases item with
    | instruction start found =>
      rw [Disassembly.site_length_eq hexplore hsites hitems] at hdefined
      exact ⟨fun _ => hdefined, (nomatch ·)⟩
    | data place byte =>
      rw [Disassembly.site_of_labelled_data hexplore hsites hitems hlabel] at hdefined
      exact ⟨(nomatch ·), fun _ =>
        ⟨hstop ▸ Disassembly.last_of_labelled_data hexplore hmem hlabel, hdefined⟩⟩

/-- A call leads to an instruction, whose label means its address, and a jump leads to the last
byte, which has a label as well. -/
theorem Program.symbols_of_call_and_jump :
    ∃ disassembly program, Disassembly.explore #[0x22, 0x04, 0x12, 0x06, 0x00, 0xEE, 0xAA] 48 =
        .ok disassembly ∧
      disassembly.lines false = ["JSR   :label-0x0204       ", "JMP   206h                ",
        ":label-0x0204", "RET                       ", ":label-0x0206", "DATA\t206h, AAh"] ∧
      ofSource ("\n".intercalate (disassembly.lines false)) = .ok program ∧
      (labelFor 0x204, 0x204) ∈ program.symbols ∧
      labelFor 0x206 ∈ program.symbols.map (·.1) := by
  obtain ⟨disassembly, hexplore, hlines⟩ : ∃ disassembly,
      Disassembly.explore #[0x22, 0x04, 0x12, 0x06, 0x00, 0xEE, 0xAA] 48 = .ok disassembly ∧
      disassembly.lines false = ["JSR   :label-0x0204       ", "JMP   206h                ",
        Listing.labelLine (labelFor 0x204), "RET                       ",
        Listing.labelLine (labelFor 0x206), "DATA\t206h, AAh"] := by
    decide +kernel
  obtain ⟨program, hprogram, _, hnames, hvalues⟩ :=
    symbols_of_listing (by decide) hexplore false
  obtain ⟨_, item, _, _, _, _, hname, hcode, hdata⟩ := hvalues [_, _] _ _ hlines
  have haddress : 0x204 = item.address := labelFor_injective hname
  have hinstruction : item.isInstruction = true := by
    by_contra hnot
    obtain ⟨hlast, _⟩ := hdata (Bool.not_eq_true _ ▸ hnot)
    rw [← haddress] at hlast
    exact absurd hlast (by decide)
  refine ⟨disassembly, program, hexplore, hlines.trans (by decide +kernel), hprogram, ?_, ?_⟩
  · simpa only [← haddress] using hcode hinstruction
  · exact (hnames _).mpr (by rw [hlines]; simp)

/-- The label of a jump to the last byte of an image is listed at this byte, and does not mean its
address. -/
theorem Program.symbols_of_jump_to_last_byte :
    ∃ lines program, disassemble #[0x12, 0x02, 0xAA] ⟨false, 48⟩ = .ok lines ∧
      lines = ["JMP   202h                ", ":label-0x0202", "DATA\t202h, AAh"] ∧
      ofSource ("\n".intercalate lines) = .ok program ∧
      labelFor 0x202 = "label-0x0202" ∧ (labelFor 0x202, 0x202) ∉ program.symbols ∧
      program.symbols = [("label-0x0202", 0x203)] := by
  have hlines : disassemble #[0x12, 0x02, 0xAA] ⟨false, 48⟩ =
      .ok ["JMP   202h                ", ":label-0x0202", "DATA\t202h, AAh"] := by decide +kernel
  have htokens : tokenize ("\n".intercalate
      ["JMP   202h                ", ":label-0x0202", "DATA\t202h, AAh"]) =
        .ok [⟨.instruction .jmp, ⟨1, 1⟩⟩, ⟨.operand (.integer 0x202), ⟨1, 7⟩⟩,
          ⟨.operand (.label "label-0x0202"), ⟨2, 1⟩⟩, ⟨.data, ⟨3, 1⟩⟩,
          ⟨.operand (.integer 0x202), ⟨3, 6⟩⟩, ⟨.operand (.integer 0xAA), ⟨3, 12⟩⟩,
          ⟨.eof, ⟨3, 15⟩⟩] := by
    decide +kernel
  have hprogram : ofSource ("\n".intercalate
      ["JMP   202h                ", ":label-0x0202", "DATA\t202h, AAh"]) =
        .ok ⟨#[0x12, 0x02, 0xAA], [("label-0x0202", 0x203)]⟩ := by
    rw [ofSource, htokens]
    cbv
  exact ⟨_, _, hlines, rfl, hprogram, by decide +kernel, by simp, rfl⟩

end ChipEight
