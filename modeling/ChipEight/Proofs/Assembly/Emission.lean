import ChipEight.Assembly.Layout
import ChipEight.Proofs.Basics

/-!
# The bytes of an image

An image is written data first and then word by word in address order. Byte by byte it is
an overlay: the high byte of the word placed at an address comes first, then the low byte
of the word placed one address below, then the data, and zero where there is none. An image
that fits is refused for the reason of the lowest instruction that has no word.
-/

namespace ChipEight

namespace Layout

/-- The byte at an address after words have been laid over what was there. -/
def overlay (word? : Nat → Option Word) (address : Nat) (byte : UInt8) : UInt8 :=
  match word? address with
  | some word => word.high
  | none =>
    match word? (address - 1) with
    | some word => word.low
    | none => byte

/-- A word at an address puts its high byte there. -/
theorem overlay_of_word {word? : Nat → Option Word} {address : Nat} {word : Word} {byte : UInt8}
    (hword : word? address = some word) : overlay word? address byte = word.high := by
  rw [overlay, hword]

/-- A word one address below puts its low byte at an address without a word. -/
theorem overlay_of_word_below {word? : Nat → Option Word} {address : Nat} {word : Word}
    {byte : UInt8} (hnone : word? address = none) (hword : word? (address - 1) = some word) :
    overlay word? address byte = word.low := by
  rw [overlay, hnone, hword]

/-- Away from words there is what was there before. -/
theorem overlay_of_none {word? : Nat → Option Word} {address : Nat} {byte : UInt8}
    (hfirst : word? address = none) (hsecond : word? (address - 1) = none) :
    overlay word? address byte = byte := by
  rw [overlay, hfirst, hsecond]

/-- Storing a byte in the program's part of memory changes that byte of the image. -/
theorem getElem?_storeByte {image : Array UInt8} {address : Nat} {byte : UInt8}
    (hlow : Machine.loadAddress ≤ address) (offset : Nat) :
    (storeByte image address byte)[offset]? = image[offset]?.map fun old =>
      if Machine.loadAddress + offset = address then byte else old := by
  rw [storeByte, Array.getElem?_setIfInBounds]
  by_cases hoffset : address - Machine.loadAddress = offset
  · have heq : Machine.loadAddress + offset = address := by omega
    by_cases hlt : offset < image.size
    · simp [hoffset, heq, hlt]
    · simp [hoffset, hlt]
  · have hne : Machine.loadAddress + offset ≠ address := by omega
    simp [hoffset, hne]

/-- Storing bytes at different addresses changes these bytes of the image. -/
theorem getElem?_foldl_storeByte {entries : List (Nat × UInt8)} {image : Array UInt8}
    (hdistinct : entries.Pairwise fun first second => first.1 ≠ second.1)
    (hlow : ∀ entry ∈ entries, Machine.loadAddress ≤ entry.1) (offset : Nat) :
    (entries.foldl (fun image entry => storeByte image entry.1 entry.2) image)[offset]? =
      image[offset]?.map fun old =>
        (entries.lookup (Machine.loadAddress + offset)).getD old := by
  induction entries generalizing image with
  | nil => simp
  | cons entry entries ih =>
    obtain ⟨address, byte⟩ := entry
    obtain ⟨hhead, htail⟩ := List.pairwise_cons.mp hdistinct
    rw [List.foldl_cons, ih htail fun entry hmem => hlow entry (List.mem_cons_of_mem _ hmem),
      getElem?_storeByte (hlow _ List.mem_cons_self), Option.map_map, List.lookup_cons]
    congr 1
    funext old
    by_cases haddress : Machine.loadAddress + offset = address
    · have hnone : entries.lookup address = none := by
        rw [Option.eq_none_iff_forall_ne_some]
        intro other hlookup
        exact hhead _ ((lookup_eq_some_iff_mem htail).mp hlookup) rfl
      simp [haddress, hnone]
    · have hne : (Machine.loadAddress + offset == address) = false := beq_false_of_ne haddress
      simp [haddress, hne]

/-- Words at higher addresses are laid over a word that has been stored. -/
theorem overlay_cons {entries : List (Nat × Word)} {address : Nat} {word : Word}
    (hhead : ∀ entry ∈ entries, address < entry.1) {target : Nat} (hpos : 0 < target)
    (byte : UInt8) :
    overlay (List.lookup · ((address, word) :: entries)) target byte =
      overlay (List.lookup · entries) target
        (if target = address + 1 then word.low else if target = address then word.high
          else byte) := by
  have hnone : ∀ other ≤ address, entries.lookup other = none := by
    intro other hle
    rw [List.lookup_eq_none_iff]
    intro entry hmem
    have hlt := hhead entry hmem
    exact bne_iff_ne.mpr (by omega)
  have hskip : ∀ other ≠ address,
      List.lookup other ((address, word) :: entries) = entries.lookup other := by
    intro other hne
    rw [List.lookup_cons, beq_false_of_ne hne]
  by_cases hsecond : target = address + 1
  · subst hsecond
    simp [overlay, hskip (address + 1) (Nat.succ_ne_self _), hnone address (Nat.le_refl _)]
  · by_cases hfirst : target = address
    · subst hfirst
      simp [overlay, hnone target (Nat.le_refl _), hnone (target - 1) (Nat.sub_le _ _)]
    · have hbelow : target - 1 ≠ address := by omega
      simp only [overlay, hskip target hfirst, hskip (target - 1) hbelow, if_neg hsecond,
        if_neg hfirst]

/-- Storing words from low to high addresses lays them over the image. -/
theorem getElem?_foldl_storeWord {entries : List (Nat × Word)} {image : Array UInt8}
    (hsorted : entries.Pairwise fun first second => first.1 < second.1)
    (hlow : ∀ entry ∈ entries, Machine.loadAddress ≤ entry.1) (offset : Nat) :
    (entries.foldl (fun image entry => storeWord image entry.1 entry.2) image)[offset]? =
      image[offset]?.map (overlay (List.lookup · entries) (Machine.loadAddress + offset)) := by
  induction entries generalizing image with
  | nil =>
    have hnone : overlay (List.lookup · []) (Machine.loadAddress + offset) = id := rfl
    rw [hnone, Option.map_id_apply]
    rfl
  | cons entry entries ih =>
    obtain ⟨address, word⟩ := entry
    obtain ⟨hhead, htail⟩ := List.pairwise_cons.mp hsorted
    have haddress := hlow _ List.mem_cons_self
    rw [List.foldl_cons, ih htail fun entry hmem => hlow entry (List.mem_cons_of_mem _ hmem),
      storeWord, getElem?_storeByte (Nat.le_succ_of_le haddress), getElem?_storeByte haddress,
      Option.map_map, Option.map_map]
    congr 1
    funext old
    have hpos : 0 < Machine.loadAddress + offset := Nat.lt_add_right _ (by decide)
    exact (overlay_cons hhead hpos old).symm

/-- The word of an instruction with a number, if there is one and it can be encoded. -/
def wordOf? (instructions : Array SourceInstruction) (index : Nat) : Option Word :=
  instructions[index]?.bind fun instruction => instruction.encode.toOption

/-- The word that a layout places at an address. -/
def wordAt? (layout : Layout) (instructions : Array SourceInstruction) (address : Nat) :
    Option Word :=
  layout.code[address]?.bind (wordOf? instructions)

/-- Stores the word of a placed instruction, if there is an instruction with its number. -/
def storeEntry (instructions : Array SourceInstruction) (image : Array UInt8)
    (entry : Nat × Nat) : Except AssemblyError (Array UInt8) :=
  match instructions[entry.2]? with
  | some instruction => return storeWord image entry.1 (← instruction.encode)
  | none => return image

/-- Writing placed instructions succeeds exactly if each can be encoded, and stores their
words one after another. -/
theorem foldlM_storeEntry_eq_ok_iff {instructions : Array SourceInstruction}
    {entries : List (Nat × Nat)} {image bytes : Array UInt8} :
    entries.foldlM (storeEntry instructions) image = .ok bytes ↔
      (∀ entry ∈ entries, ∀ instruction, instructions[entry.2]? = some instruction →
        ∃ word, instruction.encode = .ok word) ∧
      bytes = (entries.filterMap fun entry =>
        (wordOf? instructions entry.2).map (entry.1, ·)).foldl
          (fun image entry => storeWord image entry.1 entry.2) image := by
  induction entries generalizing image with
  | nil => simp [pure, Except.pure, eq_comm]
  | cons entry entries ih =>
    rw [List.foldlM_cons, List.forall_mem_cons, List.filterMap_cons, storeEntry]
    cases hinstruction : instructions[entry.2]? with
    | none =>
      simp only [wordOf?, hinstruction, Option.bind_none, Option.map_none, reduceCtorEq,
        IsEmpty.forall_iff, implies_true, true_and]
      exact ih
    | some instruction =>
      cases hword : instruction.encode with
      | error error => simp [hword, bind, Except.bind]
      | ok word =>
        simp only [wordOf?, hinstruction, Option.bind_some, hword, Except.toOption,
          Option.map_some, List.foldl_cons, Option.some.injEq, forall_eq', Except.ok.injEq,
          exists_eq', true_and]
        exact ih

/-- The words that a layout places, from low to high addresses. -/
def words (layout : Layout) (instructions : Array SourceInstruction) : List (Nat × Word) :=
  layout.code.toList.filterMap fun entry =>
    (wordOf? instructions entry.2).map (entry.1, ·)

/-- The words that a layout places have rising addresses. -/
theorem words_sorted (layout : Layout) (instructions : Array SourceInstruction) :
    (layout.words instructions).Pairwise fun first second => first.1 < second.1 := by
  refine List.pairwise_filterMap.mpr (Std.TreeMap.ordered_keys_toList.imp ?_)
  intro first second hlt word hword other hother
  rw [Option.map_eq_some_iff] at hword hother
  obtain ⟨_, _, rfl⟩ := hword
  obtain ⟨_, _, rfl⟩ := hother
  exact Nat.compare_eq_lt.mp hlt

/-- A word that a layout places is found at its address. -/
theorem lookup_words (layout : Layout) (instructions : Array SourceInstruction)
    (address : Nat) :
    (layout.words instructions).lookup address = layout.wordAt? instructions address := by
  refine Option.ext fun word => ?_
  rw [lookup_eq_some_iff_mem ((layout.words_sorted instructions).imp Nat.ne_of_lt), words,
    List.mem_filterMap, wordAt?, Option.bind_eq_some_iff]
  constructor
  · rintro ⟨⟨place, index⟩, hmem, hword⟩
    obtain ⟨_, hfound, hpair⟩ := Option.map_eq_some_iff.mp hword
    cases hpair
    exact ⟨index, Std.TreeMap.mem_toList_iff_getElem?_eq_some.mp hmem, hfound⟩
  · rintro ⟨index, hindex, hfound⟩
    exact ⟨(address, index), Std.TreeMap.mem_toList_iff_getElem?_eq_some.mpr hindex,
      by rw [hfound, Option.map_some]⟩

/-- The image of a layout that fits, before any word is stored. -/
def dataImage (layout : Layout) : Array UInt8 :=
  layout.data.foldl storeByte (Array.replicate layout.size 0)

/-- Storing data does not change the size of an image. -/
theorem size_dataImage (layout : Layout) : layout.dataImage.size = layout.size := by
  have hstores : ∀ (entries : List (Nat × UInt8)) (image : Array UInt8),
      (entries.foldl (fun image entry => storeByte image entry.1 entry.2) image).size =
        image.size := by
    intro entries
    induction entries with
    | nil => exact fun _ => rfl
    | cons entry entries ih =>
      intro image
      rw [List.foldl_cons, ih, storeByte, Array.size_setIfInBounds]
  rw [dataImage, Std.TreeMap.foldl_eq_foldl_toList, hstores, Array.size_replicate]

/-- Every instruction that a layout places has a word. -/
def Encodable (layout : Layout) (instructions : Array SourceInstruction) : Prop :=
  ∀ (address index : Nat) (instruction : SourceInstruction), layout.code[address]? = some index →
    instructions[index]? = some instruction → ∃ word, instruction.encode = .ok word

/-- A layout has an image exactly if it fits into memory and its instructions can be
encoded; then the image is the data with the words stored over it. -/
theorem image_eq_ok_iff {layout : Layout} {instructions : Array SourceInstruction}
    {bytes : Array UInt8} :
    layout.image instructions = .ok bytes ↔
      layout.size ≤ Machine.programLimit ∧
      layout.Encodable instructions ∧
      bytes = (layout.words instructions).foldl
        (fun image entry => storeWord image entry.1 entry.2) layout.dataImage := by
  have hentries : (∀ entry ∈ layout.code.toList, ∀ instruction,
      instructions[entry.2]? = some instruction → ∃ word, instruction.encode = .ok word) ↔
      layout.Encodable instructions := by
    simp only [Encodable, Prod.forall, Std.TreeMap.mem_toList_iff_getElem?_eq_some]
    exact ⟨fun hall address index instruction hindex => hall address index hindex instruction,
      fun hall address index hindex instruction => hall address index instruction hindex⟩
  rw [image, ← hentries]
  by_cases hsize : layout.size > Machine.programLimit
  · simp [hsize, Nat.not_le.mpr hsize]
  · rw [if_neg hsize, Std.TreeMap.foldlM_eq_foldlM_toList]
    simp only [Nat.not_lt.mp hsize, true_and]
    exact foldlM_storeEntry_eq_ok_iff

/-- A number belongs to an instruction that has no word, for a reason. -/
def Refused (instructions : Array SourceInstruction) (index : Nat) (error : AssemblyError) :
    Prop :=
  ∃ instruction, instructions[index]? = some instruction ∧ instruction.encode = .error error

/-- The number at an address belongs to an instruction that has no word, for a reason. -/
def RefusedAt (placed? : Nat → Option Nat) (instructions : Array SourceInstruction)
    (address : Nat) (error : AssemblyError) : Prop :=
  ∃ index, placed? address = some index ∧ Refused instructions index error

/-- Storing the word of a placed instruction fails exactly if it is refused. -/
theorem storeEntry_eq_error_iff {instructions : Array SourceInstruction} {image : Array UInt8}
    {entry : Nat × Nat} {error : AssemblyError} :
    storeEntry instructions image entry = .error error ↔ Refused instructions entry.2 error := by
  rw [storeEntry, Refused]
  cases instructions[entry.2]? with
  | none => simp [pure, Except.pure]
  | some instruction =>
    cases hencode : instruction.encode <;> simp [hencode, bind, Except.bind, pure, Except.pure]

/-- Storing words from low to high addresses fails for the reason of the lowest instruction that
is refused. -/
theorem foldlM_storeEntry_eq_error_iff {instructions : Array SourceInstruction}
    {entries : List (Nat × Nat)} {image : Array UInt8} {error : AssemblyError}
    (hsorted : entries.Pairwise fun first second => first.1 < second.1) :
    entries.foldlM (storeEntry instructions) image = .error error ↔
      ∃ entry ∈ entries, Refused instructions entry.2 error ∧
        ∀ lower ∈ entries, lower.1 < entry.1 → ∀ other, ¬Refused instructions lower.2 other := by
  induction entries generalizing image with
  | nil => simp [pure, Except.pure]
  | cons entry entries ih =>
    obtain ⟨hhead, htail⟩ := List.pairwise_cons.mp hsorted
    rw [List.foldlM_cons]
    cases hstep : storeEntry instructions image entry with
    | error reason =>
      have hrefused := storeEntry_eq_error_iff.mp hstep
      constructor
      · rintro ⟨⟩
        refine ⟨entry, List.mem_cons_self, hrefused, fun lower hmem hlt => ?_⟩
        rcases List.mem_cons.mp hmem with rfl | hmem
        · exact absurd hlt (Nat.lt_irrefl _)
        · exact absurd (hhead lower hmem) (Nat.lt_asymm hlt)
      · rintro ⟨other, hmem, hother, hlower⟩
        rcases List.mem_cons.mp hmem with rfl | hmem
        · rw [← @storeEntry_eq_error_iff _ image, hstep] at hother
          exact hother
        · exact absurd hrefused (hlower entry List.mem_cons_self (hhead other hmem) reason)
    | ok next =>
      have hfree : ∀ reason, ¬Refused instructions entry.2 reason := by
        intro reason hrefused
        cases hstep.symm.trans (storeEntry_eq_error_iff.mpr hrefused)
      change entries.foldlM (storeEntry instructions) next = .error error ↔ _
      rw [ih htail]
      constructor
      · rintro ⟨other, hmem, hother, hlower⟩
        exact ⟨other, List.mem_cons_of_mem _ hmem, hother,
          List.forall_mem_cons.mpr ⟨fun _ => hfree, hlower⟩⟩
      · rintro ⟨other, hmem, hother, hlower⟩
        rcases List.mem_cons.mp hmem with rfl | hmem
        · exact absurd hother (hfree error)
        · exact ⟨other, hmem, hother, (List.forall_mem_cons.mp hlower).2⟩

section Refusals

variable {layout : Layout} {instructions : Array SourceInstruction}

/-- An image that fits is refused for the reason of the lowest placed instruction without a
word. -/
theorem image_eq_error_iff (hsize : layout.size ≤ Machine.programLimit) {error : AssemblyError} :
    layout.image instructions = .error error ↔
      ∃ address, RefusedAt (layout.code[·]?) instructions address error ∧
        ∀ lower < address, ∀ other, ¬RefusedAt (layout.code[·]?) instructions lower other := by
  have hsorted : layout.code.toList.Pairwise fun first second => first.1 < second.1 :=
    Std.TreeMap.ordered_keys_toList.imp Nat.compare_eq_lt.mp
  rw [image, if_neg (Nat.not_lt.mpr hsize)]
  simp only [Std.TreeMap.foldlM_eq_foldlM_toList]
  change layout.code.toList.foldlM (storeEntry instructions) layout.dataImage = .error error ↔ _
  rw [foldlM_storeEntry_eq_error_iff hsorted]
  simp only [Prod.exists, Prod.forall, Std.TreeMap.mem_toList_iff_getElem?_eq_some, RefusedAt,
    not_exists, not_and]
  constructor
  · rintro ⟨address, index, hindex, hrefused, hlower⟩
    exact ⟨address, ⟨index, hindex, hrefused⟩, fun lower hlt other place hplace =>
      hlower lower place hplace hlt other⟩
  · rintro ⟨address, ⟨index, hindex, hrefused⟩, hlower⟩
    exact ⟨address, index, hindex, hrefused, fun lower place hplace hlt other =>
      hlower lower hlt other place hplace⟩

/-- No placed instruction is refused if all of them can be encoded. -/
theorem encodable_iff : layout.Encodable instructions ↔
    ∀ address error, ¬RefusedAt (layout.code[·]?) instructions address error := by
  constructor
  · rintro hencodable address error ⟨index, hindex, instruction, hinstruction, herror⟩
    obtain ⟨word, hword⟩ := hencodable address index instruction hindex hinstruction
    cases herror.symm.trans hword
  · intro hnone address index instruction hindex hinstruction
    cases hencode : instruction.encode with
    | ok word => exact ⟨word, rfl⟩
    | error error =>
      exact absurd ⟨index, hindex, instruction, hinstruction, hencode⟩ (hnone address error)

end Refusals

/-- The data of an image lies at its addresses, among zeros. -/
theorem getElem?_dataImage {layout : Layout}
    (hlow : ∀ address ∈ layout.data, Machine.loadAddress ≤ address) (offset : Nat) :
    layout.dataImage[offset]? =
      if offset < layout.size then
        some (layout.data.getD (Machine.loadAddress + offset) 0)
      else none := by
  have hdistinct : layout.data.toList.Pairwise fun first second => first.1 ≠ second.1 :=
    Std.TreeMap.ordered_keys_toList.imp fun hlt => Nat.ne_of_lt (Nat.compare_eq_lt.mp hlt)
  have hlow' : ∀ entry ∈ layout.data.toList, Machine.loadAddress ≤ entry.1 := fun entry hmem =>
    hlow _ (Std.TreeMap.mem_iff_isSome_getElem?.mpr
      (by rw [Std.TreeMap.mem_toList_iff_getElem?_eq_some.mp hmem]; rfl))
  have hlookup : layout.data.toList.lookup (Machine.loadAddress + offset) =
      layout.data[Machine.loadAddress + offset]? := by
    refine Option.ext fun byte => ?_
    rw [lookup_eq_some_iff_mem hdistinct, Std.TreeMap.mem_toList_iff_getElem?_eq_some]
  rw [dataImage, Std.TreeMap.foldl_eq_foldl_toList, getElem?_foldl_storeByte hdistinct hlow',
    hlookup, Array.getElem?_replicate, Std.TreeMap.getD_eq_getD_getElem?]
  split <;> rfl

/-- Byte by byte, an image is its words laid over its data. -/
theorem getElem?_of_image {layout : Layout} {instructions : Array SourceInstruction}
    {bytes : Array UInt8} (himage : layout.image instructions = .ok bytes)
    (hdata : ∀ address ∈ layout.data, Machine.loadAddress ≤ address)
    (hcode : ∀ address ∈ layout.code, Machine.loadAddress ≤ address) (offset : Nat) :
    bytes[offset]? =
      if offset < layout.size then
        some (overlay (layout.wordAt? instructions) (Machine.loadAddress + offset)
          (layout.data.getD (Machine.loadAddress + offset) 0))
      else none := by
  obtain ⟨_, _, rfl⟩ := image_eq_ok_iff.mp himage
  have hlow : ∀ entry ∈ layout.words instructions, Machine.loadAddress ≤ entry.1 := by
    rintro ⟨address, word⟩ hmem
    have hdistinct := (layout.words_sorted instructions).imp Nat.ne_of_lt
    rw [← lookup_eq_some_iff_mem hdistinct, lookup_words, wordAt?,
      Option.bind_eq_some_iff] at hmem
    obtain ⟨index, hindex, _⟩ := hmem
    exact hcode _ (Std.TreeMap.mem_iff_isSome_getElem?.mpr (by rw [hindex]; rfl))
  have hlookup : (List.lookup · (layout.words instructions)) = layout.wordAt? instructions :=
    funext (layout.lookup_words instructions)
  rw [getElem?_foldl_storeWord (layout.words_sorted instructions) hlow, hlookup,
    getElem?_dataImage hdata]
  split <;> rfl

/-- The image of instructions that lie inside it is their words laid over the data, if none of them
is refused. -/
theorem image_eq_ok_iff_overlay {layout : Layout} {instructions : Array SourceInstruction}
    (hsize : layout.size ≤ Machine.programLimit)
    (hdata : ∀ address ∈ layout.data, Machine.loadAddress ≤ address)
    (hcode : ∀ address ∈ layout.code, Machine.loadAddress ≤ address) {bytes : Array UInt8} :
    layout.image instructions = .ok bytes ↔
      (∀ address error, ¬RefusedAt (layout.code[·]?) instructions address error) ∧
      bytes.size = layout.size ∧
      ∀ offset < layout.size, bytes[offset]? =
        some (overlay (layout.wordAt? instructions) (Machine.loadAddress + offset)
          (layout.data.getD (Machine.loadAddress + offset) 0)) := by
  have hbytes : ∀ {other}, layout.image instructions = .ok other → other.size = layout.size ∧
      ∀ offset < layout.size, other[offset]? =
        some (overlay (layout.wordAt? instructions) (Machine.loadAddress + offset)
          (layout.data.getD (Machine.loadAddress + offset) 0)) := by
    intro other himage
    have hall := getElem?_of_image himage hdata hcode
    refine ⟨size_eq_of_getElem? hall, fun offset hlt => ?_⟩
    rw [hall, if_pos hlt]
  constructor
  · intro himage
    exact ⟨encodable_iff.mp (image_eq_ok_iff.mp himage).2.1, hbytes himage⟩
  · rintro ⟨hnone, hlength, hoverlay⟩
    cases himage : layout.image instructions with
    | error error =>
      obtain ⟨address, hrefused, _⟩ := (image_eq_error_iff hsize).mp himage
      exact absurd hrefused (hnone address error)
    | ok other =>
      obtain ⟨hlength', hoverlay'⟩ := hbytes himage
      have hsame : other = bytes := by
        refine Array.ext (hlength'.trans hlength.symm) fun offset hlt hlt' => ?_
        have hbyte := hoverlay' offset (hlength' ▸ hlt)
        rwa [← hoverlay offset (hlength ▸ hlt'), Array.getElem?_eq_getElem hlt,
          Array.getElem?_eq_getElem hlt', Option.some_inj] at hbyte
      rw [hsame]

end Layout

end ChipEight
