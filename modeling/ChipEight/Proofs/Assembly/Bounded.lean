import ChipEight.Proofs.Assembly.PackedImages

/-!
# Assembly in numbers of 32 bits

The assembler in the numbers of a machine. Every sum, product and difference of addresses and
sizes must be a number of 32 bits, every count must be one, and every store must lie in the
image; a run in which one of them does not is trapped. Each part of such a run does what the
part does in numbers without bounds, as long as what it computes stays below the bound.
-/

namespace ChipEight

/-- Why a run in numbers of 32 bits stops. -/
inductive Trap
  /-- A sum, a product or a count is too large, or a difference is negative. -/
  | overflow
  /-- A store lies outside the image. -/
  | outOfBounds
  | refused (error : AssemblyError)
  deriving DecidableEq, Repr

namespace Bounded

/-- What a run gives that is not trapped by its numbers. -/
def untrapped {α : Type} : Except AssemblyError α → Except Trap α :=
  Except.mapError .refused

/-- A count as a number. -/
def number (value : Nat) : Except Trap Nat :=
  if value < Machine.numberBound then .ok value else .error .overflow

/-- The sum of two numbers. -/
def add (first second : Nat) : Except Trap Nat :=
  number (first + second)

/-- The product of two numbers. -/
def mul (first second : Nat) : Except Trap Nat :=
  number (first * second)

/-- The difference of two numbers. -/
def sub (first second : Nat) : Except Trap Nat :=
  if second ≤ first then .ok (first - second) else .error .overflow

/-- Stores bytes from an address on, and finds the address behind them. There is an error of its
own for bytes behind which there is none. -/
def storeBytes (data : Std.TreeMap Nat UInt8) (address : Nat) :
    List (Located Nat) → Except Trap (Std.TreeMap Nat UInt8 × Nat)
  | [] => .ok (data, address)
  | byte :: bytes =>
    if byte.value > 0xFF then .error (.refused (.dataOutOfRange byte.value byte.position))
    else if data.contains address then .error (.refused (.dataOverlap address byte.position))
    else
      match add address 1 with
      | .ok next => storeBytes (data.insert address byte.value.toUInt8) next bytes
      | .error _ =>
        .error (.refused (.programTooLarge (Machine.numberBound - 1) Machine.programLimit))

/-- Adds a block of literal bytes, and computes how many there are. -/
def addData (draft : Draft) (position : Position) (start : Located Nat)
    (bytes : List (Located Nat)) : Except Trap Draft :=
  if start.value < Machine.loadAddress then
    .error (.refused (.dataBelowLoadAddress start.value start.position))
  else if bytes.isEmpty then .error (.refused (.emptyData start.value position))
  else do
    let (data, stop) ← storeBytes draft.data start.value bytes
    let _ ← sub stop start.value
    return { draft with data := data }

/-- Adds a statement. -/
def addStatement (draft : Draft) : Statement → Except Trap Draft
  | .label name position => untrapped (draft.define name position)
  | .data position start bytes => addData draft position start bytes
  | .instruction instruction => .ok (draft.addInstruction instruction)

/-- Adds the statements that some tokens hold, up to the token that marks the end. -/
def extend (draft : Draft) : List Token → Except Trap Draft
  | [] => .error (.refused .unexpectedEnd)
  | token :: rest =>
    if token.value = .eof then .ok draft
    else
      match Statement.read token rest with
      | .error error => .error (.refused error)
      | .ok (statement, taken) =>
        match addStatement draft statement with
        | .error trap => .error trap
        | .ok next => extend next (rest.drop taken)
termination_by tokens => tokens.length

/-- A sum that is a number is the sum. -/
theorem eq_of_add_eq_ok {first second sum : Nat} (hsum : add first second = .ok sum) :
    sum = first + second := by
  unfold add number at hsum
  split at hsum
  · exact (Except.ok.inj hsum).symm
  · cases hsum

/-- The first address at or after a given one that data does not claim. -/
def nextFree (layout : Layout) (address : Nat) : Except Trap Nat :=
  if hdata : layout.isData address = true then
    match hnext : add address 1 with
    | .ok next =>
      have := Layout.lt_dataEnd_of_isData hdata
      have := eq_of_add_eq_ok hnext
      nextFree layout next
    | .error trap => .error trap
  else .ok address
termination_by layout.dataEnd - address

/-- Places the next instruction. -/
def place (placement : Placement) (instruction : SourceInstruction) : Except Trap Placement := do
  let address ← nextFree placement.layout placement.next
  let second ← add address 1
  if placement.layout.isData second then
    throw (.refused (.collision instruction.mnemonic address instruction.position))
  let next ← add address Machine.instructionWidth
  return {
    layout := placement.layout.place address placement.addresses.size
    addresses := placement.addresses.push address
    next := next }

/-- The address after the last data byte, or the load address if there is no data. -/
def dataEnd (layout : Layout) : Except Trap Nat :=
  match layout.data.maxKey? with
  | some address => add address 1
  | none => .ok Machine.loadAddress

/-- The number of bytes of the image. -/
def size (layout : Layout) : Except Trap Nat := do
  let code ← mul (← number layout.code.size) Machine.instructionWidth
  let packed ← add code (← number layout.data.size)
  let spread ← sub (← dataEnd layout) Machine.loadAddress
  return max spread packed

/-- Stores a byte of an image at its address. -/
def storeByte (image : Array UInt8) (address : Nat) (byte : UInt8) :
    Except Trap (Array UInt8) := do
  let offset ← sub address Machine.loadAddress
  if offset < image.size then return image.setIfInBounds offset byte
  else throw .outOfBounds

/-- Stores the word of an instruction at its address. -/
def storeWord (image : Array UInt8) (address : Nat) (instruction : SourceInstruction) :
    Except Trap (Array UInt8) := do
  let offset ← sub address Machine.loadAddress
  if offset + 1 < image.size then
    let word ← untrapped instruction.encode
    return (image.setIfInBounds offset word.high).setIfInBounds (offset + 1) word.low
  else throw .outOfBounds

/-- The image of a layout. -/
def image (layout : Layout) (instructions : Array SourceInstruction) :
    Except Trap (Array UInt8) := do
  let size ← size layout
  if (← add size Machine.loadAddress) > Machine.memorySize then
    throw (.refused (.programTooLarge size Machine.programLimit))
  let data ← layout.data.foldlM storeByte (Array.replicate size 0)
  layout.code.foldlM (fun image address index =>
    match instructions[index]? with
    | some instruction => storeWord image address instruction
    | none => return image) data

/-- Assembles tokens. -/
def assemble (tokens : List Token) : Except Trap Program := do
  let draft ← extend .empty tokens
  let placement ← draft.instructions.foldlM place (.start draft.data)
  let last ← nextFree placement.layout placement.next
  let symbols := draft.labels.map fun _ index => placement.addresses.getD index last
  let instructions ← untrapped (draft.resolve symbols)
  if draft.unresolved ≠ [] then throw (.refused (.unresolvedLabels draft.unresolved))
  let bytes ← image placement.layout instructions
  return ⟨bytes, symbols.toList⟩

section Monad

variable {ε α β : Type}

/-- A result is not trapped. -/
@[simp]
theorem untrapped_ok (value : α) : untrapped (.ok value) = .ok value :=
  rfl

/-- A refusal is not trapped. -/
@[simp]
theorem untrapped_error (error : AssemblyError) :
    untrapped (.error error : Except AssemblyError α) = .error (.refused error) :=
  rfl

/-- A run goes on with what it has computed. -/
@[simp]
theorem ok_bind (value : α) (next : α → Except ε β) : (.ok value >>= next) = next value :=
  rfl

end Monad

/-- A number below the bound is one of 32 bits. -/
theorem number_eq {value : Nat} (hlt : value < Machine.numberBound) : number value = .ok value :=
  if_pos hlt

/-- A sum below the bound is computed. -/
theorem add_eq {first second : Nat} (hlt : first + second < Machine.numberBound) :
    add first second = .ok (first + second) :=
  number_eq hlt

/-- A product below the bound is computed. -/
theorem mul_eq {first second : Nat} (hlt : first * second < Machine.numberBound) :
    mul first second = .ok (first * second) :=
  number_eq hlt

/-- A difference that is not negative is computed. -/
theorem sub_eq {first second : Nat} (hle : second ≤ first) :
    sub first second = .ok (first - second) :=
  if_pos hle

/-- Bytes are stored in numbers of 32 bits as in numbers without bounds. -/
theorem storeBytes_eq (data : Std.TreeMap Nat UInt8) (start : Nat) (bytes : List (Located Nat)) :
    storeBytes data start bytes =
      untrapped ((Draft.storeBytes data start bytes).map (·, start + bytes.length)) := by
  induction bytes generalizing data start with
  | nil => rfl
  | cons byte bytes ih =>
    rw [storeBytes, Draft.storeBytes]
    by_cases hbyte : byte.value > 0xFF
    · rw [if_pos hbyte, if_pos hbyte]
      rfl
    · rw [if_neg hbyte, if_neg hbyte]
      by_cases hused : data.contains start = true
      · rw [if_pos hused, if_pos hused]
        rfl
      · rw [if_neg hused, if_neg hused]
        by_cases hnext : start + 1 < Machine.numberBound
        · have hlength : start + (byte :: bytes).length = start + 1 + bytes.length := by
            rw [List.length_cons, Nat.add_comm bytes.length, Nat.add_assoc]
          rw [if_pos hnext, add_eq hnext, hlength]
          exact ih _ _
        · rw [if_neg hnext, add, number, if_neg hnext]
          rfl

/-- Blocks are added in numbers of 32 bits as in numbers without bounds. -/
theorem addData_eq (draft : Draft) (position : Position) (start : Located Nat)
    (bytes : List (Located Nat)) :
    addData draft position start bytes = untrapped (draft.addData position start bytes) := by
  rw [addData, Draft.addData]
  by_cases hlow : start.value < Machine.loadAddress
  · rw [if_pos hlow, if_pos hlow]
    rfl
  · rw [if_neg hlow, if_neg hlow]
    by_cases hempty : bytes.isEmpty = true
    · rw [if_pos hempty, if_pos hempty]
      rfl
    · rw [if_neg hempty, if_neg hempty, storeBytes_eq]
      cases Draft.storeBytes draft.data start.value bytes with
      | error error => rfl
      | ok stored =>
        simp only [Except.map, untrapped_ok, ok_bind, sub_eq (Nat.le_add_right _ _)]
        rfl

/-- Statements are added in numbers of 32 bits as in numbers without bounds. -/
theorem addStatement_eq (draft : Draft) (statement : Statement) :
    addStatement draft statement = untrapped (draft.add statement) := by
  cases statement with
  | label | instruction => rfl
  | data position start bytes => exact addData_eq draft position start bytes

/-- Drafts are made in numbers of 32 bits as in numbers without bounds. -/
theorem extend_eq (draft : Draft) (tokens : List Token) :
    extend draft tokens = untrapped (draft.extend tokens) := by
  induction draft, tokens using Draft.extend.induct with
  | case1 draft => rw [extend, Draft.extend, untrapped_error]
  | case2 draft token rest hend =>
    rw [extend, Draft.extend, if_pos hend, if_pos hend, untrapped_ok]
  | case3 draft token rest hend error hread =>
    rw [extend, Draft.extend, if_neg hend, if_neg hend, hread]
    rfl
  | case4 draft token rest hend statement taken hread error hadd =>
    rw [extend, Draft.extend, if_neg hend, if_neg hend, hread]
    simp only [addStatement_eq, hadd, untrapped_error]
  | case5 draft token rest hend statement taken hread next hadd ih =>
    rw [extend, Draft.extend, if_neg hend, if_neg hend, hread]
    simp only [addStatement_eq, hadd, untrapped_ok, ih]

/-- A free address that is a number is found. -/
theorem nextFree_eq {layout : Layout} {address : Nat}
    (hlt : layout.nextFree address < Machine.numberBound) :
    nextFree layout address = .ok (layout.nextFree address) := by
  induction address using Layout.nextFree.induct layout with
  | case1 address hdata _ ih =>
    rw [Layout.nextFree_of_isData hdata] at hlt ⊢
    have hle := layout.le_nextFree (address + 1)
    rw [nextFree, dif_pos hdata]
    split
    · next next hnext =>
      obtain rfl := eq_of_add_eq_ok hnext
      exact ih hlt
    · next trap htrap =>
      rw [add_eq (Nat.lt_of_le_of_lt hle hlt)] at htrap
      cases htrap
  | case2 address hfree => rw [nextFree, dif_neg hfree, Layout.nextFree_of_not_isData hfree]

section Placing

variable {placement : Placement} {data : Std.TreeMap Nat UInt8} {count : Nat}

/-- An instruction whose end is a number is placed in numbers of 32 bits as in numbers without
bounds. -/
theorem place_eq (hpacks : placement.Packs data count) (instruction : SourceInstruction)
    (hlt : (Layout.ofData data).site count + Machine.instructionWidth < Machine.numberBound) :
    place placement instruction = untrapped (placement.add instruction) := by
  have hwidth : Machine.instructionWidth = 2 := rfl
  have hfree := hpacks.nextFree_eq
  have hfirst : nextFree placement.layout placement.next =
      .ok ((Layout.ofData data).site count) := by
    rw [nextFree_eq (by omega), hfree]
  have hsecond := @add_eq ((Layout.ofData data).site count) 1 (by omega)
  simp only [place, hfirst, ok_bind, hsecond, Placement.add, hfree, Layout.collides]
  by_cases hdata : placement.layout.isData ((Layout.ofData data).site count + 1) = true
  · rw [if_pos hdata, if_pos hdata]
    rfl
  · rw [if_neg hdata, if_neg hdata, add_eq hlt]
    rfl

/-- Instructions are placed in numbers of 32 bits as in numbers without bounds, if all of them
and the data could follow one another below the bound. -/
theorem placeAll_eq (hpacks : placement.Packs data count)
    (hlow : ∀ address, (Layout.ofData data).isData address = true →
      Machine.loadAddress ≤ address)
    {instructions : List SourceInstruction}
    (hlt : Machine.loadAddress + (count + instructions.length) * Machine.instructionWidth +
      data.size < Machine.numberBound) :
    instructions.foldlM place placement =
      untrapped (instructions.foldlM Placement.add placement) := by
  induction instructions generalizing placement count with
  | nil => rfl
  | cons instruction instructions ih =>
    have hcount : count + (instruction :: instructions).length =
        count + 1 + instructions.length := by
      rw [List.length_cons, Nat.add_right_comm, Nat.add_assoc]
    -- What is packed leaves no gap, so that counting bounds the next site.
    have hsite : (Layout.ofData data).site count ≤
        Machine.loadAddress + count * Machine.instructionWidth + data.size :=
      Layout.site_le hlow hpacks.clear
    have hend : (Layout.ofData data).site count + Machine.instructionWidth <
        Machine.numberBound := by
      refine Nat.lt_of_le_of_lt ?_ hlt
      rw [hcount, Nat.add_mul, Nat.succ_mul]
      omega
    rw [List.foldlM_cons, List.foldlM_cons, place_eq hpacks instruction hend]
    cases hadd : placement.add instruction with
    | error error => rfl
    | ok next => exact ih (hpacks.add hadd) (hcount ▸ hlt)

end Placing

section Image

variable {layout : Layout} {instructions : Array SourceInstruction}

/-- The end of the data is computed if it is a number. -/
theorem dataEnd_eq (hlt : layout.dataEnd < Machine.numberBound) :
    dataEnd layout = .ok layout.dataEnd := by
  rw [dataEnd]
  rw [Layout.dataEnd] at hlt ⊢
  cases hmax : layout.data.maxKey? with
  | none => rfl
  | some address =>
    rw [hmax] at hlt
    exact add_eq hlt

/-- The size of the image is computed if the end of the data and the counts are numbers. -/
theorem size_eq (hlow : Machine.loadAddress ≤ layout.dataEnd)
    (hend : layout.dataEnd < Machine.numberBound)
    (hcount : layout.code.size * Machine.instructionWidth + layout.data.size <
      Machine.numberBound) : size layout = .ok layout.size := by
  have hle : layout.code.size ≤ layout.code.size * Machine.instructionWidth :=
    Nat.le_mul_of_pos_right _ (by decide)
  have hcode := @number_eq layout.code.size (by omega)
  have hproduct := @mul_eq layout.code.size Machine.instructionWidth (by omega)
  have hdata := @number_eq layout.data.size (by omega)
  simp only [size, hcode, hproduct, hdata, add_eq hcount, dataEnd_eq hend, sub_eq hlow, ok_bind]
  rfl

/-- Bytes whose addresses lie in an image are stored. -/
theorem foldlM_storeByte_eq {entries : List (Nat × UInt8)} {image : Array UInt8}
    (hentries : ∀ entry ∈ entries, Machine.loadAddress ≤ entry.1 ∧
      entry.1 < Machine.loadAddress + image.size) :
    entries.foldlM (fun image entry => storeByte image entry.1 entry.2) image =
      .ok (entries.foldl (fun image entry => Layout.storeByte image entry.1 entry.2) image) := by
  induction entries generalizing image with
  | nil => rfl
  | cons entry entries ih =>
    obtain ⟨⟨hlow, hlt⟩, hrest⟩ := List.forall_mem_cons.mp hentries
    have hstore : storeByte image entry.1 entry.2 =
        .ok (Layout.storeByte image entry.1 entry.2) := by
      have hoffset : entry.1 - Machine.loadAddress < image.size := by omega
      rw [storeByte, sub_eq hlow, ok_bind, if_pos hoffset]
      rfl
    rw [List.foldlM_cons, hstore, ok_bind, List.foldl_cons]
    exact ih (by rwa [Layout.storeByte, Array.size_setIfInBounds])

/-- The word of an instruction that lies in an image is stored as without checks. -/
theorem storeWord_eq {image : Array UInt8} {address : Nat} (instruction : SourceInstruction)
    (hlow : Machine.loadAddress ≤ address) (hlt : address + 1 < Machine.loadAddress + image.size) :
    storeWord image address instruction =
      untrapped (do return Layout.storeWord image address (← instruction.encode)) := by
  have hoffset : address - Machine.loadAddress + 1 < image.size := by omega
  have hsecond : address + 1 - Machine.loadAddress = address - Machine.loadAddress + 1 := by omega
  rw [storeWord, sub_eq hlow, ok_bind, if_pos hoffset]
  cases instruction.encode with
  | error error => rfl
  | ok word =>
    change _ = Except.ok (Layout.storeWord image address word)
    rw [Layout.storeWord, Layout.storeByte, Layout.storeByte, hsecond]
    rfl

/-- The words of instructions that lie in an image are stored as without checks. -/
theorem foldlM_storeWord_eq {entries : List (Nat × Nat)} {image : Array UInt8}
    (hentries : ∀ entry ∈ entries, Machine.loadAddress ≤ entry.1 ∧
      entry.1 + 1 < Machine.loadAddress + image.size) :
    entries.foldlM (fun image entry =>
        match instructions[entry.2]? with
        | some instruction => storeWord image entry.1 instruction
        | none => return image) image =
      untrapped (entries.foldlM (fun image entry =>
        match instructions[entry.2]? with
        | some instruction => return Layout.storeWord image entry.1 (← instruction.encode)
        | none => return image) image) := by
  induction entries generalizing image with
  | nil => rfl
  | cons entry entries ih =>
    obtain ⟨⟨hlow, hlt⟩, hrest⟩ := List.forall_mem_cons.mp hentries
    rw [List.foldlM_cons, List.foldlM_cons]
    cases instructions[entry.2]? with
    | none => exact ih hrest
    | some instruction =>
      simp only [storeWord_eq instruction hlow hlt]
      cases instruction.encode with
      | error error => rfl
      | ok word =>
        refine ih ?_
        rwa [Layout.storeWord, Layout.storeByte, Layout.storeByte, Array.size_setIfInBounds,
          Array.size_setIfInBounds]

/-- An image is written in numbers of 32 bits as in numbers without bounds, if its end is a number
and it has room for its data and its words. -/
theorem image_eq (hend : layout.size + Machine.loadAddress < Machine.numberBound)
    (hlow : ∀ address, layout.isData address = true → Machine.loadAddress ≤ address)
    (hcode : ∀ address ∈ layout.code, Machine.loadAddress ≤ address ∧
      address + 1 < Machine.loadAddress + layout.size) :
    image layout instructions = untrapped (layout.image instructions) := by
  have hstop := Layout.loadAddress_le_dataEnd hlow
  have hspread : layout.dataEnd - Machine.loadAddress ≤ layout.size := Nat.le_max_left _ _
  have hcount : layout.code.size * Machine.instructionWidth + layout.data.size ≤ layout.size :=
    Nat.le_max_right _ _
  have hsize : size layout = .ok layout.size := size_eq hstop (by omega) (by omega)
  have hlimit : layout.size + Machine.loadAddress > Machine.memorySize ↔
      layout.size > Machine.programLimit := by
    rw [Machine.programLimit]
    have hmemory : Machine.loadAddress ≤ Machine.memorySize := by decide
    omega
  have hdata : ∀ entry ∈ layout.data.toList, Machine.loadAddress ≤ entry.1 ∧
      entry.1 < Machine.loadAddress + (Array.replicate layout.size (0 : UInt8)).size := by
    intro entry hmem
    have hentry : layout.isData entry.1 = true := by
      rw [Layout.isData, Std.TreeMap.contains_eq_isSome_getElem?,
        Std.TreeMap.mem_toList_iff_getElem?_eq_some.mp hmem, Option.isSome_some]
    have hlt := Layout.lt_dataEnd_of_isData hentry
    rw [Array.size_replicate]
    exact ⟨hlow _ hentry, by omega⟩
  have hwords : ∀ entry ∈ layout.code.toList, Machine.loadAddress ≤ entry.1 ∧
      entry.1 + 1 < Machine.loadAddress + layout.dataImage.size := by
    intro entry hmem
    rw [Layout.size_dataImage]
    exact hcode _ (Std.TreeMap.mem_iff_isSome_getElem?.mpr
      (by rw [Std.TreeMap.mem_toList_iff_getElem?_eq_some.mp hmem]; rfl))
  simp only [image, hsize, ok_bind, add_eq hend, hlimit, Layout.image]
  by_cases hlarge : layout.size > Machine.programLimit
  · rw [if_pos hlarge, if_pos hlarge]
    rfl
  · rw [if_neg hlarge, if_neg hlarge, Std.TreeMap.foldlM_eq_foldlM_toList,
      foldlM_storeByte_eq hdata, ← Std.TreeMap.foldl_eq_foldl_toList]
    simp only [Std.TreeMap.foldlM_eq_foldlM_toList]
    exact foldlM_storeWord_eq hwords

end Image

end Bounded

end ChipEight
