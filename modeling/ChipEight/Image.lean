import ChipEight.Machine

/-!
# Program images in memory

The bytes of a program at the addresses they are loaded to. Words are big-endian. Addresses
have 32 bits: the end of an image that does not fit below the bound of numbers wraps around,
and what lies behind that end is out of reach.
-/

namespace ChipEight

/-- Bytes at consecutive addresses. -/
structure Image where
  bytes : Array UInt8
  /-- The address of the first byte. -/
  base : Nat
  deriving DecidableEq, Repr

namespace Image

/-- Bytes at the load address. -/
def load (bytes : Array UInt8) : Image :=
  ⟨bytes, Machine.loadAddress⟩

/-- The address after the last byte. -/
def stop (image : Image) : Nat :=
  Machine.wrap (image.base + image.bytes.size)

/-- Whether an address holds a byte of the image. -/
def contains (image : Image) (address : Nat) : Bool :=
  image.base ≤ address && address < image.stop

/-- The byte at an address. -/
def byte? (image : Image) (address : Nat) : Option UInt8 :=
  if image.base ≤ address then image.bytes[address - image.base]? else none

/-- The word whose first byte is at an address. -/
def word? (image : Image) (address : Nat) : Option Word :=
  match image.byte? address, image.byte? (Machine.wrap (address + 1)) with
  | some high, some low => some (Word.ofBytes high low)
  | _, _ => none

/-- The word at an address before the end. The last byte alone is no word. -/
def fetch? (image : Image) (address : Nat) : Option Word :=
  if address < image.stop - 1 then image.word? address else none

/-- The bytes before the end. -/
def inside (image : Image) : List UInt8 :=
  image.bytes.toList.take (image.stop - image.base)

/-- A word before the end consists of the bytes at its address and at the next one. -/
theorem fetch?_eq_some_iff {image : Image} {address : Nat} {word : Word} :
    image.fetch? address = some word ↔ address + 1 < image.stop ∧
      ∃ high low, image.byte? address = some high ∧ image.byte? (address + 1) = some low ∧
        word = .ofBytes high low := by
  have hbound : image.stop < Machine.numberBound := Machine.wrap_lt _
  unfold fetch?
  split
  · next hlt =>
    have hbefore : address + 1 < image.stop := by omega
    rw [word?, Machine.wrap_of_lt (Nat.lt_trans hbefore hbound)]
    cases image.byte? address <;> cases image.byte? (address + 1) <;> simp [hbefore, eq_comm]
  · next hge =>
    simp only [reduceCtorEq, false_iff, not_and]
    omega

/-- A word is found only before the end. -/
theorem lt_stop_of_fetch? {image : Image} {address : Nat} {word : Word}
    (hword : image.fetch? address = some word) : address + 1 < image.stop :=
  (fetch?_eq_some_iff.mp hword).1

end Image

end ChipEight
