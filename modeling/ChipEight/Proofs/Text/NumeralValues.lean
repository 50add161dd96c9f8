import Mathlib.Data.Nat.Digits.Defs
import ChipEight.Proofs.Basics
import ChipEight.Proofs.Text.Numerals

/-!
# The values of numerals

Digits denote the number whose positional notation they are. Digits that are read are read as
the number that they denote, and they are too many exactly if some of the first of them denote a
number that is out of range already. What comes after these does not matter any more.

Which characters are digits is said without regard to how they are read: they are those with
which numbers are written, in letters of either case.
-/

namespace ChipEight.Numeral

/-- A character is the digit of a number below a radix, in either case if it is a letter. -/
def IsDigit (radix : Nat) (c : Char) (d : Nat) : Prop :=
  d < radix ∧ (c = d.digitChar ∨ c = d.digitChar.toUpper)

/-- A character is a hexadecimal digit. -/
def Hexadecimal (c : Char) : Prop :=
  ∃ d, IsDigit 16 c d

/-- Digits, most significant first, denote a number in a radix. -/
def Denotes (radix : Nat) (digits : List Char) (value : Nat) : Prop :=
  ∃ values, List.Forall₂ (IsDigit radix) digits values ∧ Nat.ofDigits radix values.reverse = value

/-- The first of some characters denote a number that is not below a bound. -/
def Exceeds (radix bound : Nat) (digits : List Char) : Prop :=
  ∃ front value, front <+: digits ∧ Denotes radix front value ∧ bound ≤ value

/-- A character has the value of which it is the digit, and no other. -/
theorem digit?_eq_some_iff {radix : Nat} (hradix : radix ≤ 16) {c : Char} {d : Nat} :
    digit? radix c = some d ↔ IsDigit radix c d := by
  constructor
  · intro hdigit
    have hlarger : digit? 16 c = some d := digit?_eq_some_of_le hdigit hradix
    have hascii : c.toNat < 128 := toNat_lt_of_isHexDigit (by rw [isHexDigit, hlarger]; rfl)
    refine ⟨lt_of_digit? hdigit, ?_⟩
    exact @of_ascii (fun c => ∀ d ∈ digit? 16 c, c = d.digitChar ∨ c = d.digitChar.toUpper)
      (by decide) c hascii d hlarger
  · rintro ⟨hlt, rfl | rfl⟩
    · exact digit?_digitChar hradix hlt
    · exact digit?_toUpper_digitChar hradix hlt

/-- The digits are the characters with a value. -/
theorem isDigit_eq {radix : Nat} (hradix : radix ≤ 16) :
    IsDigit radix = fun c d => digit? radix c = some d :=
  funext fun _ => funext fun _ => propext (digit?_eq_some_iff hradix).symm

/-- The hexadecimal digits are the characters that are taken for some. -/
theorem isHexDigit_iff {c : Char} : isHexDigit c = true ↔ Hexadecimal c := by
  rw [isHexDigit, Option.isSome_iff_exists]
  exact exists_congr fun d => digit?_eq_some_iff (Nat.le_refl 16)

/-- Whether a character is a hexadecimal digit can be decided. -/
instance (c : Char) : Decidable (Hexadecimal c) :=
  decidable_of_iff _ isHexDigit_iff

/-- The number of digits with given values, after digits that denote `value`. -/
def extend (radix value : Nat) (values : List Nat) : Nat :=
  values.foldl (fun total d => total * radix + d) value

/-- Positional notation counts from the most significant digit. -/
theorem ofDigits_reverse (radix : Nat) (values : List Nat) :
    Nat.ofDigits radix values.reverse = extend radix 0 values := by
  rw [Nat.ofDigits_eq_foldr, List.foldr_reverse, extend]
  congr 1
  funext total d
  rw [Nat.cast_id, Nat.mul_comm, Nat.add_comm]

/-- More digits do not make a number smaller. -/
theorem le_extend {radix : Nat} (hradix : 0 < radix) (value : Nat) (values : List Nat) :
    value ≤ extend radix value values := by
  induction values generalizing value with
  | nil => exact Nat.le_refl _
  | cons d values ih =>
    have hmul : value ≤ value * radix := Nat.le_mul_of_pos_right value hradix
    exact Nat.le_trans (Nat.le_trans hmul (Nat.le_add_right _ d)) (ih (value * radix + d))

variable {radix bound value n : Nat} {digits : List Char}

/-- Digits are read if all of them have a value and their number is below the bound. -/
theorem readFrom_eq_ok_iff (hradix : 0 < radix) (hvalue : value < bound) :
    readFrom radix bound value digits = .ok n ↔ n < bound ∧
      ∃ values, List.Forall₂ (fun c d => digit? radix c = some d) digits values ∧
        extend radix value values = n := by
  induction digits generalizing value with
  | nil =>
    simp only [readFrom, Except.ok.injEq, List.forall₂_nil_left_iff, exists_eq_left, extend,
      List.foldl_nil]
    exact ⟨fun heq => ⟨heq ▸ hvalue, heq⟩, And.right⟩
  | cons c digits ih =>
    simp only [readFrom, List.forall₂_cons_left_iff]
    cases hdigit : digit? radix c with
    | none => simp
    | some d =>
      simp only [Option.some.injEq]
      by_cases hlt : value * radix + d < bound
      · rw [if_pos hlt, ih hlt]
        constructor
        · rintro ⟨hn, values, hvalues, heq⟩
          exact ⟨hn, d :: values, ⟨d, values, rfl, hvalues, rfl⟩, heq⟩
        · rintro ⟨hn, _, ⟨_, values, rfl, hvalues, rfl⟩, heq⟩
          exact ⟨hn, values, hvalues, heq⟩
      · simp only [if_neg hlt, reduceCtorEq, false_iff]
        rintro ⟨hn, _, ⟨_, values, rfl, _, rfl⟩, rfl⟩
        exact hlt (Nat.lt_of_le_of_lt (le_extend hradix _ values) hn)

/-- Digits are too many if the first of them make a number that is not below the bound. -/
theorem readFrom_eq_tooLarge_iff (hvalue : value < bound) :
    readFrom radix bound value digits = .error .tooLarge ↔ ∃ front values, front <+: digits ∧
      List.Forall₂ (fun c d => digit? radix c = some d) front values ∧
        bound ≤ extend radix value values := by
  induction digits generalizing value with
  | nil =>
    simp only [readFrom, reduceCtorEq, false_iff]
    rintro ⟨front, values, hfront, hvalues, hle⟩
    obtain rfl := List.prefix_nil.mp hfront
    obtain rfl := List.forall₂_nil_left_iff.mp hvalues
    exact Nat.not_lt_of_le hle hvalue
  | cons c digits ih =>
    have hempty : ∀ values,
        List.Forall₂ (fun c d => digit? radix c = some d) [] values →
          ¬bound ≤ extend radix value values := by
      rintro _ hvalues hle
      obtain rfl := List.forall₂_nil_left_iff.mp hvalues
      exact Nat.not_lt_of_le hle hvalue
    simp only [readFrom]
    cases hdigit : digit? radix c with
    | none =>
      simp only [Except.error.injEq, reduceCtorEq, false_iff]
      rintro ⟨_ | ⟨first, front⟩, values, hfront, hvalues, hle⟩
      · exact hempty values hvalues hle
      · obtain ⟨rfl, _⟩ := List.cons_prefix_cons.mp hfront
        obtain ⟨d, _, hd, _⟩ := List.forall₂_cons_left_iff.mp hvalues
        rw [hdigit] at hd
        cases hd
    | some d =>
      simp only
      by_cases hlt : value * radix + d < bound
      · rw [if_pos hlt, ih hlt]
        constructor
        · rintro ⟨front, values, hfront, hvalues, hle⟩
          exact ⟨c :: front, d :: values, List.cons_prefix_cons.mpr ⟨rfl, hfront⟩,
            .cons hdigit hvalues, hle⟩
        · rintro ⟨_ | ⟨first, front⟩, values, hfront, hvalues, hle⟩
          · exact absurd hle (hempty values hvalues)
          · obtain ⟨rfl, hrest⟩ := List.cons_prefix_cons.mp hfront
            obtain ⟨other, values, hother, htail, rfl⟩ := List.forall₂_cons_left_iff.mp hvalues
            obtain rfl : d = other := Option.some.inj (hdigit.symm.trans hother)
            exact ⟨front, values, hrest, htail, hle⟩
      · rw [if_neg hlt]
        refine ⟨fun _ => ⟨[c], [d], ?_, .cons hdigit .nil, Nat.le_of_not_lt hlt⟩, fun _ => rfl⟩
        exact List.cons_prefix_cons.mpr ⟨rfl, List.nil_prefix⟩

/-- A numeral is read as the number that it denotes, if this is below the bound. -/
theorem read_eq_ok_iff (hradix : 0 < radix) (hle : radix ≤ 16) (hbound : 0 < bound)
    (hdigits : digits ≠ []) :
    read radix bound digits = .ok n ↔ n < bound ∧ Denotes radix digits n := by
  obtain ⟨c, digits, rfl⟩ := List.exists_cons_of_ne_nil hdigits
  simp only [read, readFrom_eq_ok_iff hradix hbound, Denotes, isDigit_eq hle, ofDigits_reverse]

/-- A numeral is too large if the first of its digits denote a number that is not below the
bound. -/
theorem read_eq_tooLarge_iff (hle : radix ≤ 16) (hbound : 0 < bound) (hdigits : digits ≠ []) :
    read radix bound digits = .error .tooLarge ↔ Exceeds radix bound digits := by
  obtain ⟨c, digits, rfl⟩ := List.exists_cons_of_ne_nil hdigits
  simp only [read, readFrom_eq_tooLarge_iff hbound, Exceeds, Denotes, isDigit_eq hle,
    ofDigits_reverse]
  constructor
  · rintro ⟨front, values, hfront, hvalues, hle⟩
    exact ⟨front, _, hfront, ⟨values, hvalues, rfl⟩, hle⟩
  · rintro ⟨front, _, hfront, ⟨values, hvalues, rfl⟩, hle⟩
    exact ⟨front, values, hfront, hvalues, hle⟩

/-- Digits that denote a number are hexadecimal digits. -/
theorem Denotes.hexadecimal (hvalue : Denotes radix digits value) (hradix : radix ≤ 16) :
    ∀ c ∈ digits, Hexadecimal c := by
  obtain ⟨values, hvalues, -⟩ := hvalue
  refine exists_forall₂_iff.mp ⟨values, hvalues.imp fun c d hdigit => ?_⟩
  exact ⟨Nat.lt_of_lt_of_le hdigit.1 hradix, hdigit.2⟩

/-- Hexadecimal digits denote a number, which is below a bound or not. -/
theorem denotes_or_exceeds (bound : Nat) (hdigits : ∀ c ∈ digits, Hexadecimal c) :
    (∃ n, Denotes 16 digits n ∧ n < bound) ∨ Exceeds 16 bound digits := by
  obtain ⟨values, hvalues⟩ := exists_forall₂_iff.mpr hdigits
  rcases Nat.lt_or_ge (Nat.ofDigits 16 values.reverse) bound with hlt | hge
  · exact Or.inl ⟨_, ⟨values, hvalues, rfl⟩, hlt⟩
  · exact Or.inr ⟨digits, _, List.prefix_rfl, ⟨values, hvalues, rfl⟩, hge⟩

end ChipEight.Numeral
