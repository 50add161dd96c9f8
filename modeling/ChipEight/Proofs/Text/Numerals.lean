import ChipEight.Numeral
import Mathlib.Algebra.Ring.Nat
import Mathlib.Data.List.Basic

/-!
# Reading numerals back

A number that is written in hexadecimal, with any number of leading zeros and in letters of
either case, is read back. Different numbers are therefore written differently.
-/

namespace ChipEight.Numeral

/-- What holds of every character below 128 holds of every ASCII character. -/
theorem of_ascii {p : Char → Prop} (hall : ∀ n < 128, p (Char.ofNat n)) {c : Char}
    (hlt : c.toNat < 128) : p c := by
  have hc := hall c.toNat hlt
  rwa [Char.ofNat_toNat] at hc

/-- A character that is not ASCII is its own upper case. -/
theorem toUpper_eq_self {c : Char} (hle : 128 ≤ c.toNat) : c.toUpper = c := by
  have hlarge : ¬('a'.val ≤ c.val ∧ c.val ≤ 'z'.val) := by
    rintro ⟨_, hupper⟩
    have hz : c.toNat ≤ 122 := hupper
    omega
  exact dif_neg hlarge

/-- The case of a letter does not change its value as a hexadecimal digit. -/
theorem digit?_toUpper (c : Char) : digit? 16 c.toUpper = digit? 16 c := by
  rcases Nat.lt_or_ge c.toNat 128 with hlt | hle
  · exact @of_ascii (fun c => digit? 16 c.toUpper = digit? 16 c) (by decide) c hlt
  · rw [toUpper_eq_self hle]

/-- Hexadecimal digits are ASCII characters. -/
theorem toNat_lt_of_isHexDigit {c : Char} (hdigit : isHexDigit c = true) : c.toNat < 128 := by
  by_contra hge
  have hlarge : ∀ last : Char, last.toNat < 128 → ¬c ≤ last :=
    fun last hlast hle => hge (Nat.lt_of_le_of_lt (show c.toNat ≤ last.toNat from hle) hlast)
  have hnine := hlarge '9' (by decide)
  have hlower := hlarge 'f' (by decide)
  have hupper := hlarge 'F' (by decide)
  simp [isHexDigit, digit?, hnine, hlower, hupper] at hdigit

/-- The value of a character is the same in every radix above it. -/
theorem exists_digit?_eq (c : Char) :
    ∃ value, ∀ radix, digit? radix c = if value < radix then some value else none :=
  ⟨_, fun _ => rfl⟩

/-- The value of a digit is below the radix. -/
theorem lt_of_digit? {radix d : Nat} {c : Char} (hdigit : digit? radix c = some d) : d < radix := by
  obtain ⟨value, hvalue⟩ := exists_digit?_eq c
  rw [hvalue, Option.ite_none_right_eq_some] at hdigit
  exact Option.some.inj hdigit.2 ▸ hdigit.1

/-- A digit of a radix has the same value in a larger one. -/
theorem digit?_eq_some_of_le {radix larger d : Nat} {c : Char} (hdigit : digit? radix c = some d)
    (hle : radix ≤ larger) : digit? larger c = some d := by
  obtain ⟨value, hvalue⟩ := exists_digit?_eq c
  rw [hvalue, Option.ite_none_right_eq_some] at hdigit ⊢
  exact ⟨Nat.lt_of_lt_of_le hdigit.1 hle, hdigit.2⟩

/-- A character that is no digit of a radix is no digit of a smaller one. -/
theorem digit?_eq_none_of_le {radix larger : Nat} {c : Char} (hdigit : digit? larger c = none)
    (hle : radix ≤ larger) : digit? radix c = none := by
  rw [Option.eq_none_iff_forall_ne_some] at hdigit ⊢
  exact fun d hd => hdigit d (digit?_eq_some_of_le hd hle)

/-- The digit that is written for a number below a radix has this value. -/
theorem digit?_digitChar {radix n : Nat} (hradix : radix ≤ 16) (hlt : n < radix) :
    digit? radix n.digitChar = some n := by
  have hall : ∀ radix < 17, ∀ n < radix, digit? radix (Nat.digitChar n) = some n := by decide
  exact hall radix (Nat.lt_succ_of_le hradix) n hlt

/-- So does this digit if it is written in upper case. -/
theorem digit?_toUpper_digitChar {radix n : Nat} (hradix : radix ≤ 16) (hlt : n < radix) :
    digit? radix n.digitChar.toUpper = some n := by
  have hall : ∀ radix < 17, ∀ n < radix, digit? radix (Nat.digitChar n).toUpper = some n := by
    decide
  exact hall radix (Nat.lt_succ_of_le hradix) n hlt

/-- Numerals are read from left to right. -/
theorem readFrom_append (radix bound value : Nat) (front back : List Char) :
    readFrom radix bound value (front ++ back) =
      (readFrom radix bound value front).bind fun next => readFrom radix bound next back := by
  induction front generalizing value with
  | nil => rfl
  | cons c front ih =>
    rw [List.cons_append, readFrom, readFrom]
    split
    · rfl
    · split
      · exact ih _
      · rfl

/-- The case of letters does not change the value of a hexadecimal numeral. -/
theorem readFrom_map_toUpper (bound value : Nat) (digits : List Char) :
    readFrom 16 bound value (digits.map Char.toUpper) = readFrom 16 bound value digits := by
  induction digits generalizing value with
  | nil => rfl
  | cons c digits ih =>
    rw [List.map_cons, readFrom, readFrom, digit?_toUpper]
    simp only [ih]

/-- The digits of a number are read back. -/
theorem readFrom_toDigits {radix bound n : Nat} (hone : 1 < radix) (hradix : radix ≤ 16)
    (hlt : n < bound) : readFrom radix bound 0 (Nat.toDigits radix n) = .ok n := by
  induction n using Nat.strongRecOn with
  | ind n ih =>
    rw [Nat.toDigits_eq_if hone]
    split
    · next hsmall => simp [readFrom, digit?_digitChar hradix hsmall, hlt]
    · next hlarge =>
      have hdiv : n / radix < n := Nat.div_lt_self (by omega) hone
      have hfront : readFrom radix bound 0 (Nat.toDigits radix (n / radix)) = .ok (n / radix) :=
        ih _ hdiv (Nat.lt_trans hdiv hlt)
      have hvalue : n / radix * radix + n % radix = n := Nat.div_add_mod' n radix
      have hlast : digit? radix (n % radix).digitChar = some (n % radix) :=
        digit?_digitChar hradix (Nat.mod_lt n (Nat.zero_lt_of_lt hone))
      rw [readFrom_append, hfront]
      simp [Except.bind, readFrom, hlast, hvalue, hlt]

/-- Leading zeros do not change the value of a numeral. -/
theorem readFrom_replicate_zero {bound : Nat} (hpos : 0 < bound) (count : Nat)
    (digits : List Char) :
    readFrom 16 bound 0 (List.replicate count '0' ++ digits) = readFrom 16 bound 0 digits := by
  induction count with
  | zero => rfl
  | succ count ih =>
    have hzero : digit? 16 '0' = some 0 := by decide
    rw [List.replicate_succ, List.cons_append, readFrom, hzero]
    simp [hpos, ih]

/-- The case of letters does not change how a hexadecimal numeral is read. -/
theorem read_map_toUpper (bound : Nat) (digits : List Char) :
    read 16 bound (digits.map Char.toUpper) = read 16 bound digits := by
  obtain _ | ⟨c, digits⟩ := digits
  · rfl
  · exact readFrom_map_toUpper bound 0 (c :: digits)

/-- A number that is written in hexadecimal is read back. -/
theorem read_hex {bound n : Nat} (width : Nat) (hlt : n < bound) :
    read 16 bound (hex width n).toList = .ok n := by
  have hread : readFrom 16 bound 0 (hex width n).toList = .ok n := by
    rw [hex, String.toList_ofList, List.leftpad,
      readFrom_replicate_zero (Nat.zero_lt_of_lt hlt), readFrom_map_toUpper, hexDigits,
      readFrom_toDigits (by decide) (by decide) hlt]
  cases hdigits : (hex width n).toList with
  | nil =>
    have hlength := congrArg List.length hdigits
    have hpos : 0 < (hexDigits n).length := Nat.length_toDigits_pos
    simp only [hex, String.toList_ofList, List.length_nil, List.length_leftpad,
      List.length_map] at hlength
    omega
  | cons c digits => rwa [hdigits] at hread

/-- The digits of a number are read in letters of either case. -/
theorem read_of_map_toUpper {bound width value : Nat} {digits : List Char} (hlt : value < bound)
    (hdigits : digits.map Char.toUpper = (hex width value).toList) :
    read 16 bound digits = .ok value := by
  rw [← read_map_toUpper, hdigits, read_hex width hlt]

/-- Different numbers are written differently. -/
theorem hex_injective (width : Nat) : Function.Injective (hex width) := by
  intro first second heq
  have hfirst := read_hex width (Nat.lt_succ_of_le (Nat.le_max_left first second))
  have hsecond := read_hex width (Nat.lt_succ_of_le (Nat.le_max_right first second))
  rw [← heq, hfirst] at hsecond
  exact Except.ok.inj hsecond

/-- A numeral that can be read consists of digits. -/
theorem isHexDigit_of_readFrom {bound value n : Nat} {digits : List Char}
    (hread : readFrom 16 bound value digits = .ok n) : ∀ c ∈ digits, isHexDigit c = true := by
  induction digits generalizing value with
  | nil => exact fun _ hmem => nomatch hmem
  | cons c digits ih =>
    rw [readFrom] at hread
    split at hread
    · cases hread
    · next d hdigit =>
      split at hread
      · refine List.forall_mem_cons.mpr ⟨?_, ih hread⟩
        rw [isHexDigit, hdigit, Option.isSome_some]
      · cases hread

/-- A numeral that can be read has digits and nothing else. -/
theorem digits_of_read {bound n : Nat} {digits : List Char}
    (hread : read 16 bound digits = .ok n) :
    digits ≠ [] ∧ ∀ c ∈ digits, isHexDigit c = true := by
  obtain _ | ⟨c, digits⟩ := digits
  · cases hread
  · exact ⟨List.cons_ne_nil _ _, isHexDigit_of_readFrom hread⟩

/-- What is written in hexadecimal consists of digits. -/
theorem isHexDigit_of_mem_hex {width n : Nat} :
    ∀ c ∈ (hex width n).toList, isHexDigit c = true :=
  (digits_of_read (read_hex width (Nat.lt_succ_self n))).2

/-- A number below a power of sixteen has no more digits than the power tells. -/
theorem length_hex_le {width count n : Nat} (hpos : 0 < count) (hwidth : width ≤ count)
    (hlt : n < 16 ^ count) : (hex width n).length ≤ count := by
  have hdigits : (hexDigits n).length ≤ count :=
    (Nat.length_toDigits_le_iff (by decide) hpos).mpr hlt
  rw [hex, String.length_ofList, List.length_leftpad, List.length_map]
  exact Nat.max_le.mpr ⟨hwidth, hdigits⟩

end ChipEight.Numeral
