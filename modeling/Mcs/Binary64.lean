import Mcs.Decimals
import Mcs.Precisions

/-!
The type `double`: the magnitudes that it has, what `%g` prints of a value, and what
`strtod` reads, which is exact where a text denotes a magnitude of the type and
depends on the library elsewhere. Printing and reading leaves of a value what six
digits keep (`strtod_printG`).
-/
namespace Mcs.Binary64
open Mcs.Strings Mcs.Numerals Mcs.Rounding Mcs.Decimals Mcs.Precisions

/-- 53 bits at a power of two, within limits. -/
def binary64 : Precision := ⟨53, -1074, 971, by decide, by decide, by decide⟩

def IsMagnitude (q : ℚ) : Prop := binary64.Has q

theorem isMagnitude_iff {q : ℚ} : IsMagnitude q ↔ ∃ (mantissa : Nat) (exponent : Int),
    mantissa < 2 ^ 53 ∧ -1074 ≤ exponent ∧ exponent ≤ 971 ∧ q = mantissa * 2 ^ exponent := Iff.rfl

inductive Double
  | finite (negative : Bool) (magnitude : ℚ) (fits : IsMagnitude magnitude)
  | infinite (negative : Bool)
  | nan (negative : Bool)

/-- A carry out of the 53 bits is a magnitude too. -/
theorem fits_of_le {mantissa : Nat} {exponent : Int} (few : mantissa ≤ 2 ^ 53) (low : -1074 ≤ exponent)
    (high : exponent < 971) : IsMagnitude (mantissa * 2 ^ exponent) := by
  rcases few.lt_or_eq with less | same
  · exact ⟨mantissa, exponent, less, low, high.le, rfl⟩
  · refine isMagnitude_iff.mpr ⟨2 ^ 52, exponent + 1, by omega, by omega, by omega, ?_⟩
    rw [same, zpow_add₀ two_ne_zero]
    push_cast
    ring

theorem fits_natCast {n : Nat} (small : n ≤ 2 ^ 53) : IsMagnitude n := by
  have fits : IsMagnitude (n * 2 ^ (0 : Int)) := fits_of_le small (by omega) (by omega)
  rwa [zpow_zero, mul_one] at fits

/-- Digits with zeros after them: a ten is a five at a power of two. -/
theorem fits_decimal {digits count : Nat} (few : digits * 5 ^ count ≤ 2 ^ 53) (high : count < 971) :
    IsMagnitude (digits * 10 ^ count) := by
  have fits := fits_of_le few (by omega : -1074 ≤ (count : Int)) (by omega)
  have value : ((digits * 5 ^ count : Nat) : ℚ) * 2 ^ (count : Int) = digits * 10 ^ count := by
    rw [Nat.cast_mul, Nat.cast_pow, zpow_natCast, mul_assoc, ← mul_pow]
    norm_num
  rwa [value] at fits

/-- An integer of at most 53 bits, as a `double`. -/
def Double.ofInt (n : Int) (small : n.natAbs ≤ 2 ^ 53) : Double :=
  .finite (decide (n < 0)) n.natAbs (fits_natCast small)

theorem magnitude_lt {q : ℚ} (fits : IsMagnitude q) : q < 2 ^ (1024 : Int) := by
  obtain ⟨mantissa, exponent, few, _, high, rfl⟩ := isMagnitude_iff.mp fits
  calc (mantissa : ℚ) * 2 ^ exponent < 2 ^ (53 : Int) * 2 ^ exponent :=
        mul_lt_mul_of_pos_right (by exact_mod_cast few) (two_power_pos exponent)
    _ = 2 ^ (53 + exponent) := (zpow_add₀ two_ne_zero _ _).symm
    _ ≤ 2 ^ (1024 : Int) := zpow_le_zpow_right₀ (by norm_num) (by omega)

theorem le_magnitude {q : ℚ} (fits : IsMagnitude q) (positive : 0 < q) : 2 ^ (-1074 : Int) ≤ q := by
  obtain ⟨mantissa, exponent, _, low, _, rfl⟩ := isMagnitude_iff.mp fits
  have one : (1 : ℚ) ≤ mantissa := by
    have nonzero : mantissa ≠ 0 := by
      rintro rfl
      simp at positive
    exact_mod_cast Nat.one_le_iff_ne_zero.mpr nonzero
  calc (2 : ℚ) ^ (-1074 : Int) ≤ 2 ^ exponent := zpow_le_zpow_right₀ (by norm_num) low
    _ ≤ mantissa * 2 ^ exponent := le_mul_of_one_le_left (two_power_pos exponent).le one

/-- The exponent of the first digit of a magnitude, in any base. -/
theorem log_bounds {q : ℚ} {base : Nat} (large : 2 ≤ base) (fits : IsMagnitude q) :
    -1074 ≤ Int.log base q ∧ Int.log base q < 1024 := by
  have bases : (2 : ℚ) ≤ base := by exact_mod_cast large
  rcases (nonneg_of_has fits).eq_or_lt with zero | positive
  · rw [← zero, Int.log_zero_right]
    decide
  · constructor
    · rw [← Int.zpow_le_iff_le_log (by omega) positive]
      calc (base : ℚ) ^ (-1074 : Int) ≤ 2 ^ (-1074 : Int) := by
            rw [zpow_neg, zpow_neg]
            exact inv_anti₀ (two_power_pos _) (zpow_le_zpow_left₀ (by omega) (by norm_num) bases)
        _ ≤ q := le_magnitude fits positive
    · rw [← Int.lt_zpow_iff_log_lt (by omega) positive]
      calc q < 2 ^ (1024 : Int) := magnitude_lt fits
        _ ≤ (base : ℚ) ^ (1024 : Int) := zpow_le_zpow_left₀ (by omega) (by norm_num) bases

/-- The decimal exponent of a magnitude has four digits at most. -/
theorem exponent_moderate {q : ℚ} (fits : IsMagnitude q) : (sixDigits q).2.natAbs < 10 ^ 4 := by
  have bounds := log_bounds (by omega : 2 ≤ 10) fits
  have exponent := sixDigits_exponent q
  omega

/-! ## Printing -/

def signText (negative : Bool) : Bytes := if negative then [minusSign] else []

def Double.text : Double → Bytes
  | .finite negative magnitude _ => signText negative ++ printMagnitude magnitude
  | .infinite negative => signText negative ++ [105, 110, 102]
  | .nan negative => signText negative ++ [110, 97, 110]

theorem text_finite (negative : Bool) {q : ℚ} (fits : IsMagnitude q) :
    DenotesDecimal (Double.finite negative q fits).text negative (rounded q) := by
  refine ⟨printMagnitude q, unsigned_printMagnitude q, ?_⟩
  cases negative with
  | false => exact .inl ⟨rfl, .inl rfl⟩
  | true => exact .inr ⟨rfl, rfl⟩

theorem noNul_text (value : Double) : 0 ∉ value.text := by
  cases value with
  | finite negative magnitude fits => exact noNul_of_denotes (text_finite negative fits)
  | infinite negative => cases negative <;> decide
  | nan negative => cases negative <;> decide

/-- What `%g` prints, in the C locale. -/
def printG (value : Double) : CString := ⟨value.text, noNul_text value⟩

theorem length_printG_le (value : Double) : strlen (printG value) ≤ 14 := by
  show value.text.length ≤ 14
  have sign : ∀ negative, (signText negative).length ≤ 1 := by decide
  cases value with
  | finite negative magnitude fits =>
    have digits := length_printMagnitude_le (exponent_moderate fits)
    rw [Double.text, List.length_append]
    have one := sign negative
    omega
  | infinite negative => cases negative <;> decide
  | nan negative => cases negative <;> decide

/-! ## Reading -/

/-- `strtod`, of which this much is the same everywhere: it is exact where a text
    denotes a magnitude of the type. -/
structure Strtod where
  value : CString → Double
  exact : ∀ (s : CString) (negative : Bool) (q : ℚ) (fits : IsMagnitude q),
    DenotesDecimal s.bytes negative q → value s = .finite negative q fits

/-- A value is read as what six digits keep of it. -/
theorem strtod_printG (strtod : Strtod) (negative : Bool) {q : ℚ} (fits : IsMagnitude q)
    (kept : IsMagnitude (rounded q)) :
    strtod.value (printG (.finite negative q fits)) = .finite negative (rounded q) kept :=
  strtod.exact _ _ _ _ (text_finite negative fits)

/-- What six digits keep of an integer of the type is in the type. -/
theorem fits_rounded {n : Nat} (small : n ≤ 2 ^ 53) : IsMagnitude (rounded n) := by
  by_cases few : n < 10 ^ 6
  · have kept : rounded n = n := (rounded_natCast_iff n).mpr ⟨n, 0, few, by omega⟩
    rw [kept]
    exact fits_natCast small
  · have first : 6 ≤ Nat.log 10 n := (Nat.le_log_iff_pow_le (by omega) (by omega)).mpr (by omega)
    have last : Nat.log 10 n < 16 := Nat.log_lt_of_lt_pow (by omega) (by omega)
    have digits := near_ten_le n
    have natural : (10 : ℚ) ^ (Int.log 10 (n : ℚ) - 5) = 10 ^ (Nat.log 10 n - 5) := by
      rw [Int.log_natCast, ← zpow_natCast]
      congr 1
      omega
    rw [rounded_eq, natural]
    refine fits_decimal ?_ (by omega)
    calc _ ≤ 1000000 * 5 ^ 10 := Nat.mul_le_mul digits (Nat.pow_le_pow_right (by omega) (by omega))
      _ ≤ 2 ^ 53 := by norm_num

/-- The nearest value, or an infinity where the type ends. -/
def nearest (negative : Bool) (q : ℚ) : Double :=
  if inside : binary64.Inside q then .finite negative (binary64.nearest q) (has_nearest inside) else .infinite negative

theorem nearest_eq (negative : Bool) {q : ℚ} (inside : binary64.Inside q) :
    nearest negative q = .finite negative (binary64.nearest q) (has_nearest inside) := dif_pos inside

theorem nearest_eq_infinite (negative : Bool) {q : ℚ} (outside : ¬ binary64.Inside q) :
    nearest negative q = .infinite negative := dif_neg outside

theorem nearest_of_fits (negative : Bool) {q : ℚ} (fits : IsMagnitude q) :
    nearest negative q = .finite negative q fits := by
  rw [nearest_eq negative (inside_of_lt (nonneg_of_has fits) (has_lt fits))]
  congr 1
  exact nearest_of_has fits

/-- The `strtod` that rounds to the nearest value. -/
def strtodNearest : Strtod where
  value s := nearest (strtodValue s.bytes).1 (strtodValue s.bytes).2
  exact := by
    intro s negative q fits denotes
    rw [strtodValue_of_denotes denotes]
    exact nearest_of_fits negative fits

end Mcs.Binary64
