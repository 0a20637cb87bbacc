import Mcs.Rounding

/-!
Binary types with a precision: the magnitudes that such a type has, and the magnitude of
the type nearest to a rational, before the type ends. It is the rational itself where the
type has it (`nearest_of_has`), near it everywhere (`nearest_close`), and among the
smallest magnitudes, which are evenly spaced, it is the one less than half a space away
(`nearest_of_close`).
-/
namespace Mcs.Precisions
open Mcs.Rounding

/-- A binary type: how many bits a mantissa has, and the powers of two at which it can
    stand. -/
structure Precision where
  bits : Nat
  low : Int
  high : Int
  positive : 0 < bits
  ordered : low ≤ high
  natural : 0 ≤ high

namespace Precision
variable (p : Precision)

def Has (q : ℚ) : Prop :=
  ∃ (mantissa : Nat) (exponent : Int), mantissa < 2 ^ p.bits ∧ p.low ≤ exponent ∧ exponent ≤ p.high ∧
    q = mantissa * 2 ^ exponent

/-- The power of two of the last bit of a magnitude near a rational. -/
def unit (q : ℚ) : Int := max (Int.log 2 q - (p.bits - 1)) p.low

def mantissa (q : ℚ) : Nat := near 2 (p.unit q) q

/-- The nearest magnitude, if the type had no end. -/
def nearest (q : ℚ) : ℚ := p.mantissa q * 2 ^ p.unit q

/-- It comes before the end of the type. -/
def Inside (q : ℚ) : Prop := p.unit q < p.high ∨ (p.unit q = p.high ∧ p.mantissa q < 2 ^ p.bits)

instance (q : ℚ) : Decidable (p.Inside q) := inferInstanceAs (Decidable (_ ∨ _))

/-- The least magnitude, and the space between the smallest ones. -/
def least : ℚ := 2 ^ p.low

end Precision

theorem two_power_pos (exponent : Int) : (0 : ℚ) < 2 ^ exponent := power_pos (by omega : 1 < 2) exponent

theorem two_power_add (a b : Int) : (2 : ℚ) ^ a * 2 ^ b = 2 ^ (a + b) := (zpow_add₀ two_ne_zero a b).symm

variable {p : Precision}

theorem least_pos (p : Precision) : 0 < p.least := two_power_pos p.low

theorem low_le_unit (q : ℚ) : p.low ≤ p.unit q := le_max_right _ _

theorem nonneg_of_has {q : ℚ} (has : p.Has q) : 0 ≤ q := by
  obtain ⟨mantissa, exponent, _, _, _, rfl⟩ := has
  exact mul_nonneg mantissa.cast_nonneg (two_power_pos exponent).le

theorem nearest_nonneg (q : ℚ) : 0 ≤ p.nearest q := mul_nonneg (Nat.cast_nonneg _) (two_power_pos _).le

/-! ## Multiples -/

/-- A multiple of a power of two is one of every smaller power. -/
theorem multiple_of_finer (m : Nat) {exponent finer : Int} (less : finer ≤ exponent) :
    ∃ k : Nat, (m : ℚ) * 2 ^ exponent = k * 2 ^ finer := by
  refine ⟨m * 2 ^ (exponent - finer).toNat, ?_⟩
  have natural : (2 : ℚ) ^ (exponent - finer) = ((2 ^ (exponent - finer).toNat : Nat) : ℚ) :=
    power_toNat 2 (by omega)
  rw [Nat.cast_mul, ← natural, mul_assoc, two_power_add, Int.sub_add_cancel]

theorem multiple_of_has {q : ℚ} (has : p.Has q) : ∃ k : Nat, q = k * p.least := by
  obtain ⟨mantissa, exponent, _, low, _, rfl⟩ := has
  exact multiple_of_finer mantissa low

theorem nearest_multiple (p : Precision) (q : ℚ) : ∃ k : Nat, p.nearest q = k * p.least :=
  multiple_of_finer _ (low_le_unit q)

/-! ## How near -/

/-- The unit is the last bit of the rational itself, or the least magnitude. -/
theorem unit_le {q : ℚ} (positive : 0 < q) : (2 : ℚ) ^ p.unit q / 2 ≤ max (q / 2 ^ p.bits) (p.least / 2) := by
  rcases max_choice (Int.log 2 q - (p.bits - 1)) p.low with relative | absolute
  · refine le_max_of_le_left ?_
    have first : (2 : ℚ) ^ Int.log 2 q ≤ q := Int.zpow_log_le_self (by omega : 1 < 2) positive
    have last : (2 : ℚ) ^ p.unit q / 2 = 2 ^ Int.log 2 q / 2 ^ p.bits := by
      rw [Precision.unit, relative, zpow_sub₀ two_ne_zero, zpow_sub₀ two_ne_zero, zpow_natCast, zpow_one]
      field_simp
    rw [last]
    exact div_le_div_of_nonneg_right first (by positivity)
  · refine le_max_of_le_right ?_
    rw [Precision.unit, absolute]
    rfl

theorem nearest_of_has {q : ℚ} (has : p.Has q) : p.nearest q = q := by
  obtain ⟨mantissa, exponent, few, low, _, value⟩ := has
  have bits := p.positive
  exact near_self (by omega : 1 < 2) few value (by unfold Precision.unit; omega)

theorem has_zero (p : Precision) : p.Has 0 :=
  ⟨0, p.low, Nat.two_pow_pos p.bits, le_rfl, p.ordered, by rw [Nat.cast_zero, zero_mul]⟩

theorem nearest_close (p : Precision) {q : ℚ} (nonneg : 0 ≤ q) :
    |p.nearest q - q| ≤ max (q / 2 ^ p.bits) (p.least / 2) := by
  rcases nonneg.eq_or_lt with zero | positive
  · rw [← zero, nearest_of_has (has_zero p), sub_zero, abs_zero]
    exact le_max_of_le_right (half_pos (least_pos p)).le
  · exact (near_close (by omega : 1 < 2) nonneg (p.unit q)).trans (unit_le positive)

/-- Where the magnitudes are evenly spaced, one that is closer than half a space is the
    nearest. -/
theorem nearest_of_close {q : ℚ} {k : Nat} (nonneg : 0 ≤ q) (small : q < 2 ^ p.bits * p.least)
    (close : |q - k * p.least| < p.least / 2) : p.nearest q = k * p.least := by
  rcases nonneg.eq_or_lt with zero | positive
  · have none : k = 0 := by
      rw [← zero, zero_sub, abs_neg, abs_of_nonneg (mul_nonneg k.cast_nonneg (least_pos p).le)] at close
      have below : (k : ℚ) < 1 := by
        refine lt_of_mul_lt_mul_right ?_ (least_pos p).le
        have half := half_lt_self (least_pos p)
        linarith
      exact Nat.lt_one_iff.mp (by exact_mod_cast below)
    rw [← zero, nearest_of_has (has_zero p), none, Nat.cast_zero, zero_mul]
  · have first : Int.log 2 q < p.bits + p.low := by
      rw [← Int.lt_zpow_iff_log_lt (by omega : 1 < 2) positive]
      calc q < 2 ^ p.bits * p.least := small
        _ = 2 ^ (p.bits + p.low) := by rw [← two_power_add, zpow_natCast, Precision.least]
    have unit : p.unit q = p.low := by
      unfold Precision.unit
      omega
    have same : near 2 p.low q = k := near_of_close (by omega : 1 < 2) close
    rw [Precision.nearest, Precision.mantissa, unit, same, Precision.least]

/-! ## The end of the type -/

theorem mantissa_le (q : ℚ) : p.mantissa q ≤ 2 ^ p.bits := near_le (by omega) (by unfold Precision.unit; omega)

theorem has_nearest {q : ℚ} (inside : p.Inside q) : p.Has (p.nearest q) := by
  have low : p.low ≤ p.unit q := low_le_unit q
  rcases inside with below | ⟨last, few⟩
  · rcases (mantissa_le q).lt_or_eq with less | same
    · exact ⟨_, _, less, low, below.le, rfl⟩
    · obtain ⟨bits, positive⟩ : ∃ bits, p.bits = bits + 1 := ⟨p.bits - 1, by have := p.positive; omega⟩
      refine ⟨2 ^ bits, p.unit q + 1, ?_, by omega, by omega, ?_⟩
      · rw [positive]
        exact Nat.pow_lt_pow_right (by omega) (by omega)
      · rw [Precision.nearest, same, positive, zpow_add₀ two_ne_zero]
        push_cast
        ring
  · exact ⟨_, _, few, low, last.le, rfl⟩

/-- The type ends half a unit behind its last magnitude. -/
theorem inside_of_lt {q : ℚ} (nonneg : 0 ≤ q) (less : q < (2 ^ p.bits - 1 / 2) * 2 ^ p.high) : p.Inside q := by
  have bits := p.positive
  have first : q = 0 ∨ Int.log 2 q < p.bits + p.high := by
    rcases nonneg.eq_or_lt with zero | positive
    · exact .inl zero.symm
    · refine .inr ((Int.lt_zpow_iff_log_lt (by omega : 1 < 2) positive).mp ?_)
      calc q < (2 ^ p.bits - 1 / 2) * 2 ^ p.high := less
        _ ≤ 2 ^ p.bits * 2 ^ p.high := mul_le_mul_of_nonneg_right (by linarith) (two_power_pos _).le
        _ = 2 ^ (p.bits + p.high) := by rw [← two_power_add, zpow_natCast]
  have last : p.unit q ≤ p.high := by
    have ordered := p.ordered
    have natural := p.natural
    unfold Precision.unit
    rcases first with zero | first
    · rw [zero, Int.log_zero_right]
      omega
    · omega
  refine last.lt_or_eq.imp id fun same => ⟨same, ?_⟩
  have scaled : q * 2 ^ (-p.high) < ((2 ^ p.bits - 1 : Nat) : ℚ) + 1 / 2 := by
    have cut := mul_lt_mul_of_pos_right less (two_power_pos (-p.high))
    rw [mul_assoc, two_power_add, add_neg_cancel, zpow_zero, mul_one] at cut
    refine cut.trans_eq ?_
    rw [Nat.cast_sub Nat.one_le_two_pow]
    push_cast
    ring
  have few : near 2 p.high q ≤ 2 ^ p.bits - 1 := roundEven_le_of_half scaled
  rw [Precision.mantissa, same]
  have some := Nat.two_pow_pos p.bits
  omega

theorem has_lt {q : ℚ} (has : p.Has q) : q < (2 ^ p.bits - 1 / 2) * 2 ^ p.high := by
  obtain ⟨mantissa, exponent, few, _, high, rfl⟩ := has
  have whole : (mantissa : ℚ) + 1 ≤ 2 ^ p.bits := by exact_mod_cast few
  calc (mantissa : ℚ) * 2 ^ exponent ≤ mantissa * 2 ^ p.high :=
        mul_le_mul_of_nonneg_left (zpow_le_zpow_right₀ (by norm_num) high) mantissa.cast_nonneg
    _ < (2 ^ p.bits - 1 / 2) * 2 ^ p.high := mul_lt_mul_of_pos_right (by linarith) (two_power_pos _)

end Mcs.Precisions
