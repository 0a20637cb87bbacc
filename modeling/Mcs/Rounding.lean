import Mathlib.Data.Int.Log
import Mathlib.Data.Rat.Floor
import Mathlib.Tactic.Linarith
import Mathlib.Tactic.Ring

/-!
Rounding a rational to a unit, a power of a base. The nearest multiple of the unit has
no more digits than the unit leaves of the number, or is the carry out of them
(`near_le`), and it is the number itself where that is a multiple of the unit
(`near_self`). It is half a unit away at most (`near_close`), and what is closer than
that to a multiple is rounded to it (`near_of_close`).
-/
namespace Mcs.Rounding

/-- The nearest natural, the even one of two. -/
def roundEven (q : ℚ) : Nat :=
  if q - ⌊q⌋₊ < 1 / 2 ∨ (q - ⌊q⌋₊ = 1 / 2 ∧ ⌊q⌋₊ % 2 = 0) then ⌊q⌋₊ else ⌊q⌋₊ + 1

theorem roundEven_natCast (n : Nat) : roundEven n = n := by
  rw [roundEven, Nat.floor_natCast, sub_self]
  exact if_pos (.inl (by norm_num))

theorem roundEven_le {q : ℚ} {bound : Nat} (less : q < bound) : roundEven q ≤ bound := by
  rcases lt_or_ge q 0 with negative | positive
  · have floor : ⌊q⌋₊ = 0 := Nat.floor_of_nonpos negative.le
    rw [roundEven, floor, if_pos (.inl (by rw [Nat.cast_zero]; linarith))]
    exact Nat.zero_le _
  · have floor : ⌊q⌋₊ < bound := (Nat.floor_lt positive).mpr less
    unfold roundEven
    split <;> omega

theorem roundEven_of_close {q : ℚ} {n : Nat} (close : |q - n| < 1 / 2) : roundEven q = n := by
  obtain ⟨low, high⟩ := abs_lt.mp close
  rcases le_or_gt (n : ℚ) q with above | below
  · have floor : ⌊q⌋₊ = n := (Nat.floor_eq_iff (n.cast_nonneg.trans above)).mpr ⟨above, by linarith⟩
    rw [roundEven, floor, if_pos (.inl high)]
  · cases n with
    | zero =>
      rw [Nat.cast_zero] at below
      have floor : ⌊q⌋₊ = 0 := Nat.floor_of_nonpos below.le
      rw [roundEven, floor, if_pos (.inl (by rw [Nat.cast_zero]; linarith))]
    | succ n =>
      rw [Nat.cast_succ] at low below
      have some : (0 : ℚ) ≤ n := n.cast_nonneg
      have floor : ⌊q⌋₊ = n := (Nat.floor_eq_iff (by linarith)).mpr ⟨by linarith, below⟩
      rw [roundEven, floor, if_neg]
      rintro (less | ⟨half, _⟩) <;> linarith

theorem roundEven_le_of_half {q : ℚ} {bound : Nat} (less : q < bound + 1 / 2) : roundEven q ≤ bound := by
  rcases lt_or_ge q bound with below | above
  · exact roundEven_le below
  · exact (roundEven_of_close (abs_lt.mpr ⟨by linarith, by linarith⟩)).le

theorem roundEven_close {q : ℚ} (nonneg : 0 ≤ q) : |(roundEven q : ℚ) - q| ≤ 1 / 2 := by
  have floor := Nat.floor_le nonneg
  have next := Nat.lt_floor_add_one q
  unfold roundEven
  split
  · rename_i down
    have small : q - ⌊q⌋₊ ≤ 1 / 2 := down.elim le_of_lt fun tie => tie.1.le
    exact abs_le.mpr ⟨by linarith, by linarith⟩
  · rename_i up
    have large : 1 / 2 ≤ q - ⌊q⌋₊ := not_lt.mp fun less => up (.inl less)
    rw [Nat.cast_succ]
    exact abs_le.mpr ⟨by linarith, by linarith⟩

/-- How many units the nearest multiple of a unit has. -/
def near (base : Nat) (unit : Int) (q : ℚ) : Nat := roundEven (q * base ^ (-unit))

theorem power_toNat (base : Nat) {exponent : Int} (natural : 0 ≤ exponent) :
    (base : ℚ) ^ exponent = ((base ^ exponent.toNat : Nat) : ℚ) := by
  obtain ⟨n, rfl⟩ := Int.eq_ofNat_of_zero_le natural
  simp

section
variable {base : Nat} (large : 1 < base)
include large

theorem base_pos : (0 : ℚ) < base := by exact_mod_cast Nat.zero_lt_of_lt large

theorem power_pos (exponent : Int) : (0 : ℚ) < base ^ exponent := zpow_pos (base_pos large) exponent

theorem power_add (a b : Int) : (base : ℚ) ^ a * base ^ b = base ^ (a + b) :=
  (zpow_add₀ (base_pos large).ne' a b).symm

/-- A number has as many digits as its last one leaves to its first one. -/
theorem log_lt {m count : Nat} {exponent : Int} (positive : 0 < m) (few : m < base ^ count) :
    Int.log base ((m : ℚ) * base ^ exponent) < exponent + count := by
  rw [← Int.lt_zpow_iff_log_lt large (mul_pos (Nat.cast_pos.mpr positive) (power_pos large exponent)),
    add_comm, ← power_add large, zpow_natCast]
  exact mul_lt_mul_of_pos_right (by exact_mod_cast few) (power_pos large exponent)

theorem near_le {q : ℚ} {unit : Int} {count : Nat} (first : Int.log base q < unit + count) :
    near base unit q ≤ base ^ count := by
  have bases : (1 : ℚ) ≤ base := by exact_mod_cast large.le
  refine roundEven_le ?_
  calc q * base ^ (-unit) < base ^ (Int.log base q + 1) * base ^ (-unit) :=
        mul_lt_mul_of_pos_right (Int.lt_zpow_succ_log_self large q) (power_pos large _)
    _ = base ^ (Int.log base q + 1 + -unit) := power_add large _ _
    _ ≤ base ^ (count : Int) := zpow_le_zpow_right₀ bases (by omega)
    _ = ((base ^ count : Nat) : ℚ) := by rw [zpow_natCast, Nat.cast_pow]

theorem near_close {q : ℚ} (nonneg : 0 ≤ q) (unit : Int) :
    |(near base unit q : ℚ) * base ^ unit - q| ≤ base ^ unit / 2 := by
  have power := power_pos large unit
  have scaled : (near base unit q : ℚ) * base ^ unit - q = ((near base unit q : ℚ) - q * base ^ (-unit)) * base ^ unit := by
    rw [sub_mul, mul_assoc q, power_add large, neg_add_cancel, zpow_zero, mul_one]
  have half := roundEven_close (mul_nonneg nonneg (power_pos large (-unit)).le)
  rw [scaled, abs_mul, abs_of_pos power, div_eq_inv_mul, ← one_div]
  exact mul_le_mul_of_nonneg_right half power.le

theorem near_of_close {q : ℚ} {unit : Int} {n : Nat} (close : |q - n * base ^ unit| < base ^ unit / 2) :
    near base unit q = n := by
  have power := power_pos large (-unit)
  have inverse : (base : ℚ) ^ unit * base ^ (-unit) = 1 := by rw [power_add large, add_neg_cancel, zpow_zero]
  have scaled : q * base ^ (-unit) - n = (q - n * base ^ unit) * base ^ (-unit) := by
    rw [sub_mul, mul_assoc, inverse, mul_one]
  refine roundEven_of_close ?_
  rw [scaled, abs_mul, abs_of_pos power]
  calc _ < (base : ℚ) ^ unit / 2 * base ^ (-unit) := mul_lt_mul_of_pos_right close power
    _ = 1 / 2 := by rw [div_mul_eq_mul_div, inverse]

theorem near_of_finer {m : Nat} {exponent unit : Int} (finer : unit ≤ exponent) :
    (near base unit (m * base ^ exponent) : ℚ) * base ^ unit = m * base ^ exponent := by
  have natural : (m : ℚ) * base ^ exponent * base ^ (-unit) = ((m * base ^ (exponent + -unit).toNat : Nat) : ℚ) := by
    rw [Nat.cast_mul, ← power_toNat base (by omega), ← power_add large, mul_assoc]
  rw [near, natural, roundEven_natCast, ← natural, mul_assoc, power_add large, neg_add_cancel, zpow_zero, mul_one]

/-- Where a number has so few digits that the unit is no coarser than the last one,
    nothing of it is lost. -/
theorem near_self {q : ℚ} {m count : Nat} {exponent unit : Int} (few : m < base ^ count) (value : q = m * base ^ exponent)
    (finer : Int.log base q < exponent + count → unit ≤ exponent) : (near base unit q : ℚ) * base ^ unit = q := by
  rcases m.eq_zero_or_pos with rfl | positive
  · have zero : q = (0 : Nat) := by rw [value, Nat.cast_zero, zero_mul]
    rw [near, zero, Nat.cast_zero, zero_mul, ← Nat.cast_zero, roundEven_natCast, Nat.cast_zero, zero_mul]
  · rw [value] at finer ⊢
    exact near_of_finer large (finer (log_lt large positive few))

end

end Mcs.Rounding
