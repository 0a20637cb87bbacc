import Mcs.Decimals
import Mcs.Precisions

/-!
Printing with six digits and reading back, over and over. A reader gives the values of a
type, which are multiples of a least one, near the rationals of the texts. A value that
was read of any six digits prints as digits that are read as the same value
(`read_rounded_read`), though these need not be the digits that it was read of. So one
trip settles a value, and those that no trip changes are the ones that six digits can
say (`survives_iff`).
-/
namespace Mcs.Settling
open Mcs.Rounding Mcs.Decimals Mcs.Precisions

/-- A way of reading rationals as multiples of a least value: off by less than a bit in
    twenty-three, or by hardly more than half of the least value, and without doubt where
    one of the smallest values is clearly the nearest. No power of ten is about as large as
    the least value. -/
structure Reader where
  read : ℚ → ℚ
  least : ℚ
  positive : 0 < least
  multiple : ∀ q, ∃ k : Nat, read q = k * least
  close : ∀ {q}, 0 ≤ q → |read q - q| ≤ max (q / 10 ^ 7) (51 / 100 * least)
  certain : ∀ {q} {k : Nat}, 0 ≤ q → k ≤ 10 ^ 6 → |q - k * least| ≤ 45 / 100 * least → read q = k * least
  apart : ∃ e : Int, (10 : ℚ) ^ e ≤ 9 / 10 * least ∧ 11 / 10 * least ≤ 10 ^ (e + 1)

/-! ## Six digits -/

/-- The unit of the last of six digits. -/
def step (q : ℚ) : ℚ := 10 ^ (Int.log 10 q - 5)

theorem ten_power_pos (exponent : Int) : (0 : ℚ) < 10 ^ exponent := power_pos (by omega : 1 < 10) exponent

theorem step_pos (q : ℚ) : 0 < step q := ten_power_pos _

theorem ten_power_succ (exponent : Int) : (10 : ℚ) ^ (exponent + 1) = 10 * 10 ^ exponent := by
  rw [zpow_add₀ (by norm_num), zpow_one, mul_comm]

theorem step_mul_pow (q : ℚ) (count : Nat) : 10 ^ count * step q = 10 ^ (Int.log 10 q - 5 + count) := by
  rw [step, zpow_add₀ (by norm_num), zpow_natCast, mul_comm]

theorem step_le {q : ℚ} (positive : 0 < q) : 10 ^ 5 * step q ≤ q := by
  have first : (10 : ℚ) ^ Int.log 10 q ≤ q := Int.zpow_log_le_self (by omega : 1 < 10) positive
  rw [step_mul_pow]
  exact le_of_eq_of_le (by congr 1; omega) first

theorem lt_step (q : ℚ) : q < 10 ^ 6 * step q := by
  have next : q < (10 : ℚ) ^ (Int.log 10 q + 1) := Int.lt_zpow_succ_log_self (by omega : 1 < 10) q
  rw [step_mul_pow]
  exact lt_of_lt_of_eq next (by congr 1; omega)

/-- Between numbers of different exponents there is a power of ten. -/
theorem ten_steps_le {q r : ℚ} (less : Int.log 10 q < Int.log 10 r) : 10 * step q ≤ step r := by
  rw [step, step, ← ten_power_succ]
  exact zpow_le_zpow_right₀ (by norm_num) (by omega)

theorem lt_of_log_lt {q r : ℚ} (less : Int.log 10 q < Int.log 10 r) : q < 10 ^ 5 * step r := by
  have next : q < (10 : ℚ) ^ (Int.log 10 q + 1) := Int.lt_zpow_succ_log_self (by omega : 1 < 10) q
  rw [step_mul_pow]
  exact next.trans_le (zpow_le_zpow_right₀ (by norm_num) (by omega))

theorem step_eq {q r : ℚ} (same : Int.log 10 q = Int.log 10 r) : step q = step r := by rw [step, step, same]

theorem step_of_log_succ {q r : ℚ} (next : Int.log 10 r = Int.log 10 q + 1) : step r = 10 * step q := by
  rw [step, step, next, ← ten_power_succ]
  congr 1
  omega

theorem rounded_nonneg (q : ℚ) : 0 ≤ rounded q := mul_nonneg (Nat.cast_nonneg _) (ten_power_pos _).le

theorem rounded_close {q : ℚ} (nonneg : 0 ≤ q) : |rounded q - q| ≤ step q / 2 := by
  rw [rounded_eq]
  exact near_close (by omega : 1 < 10) nonneg _

theorem rounded_of_close {q : ℚ} {n : Nat} (close : |q - n * step q| < step q / 2) : rounded q = n * step q := by
  have same : near 10 (Int.log 10 q - 5) q = n := near_of_close (by omega : 1 < 10) close
  rw [rounded_eq, same]
  rfl

theorem rounded_zero : rounded 0 = 0 := by
  rw [rounded_eq_iff]
  exact ⟨0, 0, by omega, by norm_num⟩

theorem rounded_rounded (q : ℚ) : rounded (rounded q) = rounded q :=
  rounded_eq_iff.mpr ⟨(sixDigits q).1, (sixDigits q).2 - 5, sixDigits_lt q, rfl⟩

/-- Nothing is rounded beyond digits that it has not passed by half a unit. -/
theorem rounded_le {q : ℚ} {n : Nat} {e : Int} (nonneg : 0 ≤ q) (low : 10 ^ 5 ≤ n) (high : n < 10 ^ 6)
    (less : q < (n + 1 / 2) * 10 ^ e) : rounded q ≤ n * 10 ^ e := by
  have unit := ten_power_pos e
  rcases nonneg.eq_or_lt with zero | positive
  · rw [← zero, rounded_zero]
    exact mul_nonneg n.cast_nonneg unit.le
  rcases lt_trichotomy (Int.log 10 q - 5) e with finer | same | coarser
  · have tenth : 10 * step q ≤ 10 ^ e := by
      rw [step, ← ten_power_succ]
      exact zpow_le_zpow_right₀ (by norm_num) (by omega)
    have few : (near 10 (Int.log 10 q - 5) q : ℚ) ≤ 10 ^ 6 := by exact_mod_cast near_ten_le q
    have some : (10 : ℚ) ^ 5 * 10 ^ e ≤ n * 10 ^ e := mul_le_mul_of_nonneg_right (by exact_mod_cast low) unit.le
    calc rounded q = near 10 (Int.log 10 q - 5) q * step q := rounded_eq q
      _ ≤ 10 ^ 6 * step q := mul_le_mul_of_nonneg_right few (step_pos q).le
      _ ≤ n * 10 ^ e := by linarith
  · have scaled : q * (10 : Nat) ^ (-e) < n + 1 / 2 := by
      have cut := mul_lt_mul_of_pos_right less (ten_power_pos (-e))
      rwa [mul_assoc, ← zpow_add₀ (by norm_num), add_neg_cancel, zpow_zero, mul_one] at cut
    have few : near 10 e q ≤ n := roundEven_le_of_half scaled
    rw [rounded_eq, same]
    exact mul_le_mul_of_nonneg_right (by exact_mod_cast few) unit.le
  · have tenfold : 10 * 10 ^ e ≤ step q := by
      rw [step, ← ten_power_succ]
      exact zpow_le_zpow_right₀ (by norm_num) (by omega)
    have last : (n + 1 / 2 : ℚ) * 10 ^ e ≤ 10 ^ 6 * 10 ^ e := by
      have whole : (n : ℚ) + 1 ≤ 10 ^ 6 := by exact_mod_cast high
      exact mul_le_mul_of_nonneg_right (by linarith) unit.le
    have first := step_le positive
    linarith

/-- Rounding does not go below the power of ten under a number. -/
theorem le_rounded {q : ℚ} (positive : 0 < q) : 10 ^ 5 * step q ≤ rounded q := by
  have close := (abs_le.mp (rounded_close positive.le)).1
  have low := step_le positive
  have unit := step_pos q
  have value : rounded q = near 10 (Int.log 10 q - 5) q * step q := rounded_eq q
  rw [value] at close ⊢
  have digits : ((10 ^ 5 - 1 : Nat) : ℚ) < near 10 (Int.log 10 q - 5) q := by
    refine lt_of_mul_lt_mul_right ?_ unit.le
    push_cast
    linarith
  have whole : 10 ^ 5 ≤ near 10 (Int.log 10 q - 5) q := by
    have less : 10 ^ 5 - 1 < near 10 (Int.log 10 q - 5) q := by exact_mod_cast digits
    omega
  exact mul_le_mul_of_nonneg_right (by exact_mod_cast whole) unit.le

theorem rounded_pos {q : ℚ} (positive : 0 < q) : 0 < rounded q :=
  (mul_pos (by norm_num) (step_pos q)).trans_le (le_rounded positive)

theorem le_sixDigits {q : ℚ} (positive : 0 < q) : 10 ^ 5 ≤ (sixDigits q).1 := by
  have low := le_rounded positive
  rw [rounded_eq] at low
  have digits : (10 : ℚ) ^ 5 ≤ near 10 (Int.log 10 q - 5) q := le_of_mul_le_mul_right low (step_pos q)
  unfold sixDigits
  split
  · exact le_rfl
  · exact_mod_cast digits

theorem log_rounded {q : ℚ} (positive : 0 < q) : Int.log 10 (rounded q) = (sixDigits q).2 := by
  have unit := ten_power_pos ((sixDigits q).2 - 5)
  have low : (10 : ℚ) ^ 5 ≤ (sixDigits q).1 := by exact_mod_cast le_sixDigits positive
  have high : ((sixDigits q).1 : ℚ) < 10 ^ 6 := by exact_mod_cast sixDigits_lt q
  have present : 0 < rounded q := mul_pos (lt_of_lt_of_le (by norm_num) low) unit
  have above : (10 : ℚ) ^ (sixDigits q).2 ≤ rounded q := by
    refine le_trans (le_of_eq ?_) (mul_le_mul_of_nonneg_right low unit.le)
    rw [← zpow_natCast, ← zpow_add₀ (by norm_num)]
    congr 1
    omega
  have below : rounded q < (10 : ℚ) ^ ((sixDigits q).2 + 1) := by
    refine lt_of_lt_of_eq (mul_lt_mul_of_pos_right high unit) ?_
    rw [← zpow_natCast, ← zpow_add₀ (by norm_num)]
    congr 1
    omega
  have first := (Int.zpow_le_iff_le_log (by omega : 1 < 10) present).mp above
  have last := (Int.lt_zpow_iff_log_lt (by omega : 1 < 10) present).mp below
  omega

/-- The six digits and their exponent are those of what they keep. -/
theorem sixDigits_eq_iff {q r : ℚ} (positive : 0 < q) (present : 0 < r) : sixDigits q = sixDigits r ↔ rounded q = rounded r := by
  constructor
  · intro same
    rw [rounded, rounded, same]
  · intro same
    have exponent : (sixDigits q).2 = (sixDigits r).2 := by rw [← log_rounded positive, ← log_rounded present, same]
    rw [rounded, rounded, exponent] at same
    have digits := mul_right_cancel₀ (ten_power_pos _).ne' same
    exact Prod.ext (by exact_mod_cast digits) exponent

/-- Where the six digits of a number are known. -/
theorem rounded_eq_of_close {q : ℚ} {n : Nat} {e : Int} (low : (10 : ℚ) ^ (e + 5) ≤ q) (high : q < 10 ^ (e + 6))
    (close : |q - n * 10 ^ e| < 10 ^ e / 2) : rounded q = n * 10 ^ e := by
  have positive := (ten_power_pos (e + 5)).trans_le low
  have first := (Int.zpow_le_iff_le_log (by omega : 1 < 10) positive).mp low
  have last := (Int.lt_zpow_iff_log_lt (by omega : 1 < 10) positive).mp high
  have unit : step q = 10 ^ e := by
    rw [step]
    congr 1
    omega
  rw [← unit] at close ⊢
  exact rounded_of_close close

/-- Six digits, the first of them not zero, and their unit. -/
theorem digits_of_rounded {d : ℚ} (positive : 0 < d) (whole : rounded d = d) :
    ∃ n : Nat, 10 ^ 5 ≤ n ∧ n < 10 ^ 6 ∧ d = n * step d := by
  have value : d = near 10 (Int.log 10 d - 5) d * step d := whole.symm.trans (rounded_eq d)
  generalize near 10 (Int.log 10 d - 5) d = n at value
  have low : (10 : ℚ) ^ 5 ≤ n := le_of_mul_le_mul_right ((step_le positive).trans_eq value) (step_pos d)
  have high : (n : ℚ) < 10 ^ 6 := lt_of_mul_lt_mul_right (value.symm.trans_lt (lt_step d)) (step_pos d).le
  exact ⟨n, by exact_mod_cast low, by exact_mod_cast high, value⟩

/-! ## One trip -/

namespace Reader
variable (reader : Reader)

/-- The unit of six digits is clearly smaller than the least value, or clearly larger. -/
theorem fine_or_coarse (q : ℚ) : step q ≤ 9 / 10 * reader.least ∨ 11 / 10 * reader.least ≤ step q := by
  obtain ⟨e, below, above⟩ := reader.apart
  rcases le_or_gt (Int.log 10 q - 5) e with less | more
  · exact .inl ((zpow_le_zpow_right₀ (by norm_num) less).trans below)
  · exact .inr (above.trans (zpow_le_zpow_right₀ (by norm_num) more))

theorem read_zero : reader.read 0 = 0 := by
  have least := reader.positive
  have read := reader.certain le_rfl (Nat.zero_le _) (by rw [Nat.cast_zero, zero_mul, sub_zero, abs_zero]; linarith)
  rwa [Nat.cast_zero, zero_mul] at read

/-- Where six digits are finer than the values, what they keep of a value is read as the
    value. -/
theorem read_rounded_of_fine {k : Nat} {r : ℚ} (value : r = k * reader.least)
    (fine : step r ≤ 9 / 10 * reader.least) : reader.read (rounded r) = r := by
  have least := reader.positive
  have nonneg : 0 ≤ r := value ▸ mul_nonneg k.cast_nonneg least.le
  have few : (k : ℚ) < 10 ^ 6 := by
    refine lt_of_mul_lt_mul_right ?_ least.le
    have below := lt_step r
    linarith
  have close := rounded_close nonneg
  rw [value]
  refine reader.certain (rounded_nonneg _) (by exact_mod_cast few.le) ?_
  rw [← value]
  linarith

section
variable {reader} {d r : ℚ} (positive : 0 < d) (whole : rounded d = d) (read : reader.read d = r)
include positive whole read

/-- A value of the same exponent is printed as the digits that it was read of. -/
theorem rounded_of_same (same : Int.log 10 r = Int.log 10 d) (coarse : 11 / 10 * reader.least ≤ step r) :
    rounded r = d := by
  obtain ⟨n, _, _, value⟩ := digits_of_rounded positive whole
  have off : |r - d| ≤ max (d / 10 ^ 7) (51 / 100 * reader.least) := read ▸ reader.close positive.le
  have below := lt_step d
  rw [← step_eq same] at below value
  have near : |r - d| < step r / 2 := off.trans_lt (max_lt (by linarith) (by linarith))
  rw [value] at near ⊢
  exact rounded_of_close near

/-- Only the digits of a power of ten are read as a value of a smaller exponent. -/
theorem power_of_below (below : Int.log 10 r < Int.log 10 d) (coarse : 11 / 10 * reader.least ≤ step d) :
    d = 10 ^ 5 * step d := by
  obtain ⟨n, low, _, value⟩ := digits_of_rounded positive whole
  have off : |r - d| ≤ max (d / 10 ^ 7) (51 / 100 * reader.least) := read ▸ reader.close positive.le
  have unit := step_pos d
  have less := lt_step d
  have near : |r - d| < step d := off.trans_lt (max_lt (by linarith) (by linarith))
  have under := lt_of_log_lt below
  rcases low.eq_or_lt with same | more
  · refine value.trans ?_
    rw [← same]
    push_cast
    rfl
  · have next : (10 : ℚ) ^ 5 + 1 ≤ n := by exact_mod_cast more
    have above : (10 ^ 5 + 1) * step d ≤ d := (mul_le_mul_of_nonneg_right next unit.le).trans_eq value.symm
    have apart := (abs_lt.mp near).1
    linarith

/-- The value has the exponent before it. -/
theorem tenth_of_below (below : Int.log 10 r < Int.log 10 d) (coarse : 11 / 10 * reader.least ≤ step d) :
    Int.log 10 d = Int.log 10 r + 1 := by
  have power := power_of_below positive whole read below coarse
  have off : |r - d| ≤ max (d / 10 ^ 7) (51 / 100 * reader.least) := read ▸ reader.close positive.le
  have near : |r - d| < step d := off.trans_lt (max_lt (by linarith) (by linarith))
  have large : 10 ^ 4 * step d ≤ r := by
    have low := (abs_lt.mp near).1
    linarith
  rw [step_mul_pow] at large
  have exponent := (Int.zpow_le_iff_le_log (by omega : 1 < 10) ((ten_power_pos _).trans_le large)).mp large
  omega

/-- The value is printed as the power, unless six digits are finer than the values there. -/
theorem rounded_of_below (below : Int.log 10 r < Int.log 10 d) (coarse : 11 / 10 * reader.least ≤ step r) :
    rounded r = d := by
  have unit := step_pos r
  have ten := ten_steps_le below
  have power := power_of_below positive whole read below (by linarith)
  have tenth := step_of_log_succ (tenth_of_below positive whole read below (by linarith))
  have off : |r - d| ≤ max (d / 10 ^ 7) (51 / 100 * reader.least) := read ▸ reader.close positive.le
  have value : d = ((10 ^ 6 : Nat) : ℚ) * step r := by
    rw [power, tenth]
    push_cast
    ring
  have near : |r - d| < step r / 2 := off.trans_lt (max_lt (by linarith) (by linarith))
  rw [value] at near ⊢
  exact rounded_of_close near

/-- A value above a power of ten that the digits did not reach is printed as that power,
    which lies between the digits and the value. -/
theorem read_rounded_of_above (above : Int.log 10 d < Int.log 10 r) (present : 0 < r)
    (coarse : 11 / 10 * reader.least ≤ step r) : step d ≤ 51 / 100 * reader.least ∧ reader.read (rounded r) = r := by
  obtain ⟨n, _, high, value⟩ := digits_of_rounded positive whole
  have off : |r - d| ≤ max (d / 10 ^ 7) (51 / 100 * reader.least) := read ▸ reader.close positive.le
  have least := reader.positive
  have unit := step_pos d
  have less := lt_step d
  have low := step_le present
  have ten := ten_steps_le above
  have last : d ≤ (10 ^ 6 - 1) * step d := by
    have few : (n : ℚ) + 1 ≤ 10 ^ 6 := by exact_mod_cast high
    exact value.trans_le (mul_le_mul_of_nonneg_right (by linarith) unit.le)
  have excess : r - d ≤ 51 / 100 * reader.least := by
    rcases le_max_iff.mp ((le_abs_self _).trans off) with relative | absolute
    · linarith
    · exact absolute
  have exponent : Int.log 10 r = Int.log 10 d + 1 := by
    have bound : r < 10 ^ 7 * step d := by linarith
    rw [step_mul_pow] at bound
    have small := (Int.lt_zpow_iff_log_lt (by omega : 1 < 10) present).mp bound
    omega
  have tenfold := step_of_log_succ exponent
  have printed : rounded r = ((10 ^ 5 : Nat) : ℚ) * step r := by
    refine rounded_of_close (abs_lt.mpr ?_)
    push_cast
    constructor <;> linarith
  obtain ⟨k, multiple⟩ := reader.multiple d
  rw [read] at multiple
  have few : k ≤ 10 ^ 6 := by
    have bound : (k : ℚ) ≤ 10 ^ 6 := by
      refine le_of_mul_le_mul_right ?_ least
      rw [← multiple]
      linarith
    exact_mod_cast bound
  refine ⟨by linarith, ?_⟩
  have again := reader.certain (rounded_nonneg r) few (by
    rw [← multiple, printed, abs_le]
    push_cast
    constructor <;> linarith)
  rw [again, multiple]

end

theorem read_nonneg (q : ℚ) : 0 ≤ reader.read q := by
  obtain ⟨k, multiple⟩ := reader.multiple q
  rw [multiple]
  exact mul_nonneg k.cast_nonneg reader.positive.le

/-- What was read of six digits is printed as digits that are read the same. -/
theorem read_rounded_read {d : ℚ} (nonneg : 0 ≤ d) (whole : rounded d = d) :
    reader.read (rounded (reader.read d)) = reader.read d := by
  rcases (reader.read_nonneg d).eq_or_lt with zero | present
  · rw [← zero, rounded_zero, reader.read_zero]
  have positive : 0 < d := by
    refine nonneg.lt_of_ne fun none => present.ne' ?_
    rw [← none, reader.read_zero]
  obtain ⟨k, multiple⟩ := reader.multiple d
  rcases reader.fine_or_coarse (reader.read d) with fine | coarse
  · exact reader.read_rounded_of_fine multiple fine
  · rcases lt_trichotomy (Int.log 10 (reader.read d)) (Int.log 10 d) with below | same | above
    · rw [rounded_of_below positive whole rfl below coarse]
    · rw [rounded_of_same positive whole rfl same coarse]
    · exact (read_rounded_of_above positive whole rfl above present coarse).2

/-- The values that a trip does not change are those that are read of six digits. -/
theorem survives_iff {v : ℚ} :
    reader.read (rounded v) = v ↔ ∃ (m : Nat) (j : Int), m < 10 ^ 6 ∧ reader.read (m * 10 ^ j) = v := by
  constructor
  · intro survives
    exact ⟨(sixDigits v).1, (sixDigits v).2 - 5, sixDigits_lt v, survives⟩
  · rintro ⟨m, j, few, rfl⟩
    exact reader.read_rounded_read (mul_nonneg m.cast_nonneg (ten_power_pos j).le) (rounded_eq_iff.mpr ⟨m, j, few, rfl⟩)

/-- One trip settles the digits too, except where they are the power of ten at which six
    digits become coarser than the values, and it is read as a value below it. -/
theorem rounded_read_rounded {k : Nat} {v : ℚ} (value : v = k * reader.least) :
    rounded (reader.read (rounded v)) = rounded v ∨
      ∃ e : Int, (10 : ℚ) ^ e ≤ 9 / 10 * reader.least ∧ 11 / 10 * reader.least ≤ 10 ^ (e + 1) ∧
        rounded v = 10 ^ (e + 6) ∧ reader.read (10 ^ (e + 6)) < 10 ^ (e + 6) := by
  have least := reader.positive
  rcases (value ▸ mul_nonneg k.cast_nonneg least.le : 0 ≤ v).eq_or_lt with zero | positive
  · left
    rw [← zero, rounded_zero, reader.read_zero, rounded_zero]
  rcases reader.fine_or_coarse v with fine | coarse
  · left
    rw [reader.read_rounded_of_fine value fine]
  have first := le_rounded positive
  have present := rounded_pos positive
  have whole : rounded (rounded v) = rounded v := rounded_rounded v
  have larger : step v ≤ step (rounded v) := by
    rw [step_mul_pow] at first
    have exponent := (Int.zpow_le_iff_le_log (by omega : 1 < 10) present).mp first
    exact zpow_le_zpow_right₀ (by norm_num) (by omega)
  rcases lt_trichotomy (Int.log 10 (reader.read (rounded v))) (Int.log 10 (rounded v)) with below | same | above
  · rcases reader.fine_or_coarse (reader.read (rounded v)) with fine | stillCoarse
    · right
      have next := tenth_of_below present whole rfl below (by linarith)
      have power : rounded v = 10 ^ (Int.log 10 (reader.read (rounded v)) - 5 + 6) := by
        refine (power_of_below present whole rfl below (by linarith)).trans ?_
        rw [step_mul_pow, next]
        congr 1
        omega
      refine ⟨Int.log 10 (reader.read (rounded v)) - 5, fine, ?_, power, ?_⟩
      · rw [ten_power_succ]
        show _ ≤ 10 * step (reader.read (rounded v))
        rw [← step_of_log_succ next]
        linarith
      · rw [← power]
        exact (lt_of_log_lt below).trans_eq (power_of_below present whole rfl below (by linarith)).symm
    · exact .inl (rounded_of_below present whole rfl below stillCoarse)
  · exact .inl (rounded_of_same present whole rfl same (by rw [step_eq same]; linarith))
  · have ten := ten_steps_le above
    have close := reader.close present.le
    have low := step_le present
    have near := close.trans_lt (max_lt (by linarith) (by linarith) : _ < rounded v)
    have some : 0 < reader.read (rounded v) := by
      have bound := (abs_lt.mp near).1
      linarith
    have unit := (read_rounded_of_above present whole rfl above some (by linarith)).1
    linarith

section
variable {p : Precision} {q s : ℚ}

/-- A small error before the rounding is not too much. -/
theorem close_of_moved (bits : 24 ≤ p.bits) (nonneg : 0 ≤ s)
    (moved : |s - q| ≤ q / 10 ^ 9 + p.least / 1000) :
    |p.nearest s - q| ≤ max (q / 10 ^ 7) (51 / 100 * p.least) := by
  have least := least_pos p
  have first := abs_le.mp moved
  have power : (2 : ℚ) ^ 24 ≤ 2 ^ p.bits := pow_le_pow_right₀ (by norm_num) bits
  have precise : s / 2 ^ p.bits ≤ 6 / 10 ^ 8 * s := by
    refine (div_le_div_of_nonneg_left nonneg (by norm_num) power).trans ?_
    rw [div_le_iff₀ (by norm_num)]
    linarith
  rcases le_max_iff.mp (nearest_close p nonneg) with relative | absolute
  · have second := abs_le.mp (relative.trans precise)
    rcases le_total q (10 ^ 6 * p.least) with small | large
    · exact le_max_of_le_right (abs_le.mpr ⟨by linarith, by linarith⟩)
    · exact le_max_of_le_left (abs_le.mpr ⟨by linarith, by linarith⟩)
  · have second := abs_le.mp absolute
    rcases le_total q (9 * 10 ^ 6 * p.least) with small | large
    · exact le_max_of_le_right (abs_le.mpr ⟨by linarith, by linarith⟩)
    · exact le_max_of_le_left (abs_le.mpr ⟨by linarith, by linarith⟩)

theorem certain_of_moved (bits : 24 ≤ p.bits) (nonneg : 0 ≤ s) (moved : |s - q| ≤ q / 10 ^ 9 + p.least / 1000)
    {k : Nat} (few : k ≤ 10 ^ 6) (close : |q - k * p.least| ≤ 45 / 100 * p.least) : p.nearest s = k * p.least := by
  have least := least_pos p
  have first := abs_le.mp moved
  have second := abs_le.mp close
  have bound : (k : ℚ) * p.least ≤ 10 ^ 6 * p.least := mul_le_mul_of_nonneg_right (by exact_mod_cast few) least.le
  have power : (2 : ℚ) ^ 24 * p.least ≤ 2 ^ p.bits * p.least :=
    mul_le_mul_of_nonneg_right (pow_le_pow_right₀ (by norm_num) bits) least.le
  exact nearest_of_close nonneg (by linarith) (abs_lt.mpr ⟨by linarith, by linarith⟩)

end

/-- Rounding to a type of so many bits reads well, also after something that moves a
    rational hardly at all. -/
def ofNearest (p : Precision) (bits : 24 ≤ p.bits) (first : ℚ → ℚ) (nonneg : ∀ {q}, 0 ≤ q → 0 ≤ first q)
    (moved : ∀ {q}, 0 ≤ q → |first q - q| ≤ q / 10 ^ 9 + p.least / 1000)
    (apart : ∃ e : Int, (10 : ℚ) ^ e ≤ 9 / 10 * p.least ∧ 11 / 10 * p.least ≤ 10 ^ (e + 1)) : Reader where
  read q := p.nearest (first q)
  least := p.least
  positive := least_pos p
  multiple q := nearest_multiple p (first q)
  close nonnegative := close_of_moved bits (nonneg nonnegative) (moved nonnegative)
  certain nonnegative few close := certain_of_moved bits (nonneg nonnegative) (moved nonnegative) few close
  apart := apart

end Reader

end Mcs.Settling
