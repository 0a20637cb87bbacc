import Mcs.Binary64
import Mcs.Reading
import Mcs.RoundTrip

/-!
Double settings. `keyfile_set_double` prints with `%g`, which keeps six significant
digits, so `keyfile_get_double` reads what six digits keep of the value: an integer of
the type comes back exactly where it has no more digits (`setDouble_getDouble_iff`).
-/
namespace Mcs.Doubles
open Mcs.Dictionary Mcs.Strings Mcs.Decimals Mcs.Binary64 Mcs.Sectioned Mcs.KeyfileModel Mcs.RoundTrip

variable {T : Type → Type} [Patricia CString T]

/-- `keyfile_set_double`. The numeric locale is "C" while it prints. -/
def keyfileSetDouble (self : Keyfile T) (sect key : CString) (value : Double) : Keyfile T × Response :=
  ((keyfileSetString self sect key (snprintf 4096 (printG value))).1, .MCS_OK)

/-- `keyfile_get_double`, in the same locale. `value` is what the caller's `*value`
    holds before the call. -/
def keyfileGetDouble (strtod : Strtod) (self : Keyfile T) (sect key : CString) (value : Double) : Response × Double :=
  keyfileGetAs strtod.value self sect key value

/-- The buffer of `keyfile_set_double` holds every text. -/
theorem snprintf_printG (value : Double) : snprintf 4096 (printG value) = printG value := by
  have short := length_printG_le value
  exact snprintf_of_short (by omega)

/-- What is read is the text of the value, as `strtod` understands it. -/
theorem getDouble_setDouble (strtod : Strtod) (self : Keyfile T) (sect key : CString) (value old : Double) :
    keyfileGetDouble strtod (keyfileSetDouble self sect key value).1 sect key old =
      (.MCS_OK, strtod.value (printG value)) := by
  have held : (view (keyfileSetDouble self sect key value).1).get sect key = some (printG value) := by
    rw [keyfileSetDouble, snprintf_printG, view_keyfileSetString]
    exact (Store.get_set _ _ _ _ _ _).trans (if_pos rfl)
  rw [keyfileGetDouble, keyfileGetAs_eq, held]

/-- Six digits, and zeros after them. -/
def SixDigits (n : Int) : Prop := ∃ (m : Int) (j : Nat), m.natAbs < 10 ^ 6 ∧ n = m * 10 ^ j

theorem sixDigits_iff_natAbs (n : Int) : SixDigits n ↔ ∃ m j : Nat, m < 10 ^ 6 ∧ n.natAbs = m * 10 ^ j := by
  constructor
  · rintro ⟨m, j, few, rfl⟩
    exact ⟨m.natAbs, j, few, by rw [Int.natAbs_mul, Int.natAbs_pow]; rfl⟩
  · rintro ⟨m, j, few, value⟩
    have cast : (n.natAbs : Int) = m * 10 ^ j := by exact_mod_cast value
    rcases Int.natAbs_eq n with same | same
    · exact ⟨m, j, by rwa [Int.natAbs_natCast], by rw [same, cast]⟩
    · exact ⟨-m, j, by rwa [Int.natAbs_neg, Int.natAbs_natCast], by rw [same, cast, Int.neg_mul]⟩

/-- The text of an integer is read as the integer only where six digits have it. -/
theorem reads_iff (strtod : Strtod) {n : Int} (small : n.natAbs ≤ 2 ^ 53) :
    strtod.value (printG (.ofInt n small)) = .ofInt n small ↔ SixDigits n := by
  rw [sixDigits_iff_natAbs, ← rounded_natCast_iff]
  have read : strtod.value (printG (.ofInt n small)) = .finite (decide (n < 0)) _ (fits_rounded small) :=
    strtod_printG strtod _ _ _
  rw [read, Double.ofInt, Double.finite.injEq]
  exact and_iff_right rfl

/-- After an integer is set, exactly the integer is read, if and only if it has six
    significant digits at most. -/
theorem setDouble_getDouble_iff (strtod : Strtod) (self : Keyfile T) (sect key : CString) (n : Int)
    (small : n.natAbs ≤ 2 ^ 53) (old : Double) :
    keyfileGetDouble strtod (keyfileSetDouble self sect key (.ofInt n small)).1 sect key old =
      (.MCS_OK, .ofInt n small) ↔ ∃ (m : Int) (j : Nat), m.natAbs < 10 ^ 6 ∧ n = m * 10 ^ j := by
  rw [getDouble_setDouble, Prod.mk.injEq]
  exact (and_iff_right rfl).trans (reads_iff strtod small)

theorem setDouble_getDouble_iff_million :
    keyfileGetDouble strtodNearest (keyfileSetDouble (keyfileNew : Keyfile (Assoc false CString)) nameA nameA
      (.ofInt (-12000000) (by decide))).1 nameA nameA (.nan false) = (.MCS_OK, .ofInt (-12000000) (by decide)) :=
  (setDouble_getDouble_iff strtodNearest _ nameA nameA (-12000000) _ _).mpr ⟨-12, 6, by decide, by decide⟩

/-- The seventh digit of `1234567` is lost. -/
theorem seventhDigit_lost : ¬ ∀ (strtod : Strtod) (self : Keyfile (Assoc false CString)) (sect key : CString) (n : Int)
    (small : n.natAbs ≤ 2 ^ 53) (old : Double),
    keyfileGetDouble strtod (keyfileSetDouble self sect key (.ofInt n small)).1 sect key old =
      (.MCS_OK, .ofInt n small) := by
  intro exact
  have same := exact strtodNearest keyfileNew nameA nameA 1234567 (by decide) (.nan false)
  rw [getDouble_setDouble, Prod.mk.injEq, reads_iff] at same
  obtain ⟨m, j, few, value⟩ := same.2
  cases j with
  | zero => omega
  | succ j =>
    rw [pow_succ, ← mul_assoc] at value
    omega

end Mcs.Doubles
