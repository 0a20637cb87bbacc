import Mcs.Doubles
import Mcs.Settling

/-!
Float settings, and how much both floating-point types lose. `keyfile_set_float` prints a
`float` as a `double`, `keyfile_get_float` reads a `double` and makes it a `float`. Where
`strtod` rounds to the nearest value, a set and a get leave exactly the values alone that
are read of six digits (`setDouble_getDouble_survives_iff`,
`setFloat_getFloat_survives_iff`), and the text of every value but one is stored again for
what is read of it (`texts_settle_iff`).
-/
namespace Mcs.Floats
open Mcs.Dictionary Mcs.Strings Mcs.Rounding Mcs.Decimals Mcs.Binary64 Mcs.Precisions Mcs.Settling Mcs.KeyfileModel
open Mcs.Sectioned Mcs.RoundTrip Mcs.Doubles

variable {T : Type → Type} [Patricia CString T]

/-! ## The types -/

def binary32 : Precision := ⟨24, -149, 104, by decide, by decide, by decide⟩

/-- `float`. -/
inductive Single
  | finite (negative : Bool) (magnitude : ℚ) (fits : binary32.Has magnitude)
  | infinite (negative : Bool)
  | nan (negative : Bool)

theorem fits_of_single {q : ℚ} (fits : binary32.Has q) : IsMagnitude q := by
  obtain ⟨mantissa, exponent, few, low, high, value⟩ := fits
  simp only [binary32] at few low high
  exact isMagnitude_iff.mpr ⟨mantissa, exponent, by omega, by omega, by omega, value⟩

/-- A `float` is a `double` when it is handed to `snprintf`. -/
def Single.promote : Single → Double
  | .finite negative _ fits => .finite negative _ (fits_of_single fits)
  | .infinite negative => .infinite negative
  | .nan negative => .nan negative

/-- The `float` that a `double` becomes where it is assigned: the nearest one, or an
    infinity where the type ends. -/
def narrow : Double → Single
  | .finite negative magnitude _ =>
    if inside : binary32.Inside magnitude then
      .finite negative (binary32.nearest magnitude) (has_nearest inside)
    else .infinite negative
  | .infinite negative => .infinite negative
  | .nan negative => .nan negative

theorem narrow_of_inside (negative : Bool) {q : ℚ} (fits : IsMagnitude q) (inside : binary32.Inside q) :
    narrow (.finite negative q fits) = .finite negative (binary32.nearest q) (has_nearest inside) := dif_pos inside

theorem narrow_of_not_inside (negative : Bool) {q : ℚ} (fits : IsMagnitude q) (outside : ¬ binary32.Inside q) :
    narrow (.finite negative q fits) = .infinite negative := dif_neg outside

/-- `keyfile_set_float`, in the numeric locale "C". -/
def keyfileSetFloat (self : Keyfile T) (sect key : CString) (value : Single) : Keyfile T × Response :=
  ((keyfileSetString self sect key (snprintf 4096 (printG value.promote))).1, .MCS_OK)

/-- `keyfile_get_float`, which reads a `double`. -/
def keyfileGetFloat (strtod : Strtod) (self : Keyfile T) (sect key : CString) (value : Single) : Response × Single :=
  keyfileGetAs (fun str => narrow (strtod.value str)) self sect key value

/-- `strtod` rounds every decimal text to the nearest value. -/
def RoundsToNearest (strtod : Strtod) : Prop :=
  ∀ (s : CString) (negative : Bool) (q : ℚ), DenotesDecimal s.bytes negative q → strtod.value s = nearest negative q

theorem strtodNearest_rounds : RoundsToNearest strtodNearest := by
  intro s negative q denotes
  show nearest (strtodValue s.bytes).1 (strtodValue s.bytes).2 = nearest negative q
  rw [strtodValue_of_denotes denotes]

/-! ## The readers -/

def readDouble : Reader :=
  .ofNearest binary64 (by decide) id id
    (by
      intro q nonneg
      have least := least_pos binary64
      rw [id, sub_self, abs_zero]
      linarith)
    ⟨-324, by decide +kernel, by decide +kernel⟩

def readSingle : Reader :=
  .ofNearest binary32 (by decide) binary64.nearest (fun _ => nearest_nonneg _)
    (by
      intro q nonneg
      have small : binary64.least / 2 ≤ binary32.least / 1000 := by decide +kernel
      have least := least_pos binary32
      refine (nearest_close binary64 nonneg).trans (max_le ?_ (by linarith))
      refine (div_le_div_of_nonneg_left nonneg (by norm_num) (by decide +kernel : (10 : ℚ) ^ 9 ≤ 2 ^ 53)).trans ?_
      linarith)
    ⟨-45, by decide +kernel, by decide +kernel⟩

/-! ## Six digits do not leave a type -/

theorem inside_rounded {q : ℚ} (fits : IsMagnitude q) : binary64.Inside (rounded q) := by
  have less : q < (2 ^ 53 - 1 / 2) * 2 ^ (971 : Int) := has_lt fits
  have last : ((2 : ℚ) ^ 53 - 1 / 2) * 2 ^ (971 : Int) ≤ ((179769 : Nat) + 1 / 2) * 10 ^ (303 : Int) := by decide +kernel
  have bound := rounded_le (nonneg_of_has fits) (by omega) (by omega) (less.trans_le last)
  exact inside_of_lt (rounded_nonneg q) (bound.trans_lt (by decide +kernel))

theorem inside_rounded_single {q : ℚ} (fits : binary32.Has q) : binary32.Inside (binary64.nearest (rounded q)) := by
  have less : q < (2 ^ 24 - 1 / 2) * 2 ^ (104 : Int) := has_lt fits
  have last : ((2 : ℚ) ^ 24 - 1 / 2) * 2 ^ (104 : Int) ≤ ((340282 : Nat) + 1 / 2) * 10 ^ (33 : Int) := by decide +kernel
  have bound := rounded_le (nonneg_of_has fits) (by omega) (by omega) (less.trans_le last)
  have moved : rounded q / 2 ^ 53 ≤ 10 ^ (31 : Int) :=
    (div_le_div_of_nonneg_right bound (by norm_num)).trans (by decide +kernel)
  have tiny : binary64.least / 2 ≤ 10 ^ (31 : Int) := by decide +kernel
  have off := (nearest_close binary64 (rounded_nonneg q)).trans (max_le moved tiny)
  have total : binary64.nearest (rounded q) ≤ (340282 : Nat) * 10 ^ (33 : Int) + 10 ^ (31 : Int) := by
    have above := (abs_le.mp off).2
    linarith
  exact inside_of_lt (nearest_nonneg _) (total.trans_lt (by decide +kernel))

/-- What a set and a get make of a value is in the type. -/
theorem fits_kept {q : ℚ} (fits : IsMagnitude q) : IsMagnitude (readDouble.read (rounded q)) :=
  has_nearest (inside_rounded fits)

theorem fits_kept_single {q : ℚ} (fits : binary32.Has q) : binary32.Has (readSingle.read (rounded q)) :=
  has_nearest (inside_rounded_single fits)

theorem narrow_nearest (negative : Bool) {q : ℚ} (inside : binary64.Inside q)
    (still : binary32.Inside (binary64.nearest q)) : narrow (nearest negative q) =
      .finite negative (readSingle.read q) (has_nearest still : binary32.Has (readSingle.read q)) := by
  rw [nearest_eq negative inside]
  exact narrow_of_inside negative _ still

/-- A rational that becomes a finite `float` is in both types on the way. -/
theorem magnitude_of_narrow {negative other : Bool} {q x : ℚ} {fits : binary32.Has q}
    (read : narrow (nearest negative x) = .finite other q fits) : negative = other ∧ readSingle.read x = q := by
  by_cases inside : binary64.Inside x
  · rw [nearest_eq negative inside] at read
    by_cases still : binary32.Inside (binary64.nearest x)
    · exact (Single.finite.injEq ..).mp ((narrow_of_inside negative (has_nearest inside) still).symm.trans read)
    · rw [narrow_of_not_inside negative (has_nearest inside) still] at read
      cases read
  · rw [nearest_eq_infinite negative inside] at read
    cases read

/-! ## The digits that are not settled -/

/-- The text of a value says what six digits keep of it, and nothing else. -/
theorem printG_eq_iff (negative : Bool) {q r : ℚ} (fits : IsMagnitude q) (other : IsMagnitude r) :
    printG (.finite negative q fits) = printG (.finite negative r other) ↔ rounded q = rounded r := by
  constructor
  · intro same
    have first := strtodValue_of_denotes (text_finite negative fits)
    have second := strtodValue_of_denotes (text_finite negative other)
    have bytes : (Double.finite negative q fits).text = (Double.finite negative r other).text :=
      congrArg CString.bytes same
    rw [bytes, second] at first
    exact (Prod.mk.inj first).2.symm
  · intro same
    have digits : sixDigits q = sixDigits r := by
      rcases (nonneg_of_has fits).eq_or_lt with zero | positive <;>
        rcases (nonneg_of_has other).eq_or_lt with none | present
      · rw [← zero, ← none]
      · rw [← zero, rounded_zero] at same
        exact absurd same (rounded_pos present).ne
      · rw [← none, rounded_zero] at same
        exact absurd same (rounded_pos positive).ne'
      · exact (sixDigits_eq_iff positive present).mpr same
    ext1
    show signText negative ++ printMagnitude q = signText negative ++ printMagnitude r
    rw [printMagnitude, printMagnitude, digits]

theorem rounded_of_below_gap : rounded (202402 * 2 ^ (-1074 : Int)) = (999999 : Nat) * 10 ^ (-324 : Int) :=
  rounded_eq_of_close (by decide +kernel) (by decide +kernel) (by decide +kernel)

theorem rounded_of_gap : rounded (202403 * 2 ^ (-1074 : Int)) = 10 ^ (-318 : Int) := by
  have digits : rounded (202403 * 2 ^ (-1074 : Int)) = (100000 : Nat) * 10 ^ (-323 : Int) :=
    rounded_eq_of_close (by decide +kernel) (by decide +kernel) (by decide +kernel)
  rw [digits]
  decide +kernel

theorem read_of_gap : readDouble.read (10 ^ (-318 : Int)) = 202402 * 2 ^ (-1074 : Int) :=
  readDouble.certain (k := 202402) (by decide +kernel) (by decide) (by decide +kernel)

/-- Only this magnitude has the digits of the power of ten. -/
theorem eq_of_rounded_gap {k : Nat} (digits : rounded (k * 2 ^ (-1074 : Int)) = 10 ^ (-318 : Int)) : k = 202403 := by
  have least : (0 : ℚ) < 2 ^ (-1074 : Int) := least_pos binary64
  have positive : (0 : ℚ) < k * 2 ^ (-1074 : Int) := by
    refine (mul_nonneg k.cast_nonneg least.le).lt_of_ne fun zero => ?_
    rw [← zero, rounded_zero] at digits
    exact absurd digits (by decide +kernel)
  have unit := le_rounded positive
  have close := abs_le.mp (rounded_close positive.le)
  rw [digits] at unit close
  have lower : (202401 : ℚ) * 2 ^ (-1074 : Int) < 10 ^ (-318 : Int) * (1 - 1 / 2 / 10 ^ 5) := by decide +kernel
  have upper : (10 : ℚ) ^ (-318 : Int) * (1 + 1 / 2 / 10 ^ 5) < 202404 * 2 ^ (-1074 : Int) := by decide +kernel
  have low : (202401 : ℚ) < k := lt_of_mul_lt_mul_right (by linarith) least.le
  have high : (k : ℚ) < 202404 := lt_of_mul_lt_mul_right (by linarith) least.le
  have above : 202401 < k := by exact_mod_cast low
  have below : k < 202404 := by exact_mod_cast high
  have other : k ≠ 202402 := by
    rintro rfl
    have said : rounded (((202402 : Nat) : ℚ) * 2 ^ (-1074 : Int)) = (999999 : Nat) * 10 ^ (-324 : Int) := rounded_of_below_gap
    rw [said] at digits
    exact absurd digits (by decide +kernel)
  omega

theorem rounded_settles_iff {q : ℚ} (fits : IsMagnitude q) :
    rounded (readDouble.read (rounded q)) = rounded q ↔ q ≠ 202403 * 2 ^ (-1074 : Int) := by
  constructor
  · rintro settled rfl
    rw [rounded_of_gap, read_of_gap, rounded_of_below_gap] at settled
    exact absurd settled (by decide +kernel)
  · intro other
    obtain ⟨k, value⟩ := multiple_of_has fits
    refine (readDouble.rounded_read_rounded value).resolve_right ?_
    rintro ⟨e, below, above, digits, _⟩
    have small : (10 : ℚ) ^ e < 10 ^ (-323 : Int) := below.trans_lt (by decide +kernel)
    have large : (10 : ℚ) ^ (-324 : Int) < 10 ^ (e + 1) := lt_of_lt_of_le (by decide +kernel) above
    have exponent : e = -324 := by
      have first := (zpow_lt_zpow_iff_right₀ (by norm_num)).mp small
      have second := (zpow_lt_zpow_iff_right₀ (by norm_num)).mp large
      omega
    rw [exponent, value] at digits
    refine other (value.trans ?_)
    rw [eq_of_rounded_gap digits]
    rfl

theorem rounded_settles_single {q : ℚ} (fits : binary32.Has q) :
    rounded (readSingle.read (rounded q)) = rounded q := by
  obtain ⟨k, value⟩ := multiple_of_has fits
  refine (readSingle.rounded_read_rounded value).resolve_right ?_
  rintro ⟨e, below, above, _, under⟩
  have small : (10 : ℚ) ^ e < 10 ^ (-44 : Int) := below.trans_lt (by decide +kernel)
  have large : (10 : ℚ) ^ (-45 : Int) < 10 ^ (e + 1) := lt_of_lt_of_le (by decide +kernel) above
  have exponent : e = -45 := by
    have first := (zpow_lt_zpow_iff_right₀ (by norm_num)).mp small
    have second := (zpow_lt_zpow_iff_right₀ (by norm_num)).mp large
    omega
  -- The power of ten is read as a value above it.
  have read : readSingle.read (10 ^ (-39 : Int)) = (713624 : Nat) * readSingle.least :=
    readSingle.certain (by decide +kernel) (by decide) (by decide +kernel)
  rw [exponent] at under
  exact absurd (read ▸ under) (by decide +kernel)

/-! ## One set and one get -/

/-- The buffers of both setters hold every text. -/
theorem getString_setDouble (self : Keyfile T) (sect key : CString) (value : Double) (old : Option CString) :
    keyfileGetString (keyfileSetDouble self sect key value).1 sect key old = (.MCS_OK, some (printG value)) := by
  have held : (view (keyfileSetDouble self sect key value).1).get sect key = some (printG value) := by
    rw [keyfileSetDouble, snprintf_printG, view_keyfileSetString]
    exact (Store.get_set _ _ _ _ _ _).trans (if_pos rfl)
  rw [keyfileGetString_eq, held]

theorem getString_setFloat (self : Keyfile T) (sect key : CString) (value : Single) (old : Option CString) :
    keyfileGetString (keyfileSetFloat self sect key value).1 sect key old = (.MCS_OK, some (printG value.promote)) := by
  have held : (view (keyfileSetFloat self sect key value).1).get sect key = some (printG value.promote) := by
    rw [keyfileSetFloat, snprintf_printG, view_keyfileSetString]
    exact (Store.get_set _ _ _ _ _ _).trans (if_pos rfl)
  rw [keyfileGetString_eq, held]

theorem getFloat_setFloat (strtod : Strtod) (self : Keyfile T) (sect key : CString) (value old : Single) :
    keyfileGetFloat strtod (keyfileSetFloat self sect key value).1 sect key old =
      (.MCS_OK, narrow (strtod.value (printG value.promote))) := by
  rw [keyfileGetFloat, keyfileGetAs, getString_setFloat]

section
variable {strtod : Strtod} (rounds : RoundsToNearest strtod)
include rounds

theorem strtod_text (negative : Bool) {q : ℚ} (fits : IsMagnitude q) :
    strtod.value (printG (.finite negative q fits)) = .finite negative (readDouble.read (rounded q)) (fits_kept fits) :=
  (rounds _ _ _ (text_finite negative fits)).trans (nearest_eq negative (inside_rounded fits))

theorem narrow_text (negative : Bool) {q : ℚ} (fits : binary32.Has q) :
    narrow (strtod.value (printG (Single.finite negative q fits).promote)) =
      .finite negative (readSingle.read (rounded q)) (fits_kept_single fits) := by
  rw [Single.promote, strtod_text rounds]
  exact narrow_of_inside negative _ (inside_rounded_single fits)

/-- What is read is what was set, as far as six digits can say it. -/
theorem getDouble_setDouble_finite (self : Keyfile T) (sect key : CString) (negative : Bool) {q : ℚ}
    (fits : IsMagnitude q) (old : Double) :
    keyfileGetDouble strtod (keyfileSetDouble self sect key (.finite negative q fits)).1 sect key old =
      (.MCS_OK, .finite negative (readDouble.read (rounded q)) (fits_kept fits)) := by
  rw [getDouble_setDouble, strtod_text rounds]

/-- The value that is set is read back exactly where it is the value that is read of some
    six digits. -/
theorem setDouble_getDouble_survives_iff (self : Keyfile T) (sect key : CString) (negative : Bool) {q : ℚ}
    (fits : IsMagnitude q) (old : Double) :
    keyfileGetDouble strtod (keyfileSetDouble self sect key (.finite negative q fits)).1 sect key old =
        (.MCS_OK, .finite negative q fits) ↔
      ∃ (m : Nat) (j : Int), m < 10 ^ 6 ∧ nearest negative (m * 10 ^ j) = .finite negative q fits := by
  rw [getDouble_setDouble_finite rounds, Prod.mk.injEq, Double.finite.injEq]
  constructor
  · rintro ⟨_, _, survives⟩
    refine ⟨(sixDigits q).1, (sixDigits q).2 - 5, sixDigits_lt q, ?_⟩
    exact (nearest_eq negative (inside_rounded fits)).trans ((Double.finite.injEq ..).mpr ⟨rfl, survives⟩)
  · rintro ⟨m, j, few, read⟩
    refine ⟨rfl, rfl, readDouble.survives_iff.mpr ⟨m, j, few, ?_⟩⟩
    by_cases inside : binary64.Inside (m * 10 ^ j)
    · exact ((Double.finite.injEq ..).mp ((nearest_eq negative inside).symm.trans read)).2
    · rw [nearest_eq_infinite negative inside] at read
      cases read

theorem getFloat_setFloat_finite (self : Keyfile T) (sect key : CString) (negative : Bool) {q : ℚ}
    (fits : binary32.Has q) (old : Single) :
    keyfileGetFloat strtod (keyfileSetFloat self sect key (.finite negative q fits)).1 sect key old =
      (.MCS_OK, .finite negative (readSingle.read (rounded q)) (fits_kept_single fits)) := by
  rw [getFloat_setFloat, narrow_text rounds negative fits]

/-- So it is with a `float`, though what is read is rounded twice. -/
theorem setFloat_getFloat_survives_iff (self : Keyfile T) (sect key : CString) (negative : Bool) {q : ℚ}
    (fits : binary32.Has q) (old : Single) :
    keyfileGetFloat strtod (keyfileSetFloat self sect key (.finite negative q fits)).1 sect key old =
        (.MCS_OK, .finite negative q fits) ↔
      ∃ (m : Nat) (j : Int), m < 10 ^ 6 ∧ narrow (nearest negative (m * 10 ^ j)) = .finite negative q fits := by
  rw [getFloat_setFloat_finite rounds, Prod.mk.injEq, Single.finite.injEq]
  constructor
  · rintro ⟨_, _, survives⟩
    refine ⟨(sixDigits q).1, (sixDigits q).2 - 5, sixDigits_lt q, ?_⟩
    have path : narrow (nearest negative (rounded q)) = .finite negative (readSingle.read (rounded q)) _ :=
      narrow_nearest negative (inside_rounded (fits_of_single fits)) (inside_rounded_single fits)
    exact path.trans ((Single.finite.injEq ..).mpr ⟨rfl, survives⟩)
  · rintro ⟨m, j, few, read⟩
    exact ⟨rfl, rfl, readSingle.survives_iff.mpr ⟨m, j, few, (magnitude_of_narrow read).2⟩⟩

/-! ## Every later set and get -/

/-- The string that is stored is stored again for what is read of it, but for one
    magnitude. It prints as `1e-318`, and this is read as the magnitude below, which prints
    as `9.99999e-319`. A `float` has no such magnitude. -/
theorem texts_settle_iff (self : Keyfile T) (sect key : CString) :
    (∀ (negative : Bool) (q : ℚ) (fits : IsMagnitude q) (old : Double),
      let first := (keyfileSetDouble self sect key (.finite negative q fits)).1
      let second := (keyfileSetDouble first sect key (keyfileGetDouble strtod first sect key old).2).1
      keyfileGetString second sect key none = keyfileGetString first sect key none ↔
        q ≠ 202403 * 2 ^ (-1074 : Int)) ∧
      ∀ (negative : Bool) (q : ℚ) (fits : binary32.Has q) (old : Single),
        let first := (keyfileSetFloat self sect key (.finite negative q fits)).1
        let second := (keyfileSetFloat first sect key (keyfileGetFloat strtod first sect key old).2).1
        keyfileGetString second sect key none = keyfileGetString first sect key none := by
  constructor
  · intro negative q fits old first second
    have got : (keyfileGetDouble strtod first sect key old).2 = .finite negative (readDouble.read (rounded q)) (fits_kept fits) :=
      congrArg Prod.snd (getDouble_setDouble_finite rounds self sect key negative fits old)
    rw [getString_setDouble, getString_setDouble, got, Prod.mk.injEq, Option.some.injEq, and_iff_right rfl, printG_eq_iff]
    exact rounded_settles_iff fits
  · intro negative q fits old first second
    have got : (keyfileGetFloat strtod first sect key old).2 =
        .finite negative (readSingle.read (rounded q)) (fits_kept_single fits) :=
      congrArg Prod.snd (getFloat_setFloat_finite rounds self sect key negative fits old)
    rw [getString_setFloat, getString_setFloat, got, Prod.mk.injEq, Option.some.injEq, and_iff_right rfl, Single.promote,
      Single.promote, printG_eq_iff]
    exact rounded_settles_single fits

end

/-! ### A tenth, and the exception -/

/-- The `double` nearest to a tenth. -/
theorem fits_tenth : IsMagnitude (3602879701896397 * 2 ^ (-55 : Int)) :=
  ⟨3602879701896397, -55, by decide, by decide, by decide, rfl⟩

theorem setDouble_getDouble_survives_iff_tenth :
    keyfileGetDouble strtodNearest (keyfileSetDouble (keyfileNew : Keyfile (Assoc false CString)) nameA nameA
      (.finite true _ fits_tenth)).1 nameA nameA (.nan false) = (.MCS_OK, .finite true _ fits_tenth) := by
  refine (setDouble_getDouble_survives_iff strtodNearest_rounds _ _ _ _ _ _).mpr ⟨1, -1, by decide, ?_⟩
  rw [nearest_eq true (by decide +kernel)]
  exact (Double.finite.injEq ..).mpr ⟨rfl, by decide +kernel⟩

theorem fits_tenth_single : binary32.Has (13421773 * 2 ^ (-27 : Int)) :=
  ⟨13421773, -27, by decide, by decide, by decide, rfl⟩

theorem setFloat_getFloat_survives_iff_tenth :
    keyfileGetFloat strtodNearest (keyfileSetFloat (keyfileNew : Keyfile (Assoc false CString)) nameA nameA
      (.finite true _ fits_tenth_single)).1 nameA nameA (.nan false) = (.MCS_OK, .finite true _ fits_tenth_single) := by
  refine (setFloat_getFloat_survives_iff strtodNearest_rounds _ _ _ _ _ _).mpr ⟨1, -1, by decide, ?_⟩
  rw [narrow_nearest true (by decide +kernel) (by decide +kernel)]
  exact (Single.finite.injEq ..).mpr ⟨rfl, by decide +kernel⟩

theorem fits_gap : IsMagnitude (202403 * 2 ^ (-1074 : Int)) := ⟨202403, -1074, by decide, by decide, by decide, rfl⟩

theorem texts_settle_iff_gap :
    let first := (keyfileSetDouble (keyfileNew : Keyfile (Assoc false CString)) nameA nameA (.finite false _ fits_gap)).1
    let read := (keyfileGetDouble strtodNearest first nameA nameA (.nan false)).2
    keyfileGetString (keyfileSetDouble first nameA nameA read).1 nameA nameA none ≠ keyfileGetString first nameA nameA none :=
  fun same => ((texts_settle_iff strtodNearest_rounds (keyfileNew : Keyfile (Assoc false CString)) nameA nameA).1 false _
    fits_gap (.nan false)).mp same rfl

end Mcs.Floats
