import Mathlib.Algebra.Order.Floor.Semifield
import Mcs.Floats
import Mcs.Integers

/-!
The functions of the interface for every type of setting. All are stored as texts, so a
setting can be read as another type than it was set, and `Setting.as` says what is read.
Over any number of sessions each read finds the last setting, as far as its text can say
it (`uses_total_correct`). A program that loads a number and stores it again changes it
once at most, however often it does so (`trips_settle`).
-/
namespace Mcs.Settings
open Mcs.Dictionary Mcs.Strings Mcs.Numerals Mcs.Decimals Mcs.Binary64 Mcs.Settling Mcs.Sectioned Mcs.KeyfileModel
open Mcs.Reading Mcs.Format Mcs.RoundTrip Mcs.Files Mcs.Histories Mcs.Backend Mcs.Sessions Mcs.Integers Mcs.Doubles
open Mcs.Floats

variable {T : Type → Type} [Patricia CString T]

/-! ## Booleans -/

/-- `tolower`, in the C locale. -/
def tolower (byte : UInt8) : UInt8 := if 65 ≤ byte ∧ byte ≤ 90 then byte + 32 else byte

/-- The difference where two strings differ first, without regard to case; a string that
    ends has its NUL there. -/
def firstDifference : Bytes → Bytes → Int
  | [], [] => 0
  | [], byte :: _ => -(tolower byte).toNat
  | byte :: _, [] => (tolower byte).toNat
  | left :: s, right :: t =>
    if tolower left = tolower right then firstDifference s t else (tolower left).toNat - (tolower right).toNat

def strcasecmp (s t : CString) : Int := firstDifference s.bytes t.bytes

/-- `keyfile_get_bool`: only the text `TRUE`, in any case, is true. -/
def keyfileGetBool (self : Keyfile T) (sect key : CString) (value : Int32) : Response × Int32 :=
  keyfileGetAs (fun str => if strcasecmp str trueText = 0 then 1 else 0) self sect key value

theorem tolower_ne_zero {byte : UInt8} (nonzero : byte ≠ 0) : (tolower byte).toNat ≠ 0 := by
  unfold tolower
  split
  · rename_i upper
    rw [UInt8.le_iff_toNat_le, UInt8.le_iff_toNat_le] at upper
    have low : 65 ≤ byte.toNat := upper.1
    have high : byte.toNat ≤ 90 := upper.2
    have value : (byte + 32).toNat = (byte.toNat + 32) % 256 := UInt8.toNat_add ..
    omega
  · exact fun zero => nonzero (UInt8.toNat_inj.mp zero)

/-- Strings without difference are the same in lower case. -/
theorem firstDifference_eq_zero_iff {s t : Bytes} (left : 0 ∉ s) (right : 0 ∉ t) :
    firstDifference s t = 0 ↔ s.map tolower = t.map tolower := by
  induction s, t using firstDifference.induct with
  | case1 => simp [firstDifference]
  | case2 byte t =>
    have some := tolower_ne_zero (List.ne_of_not_mem_cons right).symm
    simp [firstDifference, some]
  | case3 byte s =>
    have some := tolower_ne_zero (List.ne_of_not_mem_cons left).symm
    simp [firstDifference, some]
  | case4 first s second t same ih =>
    rw [firstDifference, if_pos same, ih (List.not_mem_of_not_mem_cons left) (List.not_mem_of_not_mem_cons right)]
    simp [same]
  | case5 first s second t differ =>
    have apart : (tolower first).toNat ≠ (tolower second).toNat := fun same => differ (UInt8.toNat_inj.mp same)
    rw [firstDifference, if_neg differ]
    simp only [List.map_cons, List.cons.injEq, differ, false_and, iff_false]
    omega

/-! ## Settings -/

inductive Kind where
  | string
  | int
  | bool
  | float
  | double

/-- What a variable of such a type holds; one for a string may hold none. -/
abbrev Kind.Variable : Kind → Type
  | .string => Option CString
  | .int => Int32
  | .bool => Int32
  | .float => Single
  | .double => Double

/-- The conversions of the C library. -/
structure Conversions where
  atoi : Atoi
  strtod : Strtod
  rounds : RoundsToNearest strtod

/-- What is read where a text is stored. -/
def Kind.read (library : Conversions) : (kind : Kind) → CString → kind.Variable
  | .string, str => some str
  | .int, str => library.atoi.value str
  | .bool, str => if strcasecmp str trueText = 0 then 1 else 0
  | .float, str => narrow (library.strtod.value str)
  | .double, str => library.strtod.value str

inductive Setting where
  | string (value : CString)
  | int (value : Int32)
  | bool (value : Int32)
  | float (value : Single)
  | double (value : Double)

/-- What is stored for a setting. -/
def Setting.text : Setting → CString
  | .string value => value
  | .int value => snprintf 4096 (decimal value.toInt)
  | .bool value => if value ≠ 0 then trueText else falseText
  | .float value => snprintf 4096 (printG value.promote)
  | .double value => snprintf 4096 (printG value)

/-! ## The interface -/

/-- A call of the interface. A read carries what the caller's variable holds before it. -/
inductive Request where
  | get (kind : Kind) (sect key : CString) (value : kind.Variable)
  | set (sect key : CString) (value : Setting)
  | unset (sect key : CString)

/-- What a call returns, and what a read leaves in the caller's variable. -/
structure Answer where
  response : Response
  value : Option (Σ kind : Kind, kind.Variable)

def Answer.ofRead (kind : Kind) (read : Response × kind.Variable) : Answer := ⟨read.1, some ⟨kind, read.2⟩⟩

/-- `keyfile_get_string` to `keyfile_get_double`. -/
def Kind.get (library : Conversions) (self : Keyfile T) (sect key : CString) :
    (kind : Kind) → kind.Variable → Response × kind.Variable
  | .string => keyfileGetString self sect key
  | .int => keyfileGetInt library.atoi self sect key
  | .bool => keyfileGetBool self sect key
  | .float => keyfileGetFloat library.strtod self sect key
  | .double => keyfileGetDouble library.strtod self sect key

/-- `keyfile_set_string` to `keyfile_set_double`. -/
def Setting.set (self : Keyfile T) (sect key : CString) : Setting → Keyfile T × Response
  | .string value => keyfileSetString self sect key value
  | .int value => keyfileSetInt self sect key value
  | .bool value => keyfileSetBool self sect key value
  | .float value => keyfileSetFloat self sect key value
  | .double value => keyfileSetDouble self sect key value

/-- The functions `mcs_keyfile_get_string` to `mcs_keyfile_unset_key`. -/
def Request.perform (library : Conversions) (request : Request) (self : Handle T) : Handle T × Answer :=
  match request with
  | .get kind sect key value => (self, .ofRead kind (kind.get library self.kf sect key value))
  | .set sect key value => ({ self with kf := (value.set self.kf sect key).1 }, ⟨(value.set self.kf sect key).2, none⟩)
  | .unset sect key =>
    ({ self with kf := (keyfileUnsetKey self.kf sect key).1 }, ⟨(keyfileUnsetKey self.kf sect key).2, none⟩)

/-- A read converts the text of the entry, or leaves the variable alone. -/
theorem get_eq (library : Conversions) (kind : Kind) (self : Keyfile T) (sect key : CString) (value : kind.Variable) :
    kind.get library self sect key value =
      match (view self).get sect key with
      | some str => (.MCS_OK, kind.read library str)
      | none => (.MCS_FAIL, value) := by
  cases kind with
  | string => exact keyfileGetString_eq self sect key value
  | int => exact keyfileGetAs_eq _ self sect key value
  | bool => exact keyfileGetAs_eq _ self sect key value
  | float => exact keyfileGetAs_eq _ self sect key value
  | double => exact keyfileGetAs_eq _ self sect key value

/-- A set stores the text of the setting, and reports success. -/
theorem set_eq (self : Keyfile T) (sect key : CString) (value : Setting) :
    value.set self sect key = ((keyfileSetString self sect key value.text).1, .MCS_OK) := by
  cases value with
  | bool value =>
    rw [Setting.set, keyfileSetBool, Setting.text]
    split <;> rfl
  | _ => rfl

/-! ## Integers of decimal texts -/

theorem numeric_lt {digits : Bytes} (all : Digits digits) : numeric digits < 10 ^ digits.length := by
  induction digits using List.reverseRecOn with
  | nil => rw [numeric_nil, List.length_nil, pow_zero]; exact Nat.one_pos
  | append_singleton front byte ih =>
    have before := ih fun byte member => all byte (List.mem_append_left _ member)
    have digit := (all byte (by simp)).2
    rw [numeric_concat, List.length_append, List.length_singleton, pow_succ]
    omega

/-- The first digits of a padded number. -/
theorem numeric_take_padded {width n : Nat} (positive : 0 < width) (small : n < 10 ^ width) (count : Nat) :
    numeric ((padded width n).take count) = n / 10 ^ (width - count) := by
  have length := length_padded positive small
  have worth := numeric_append ((padded width n).take count) ((padded width n).drop count)
  have rest : numeric ((padded width n).drop count) < 10 ^ (width - count) := by
    have bound : numeric ((padded width n).drop count) < 10 ^ ((padded width n).drop count).length :=
      numeric_lt fun byte member => digits_padded width n byte (List.mem_of_mem_drop member)
    rwa [List.length_drop, length] at bound
  rw [List.take_append_drop, numeric_padded, List.length_drop, length] at worth
  generalize numeric ((padded width n).take count) = first at worth ⊢
  rw [worth, Nat.mul_comm, Nat.mul_add_div (Nat.pow_pos (by omega)), Nat.div_eq_of_lt rest, Nat.add_zero]

/-- Digits are read up to the point or the exponent. -/
theorem takeWhile_pointed {whole fraction scale : Bytes} (all : Digits whole)
    (ends : ∀ byte, scale.head? = some byte → ¬ IsDigit byte) :
    (pointed whole fraction ++ scale).takeWhile (fun byte => IsDigit byte) = whole := by
  unfold pointed
  split
  · exact (takeWhile_digits all ends).1
  · rw [List.append_assoc]
    refine (takeWhile_digits all fun byte first => ?_).1
    cases first
    decide

theorem takeWhile_pointed_end {whole : Bytes} (fraction : Bytes) (all : Digits whole) :
    (pointed whole fraction).takeWhile (fun byte => IsDigit byte) = whole := by
  have read : (pointed whole fraction ++ []).takeWhile (fun byte => IsDigit byte) = whole :=
    takeWhile_pointed all fun byte first => by cases first
  rwa [List.append_nil] at read

/-- The integer that `atoi` reads of a printed magnitude: the digits before the point.
    Where an exponent is printed there is only one. -/
def leading (q : ℚ) : Nat :=
  let (digits, exponent) := sixDigits q
  if exponent < -4 ∨ 6 ≤ exponent then digits / 10 ^ 5
  else if 0 ≤ exponent then digits / 10 ^ (5 - exponent.toNat)
  else 0

theorem leading_eq (q : ℚ) : leading q =
    if (sixDigits q).2 < -4 ∨ 6 ≤ (sixDigits q).2 then (sixDigits q).1 / 10 ^ 5
    else if 0 ≤ (sixDigits q).2 then (sixDigits q).1 / 10 ^ (5 - (sixDigits q).2.toNat)
    else 0 := by
  unfold leading
  rcases sixDigits q with ⟨digits, exponent⟩
  rfl

theorem numeric_printMagnitude (q : ℚ) :
    numeric ((printMagnitude q).takeWhile fun byte => IsDigit byte) = leading q := by
  unfold printMagnitude leading
  have few := sixDigits_lt q
  revert few
  rcases sixDigits q with ⟨digits, exponent⟩
  intro few
  have front : ∀ count, Digits ((padded 6 digits).take count) := fun count byte member =>
    digits_padded 6 digits byte (List.mem_of_mem_take member)
  dsimp only
  split
  · rw [takeWhile_pointed (front 1), numeric_take_padded (by omega) few]
    intro byte first
    cases first
    decide
  · split
    · rw [takeWhile_pointed_end _ (front (exponent.toNat + 1)), numeric_take_padded (by omega) few]
      congr 2
      omega
    · rw [takeWhile_pointed_end _ (by decide : Digits [zeroDigit])]
      rfl

theorem leading_lt (q : ℚ) : leading q < 10 ^ 6 := by
  unfold leading
  have few := sixDigits_lt q
  revert few
  rcases sixDigits q with ⟨digits, exponent⟩
  intro few
  dsimp only at few ⊢
  split
  · exact (Nat.div_le_self _ _).trans_lt few
  · split
    · exact (Nat.div_le_self _ _).trans_lt few
    · omega

def signed (negative : Bool) (n : Int) : Int := if negative then -n else n

theorem strtolValue_text (negative : Bool) {q : ℚ} (fits : IsMagnitude q) :
    strtolValue (Double.finite negative q fits).text = signed negative (leading q) := by
  obtain ⟨byte, rest, split, digit⟩ := unsigned_head (unsigned_printMagnitude q)
  have worth := numeric_printMagnitude q
  rw [split] at worth
  obtain ⟨noSpace, noMinus, noPlus⟩ := digit_plain digit
  rw [Double.text, split]
  cases negative with
  | false =>
    show strtolValue (byte :: rest) = _
    rw [strtolValue, List.dropWhile_cons_of_neg (by simpa using noSpace)]
    simp only [noMinus, noPlus, ↓reduceIte]
    rw [worth]
    rfl
  | true =>
    show strtolValue (minusSign :: byte :: rest) = _
    rw [strtolValue, List.dropWhile_cons_of_neg (by simpa using signs_plain.1.1)]
    simp only [↓reduceIte]
    rw [worth]
    rfl

theorem atoi_printG (atoi : Atoi) (negative : Bool) {q : ℚ} (fits : IsMagnitude q) :
    (atoi.value (printG (.finite negative q fits))).toInt = signed negative (leading q) := by
  have text : strtolValue (printG (.finite negative q fits)).bytes = signed negative (leading q) :=
    strtolValue_text negative fits
  have small := leading_lt q
  rw [atoi.exact _ (by rw [text]; unfold signed InRange; split <;> omega), text]

theorem power_le_rounded_iff {q : ℚ} (positive : 0 < q) (e : Int) :
    (10 : ℚ) ^ e ≤ rounded q ↔ e ≤ (sixDigits q).2 := by
  rw [← log_rounded positive]
  exact Int.zpow_le_iff_le_log (by omega : 1 < 10) (rounded_pos positive)

theorem rounded_lt_power_iff {q : ℚ} (positive : 0 < q) (e : Int) :
    rounded q < (10 : ℚ) ^ e ↔ (sixDigits q).2 < e := by
  rw [← log_rounded positive]
  exact Int.lt_zpow_iff_log_lt (by omega : 1 < 10) (rounded_pos positive)

/-- No exponent is printed of zero and between those powers of ten. -/
theorem unscaled_iff {q : ℚ} (positive : 0 < q) :
    rounded q = 0 ∨ (10 ^ (-4 : Int) ≤ rounded q ∧ rounded q < 10 ^ (6 : Int)) ↔
      ¬ ((sixDigits q).2 < -4 ∨ 6 ≤ (sixDigits q).2) := by
  rw [power_le_rounded_iff positive, rounded_lt_power_iff positive, or_iff_right (rounded_pos positive).ne']
  omega

/-- Where an exponent is printed, what is read is the first digit. -/
theorem leading_first {q : ℚ} (positive : 0 < q) (scaled : (sixDigits q).2 < -4 ∨ 6 ≤ (sixDigits q).2) :
    1 ≤ leading q ∧ leading q ≤ 9 ∧ leading q * (10 : ℚ) ^ (sixDigits q).2 ≤ rounded q ∧
      rounded q < (leading q + 1) * (10 : ℚ) ^ (sixDigits q).2 := by
  have low := le_sixDigits positive
  have high := sixDigits_lt q
  have first : leading q = (sixDigits q).1 / 10 ^ 5 := (leading_eq q).trans (if_pos scaled)
  have below : leading q * 10 ^ 5 ≤ (sixDigits q).1 := by omega
  have above : (sixDigits q).1 < (leading q + 1) * 10 ^ 5 := by omega
  have unit := ten_power_pos ((sixDigits q).2 - 5)
  have split : (10 : ℚ) ^ (sixDigits q).2 = 10 ^ 5 * 10 ^ ((sixDigits q).2 - 5) := by
    rw [← zpow_natCast, ← zpow_add₀ (by norm_num)]
    congr 1
    omega
  refine ⟨by omega, by omega, ?_, ?_⟩
  · rw [split, ← mul_assoc]
    exact mul_le_mul_of_nonneg_right (by exact_mod_cast below) unit.le
  · rw [split, ← mul_assoc]
    exact mul_lt_mul_of_pos_right (by exact_mod_cast above) unit

theorem exponentMark_mem {q : ℚ} (scaled : (sixDigits q).2 < -4 ∨ 6 ≤ (sixDigits q).2) :
    exponentMark ∈ printMagnitude q := by
  unfold printMagnitude
  revert scaled
  rcases sixDigits q with ⟨digits, exponent⟩
  intro scaled
  dsimp only at scaled ⊢
  rw [if_pos scaled]
  exact List.mem_append_right _ List.mem_cons_self

/-- The digits before the point are those of the number, unless an exponent is printed. -/
theorem leading_eq_floor_iff {q : ℚ} (nonneg : 0 ≤ q) :
    leading q = ⌊rounded q⌋₊ ↔ rounded q = 0 ∨ (10 ^ (-4 : Int) ≤ rounded q ∧ rounded q < 10 ^ (6 : Int)) := by
  rcases nonneg.eq_or_lt with zero | positive
  · have none : leading 0 = 0 := by decide +kernel
    rw [← zero, rounded_zero, none, Nat.floor_zero]
    exact iff_of_true rfl (.inl rfl)
  rw [unscaled_iff positive]
  have low := le_sixDigits positive
  have high := sixDigits_lt q
  have value : rounded q = (sixDigits q).1 * 10 ^ ((sixDigits q).2 - 5) := rfl
  rw [leading_eq]
  by_cases scaled : (sixDigits q).2 < -4 ∨ 6 ≤ (sixDigits q).2
  · rw [if_pos scaled]
    refine iff_of_false ?_ (by omega)
    rcases scaled with small | large
    · have below : rounded q < (10 : ℚ) ^ (0 : Int) := (rounded_lt_power_iff positive 0).mpr (by omega)
      rw [zpow_zero] at below
      rw [Nat.floor_eq_zero.mpr below]
      omega
    · have above : (10 : ℚ) ^ (6 : Int) ≤ rounded q := (power_le_rounded_iff positive 6).mpr large
      have floor : 10 ^ 6 ≤ ⌊rounded q⌋₊ := Nat.le_floor (by exact_mod_cast above)
      omega
  · rw [if_neg scaled]
    refine iff_of_true ?_ (by omega)
    split
    · rename_i natural
      have power : rounded q = ((sixDigits q).1 : ℚ) / ((10 ^ (5 - (sixDigits q).2.toNat) : Nat) : ℚ) := by
        rw [value, div_eq_mul_inv, Nat.cast_pow, ← zpow_natCast, ← zpow_neg]
        congr 2
        omega
      rw [power, Nat.floor_div_eq_div]
    · rename_i negative
      have below : rounded q < (10 : ℚ) ^ (0 : Int) := (rounded_lt_power_iff positive 0).mpr (by omega)
      rw [zpow_zero] at below
      exact (Nat.floor_eq_zero.mpr below).symm

/-- An integer is read of a `double` exactly where no exponent is printed; elsewhere its
    first digit is. -/
theorem setDouble_getInt_iff (atoi : Atoi) (self : Keyfile T) (sect key : CString) (negative : Bool) {q : ℚ}
    (fits : IsMagnitude q) (old : Int32) :
    ((∃ n : Int32, keyfileGetInt atoi (keyfileSetDouble self sect key (.finite negative q fits)).1 sect key old =
        (.MCS_OK, n) ∧ n.toInt = signed negative ⌊rounded q⌋₊) ↔
      rounded q = 0 ∨ (10 ^ (-4 : Int) ≤ rounded q ∧ rounded q < 10 ^ (6 : Int))) ∧
    (¬ (rounded q = 0 ∨ (10 ^ (-4 : Int) ≤ rounded q ∧ rounded q < 10 ^ (6 : Int))) →
      (∃ text, (view (keyfileSetDouble self sect key (.finite negative q fits)).1).get sect key = some text ∧
        exponentMark ∈ text.bytes) ∧
      ∃ (n : Int32) (digit : Nat) (exponent : Int),
        keyfileGetInt atoi (keyfileSetDouble self sect key (.finite negative q fits)).1 sect key old = (.MCS_OK, n) ∧
        n.toInt = signed negative digit ∧ 1 ≤ digit ∧ digit ≤ 9 ∧
        digit * (10 : ℚ) ^ exponent ≤ rounded q ∧ rounded q < (digit + 1) * (10 : ℚ) ^ exponent) := by
  have held : (view (keyfileSetDouble self sect key (.finite negative q fits)).1).get sect key =
      some (printG (.finite negative q fits)) := by
    rw [keyfileSetDouble, snprintf_printG, view_keyfileSetString]
    exact (Store.get_set _ _ _ _ _ _).trans (if_pos rfl)
  have read : keyfileGetInt atoi (keyfileSetDouble self sect key (.finite negative q fits)).1 sect key old =
      (.MCS_OK, atoi.value (printG (.finite negative q fits))) := by rw [keyfileGetInt, keyfileGetAs_eq, held]
  constructor
  · rw [read, ← leading_eq_floor_iff (Precisions.nonneg_of_has fits)]
    constructor
    · rintro ⟨n, same, value⟩
      cases same
      rw [atoi_printG] at value
      unfold signed at value
      split at value <;> omega
    · intro same
      exact ⟨_, rfl, by rw [atoi_printG, same]⟩
  · intro outside
    have positive : 0 < q := by
      refine (Precisions.nonneg_of_has fits).lt_of_ne ?_
      rintro rfl
      exact outside (.inl rounded_zero)
    have scaled := not_not.mp fun unscaled => outside ((unscaled_iff positive).mpr unscaled)
    obtain ⟨one, nine, below, above⟩ := leading_first positive scaled
    refine ⟨⟨_, held, List.mem_append_right _ (exponentMark_mem scaled)⟩, ?_⟩
    exact ⟨_, leading q, (sixDigits q).2, read, atoi_printG atoi negative fits, one, nine, below, above⟩

/-- The magnitude 1234.5. -/
theorem fits_half : IsMagnitude (2469 * 2 ^ (-1 : Int)) := ⟨2469, -1, by decide, by decide, by decide, rfl⟩

theorem setDouble_getInt_iff_half :
    ∃ n : Int32, keyfileGetInt atoiOfLong (keyfileSetDouble (keyfileNew : Keyfile (Assoc false CString)) nameA nameA
      (.finite true _ fits_half)).1 nameA nameA 0 = (.MCS_OK, n) ∧ n.toInt = -1234 := by
  have value : signed true ⌊rounded (2469 * 2 ^ (-1 : Int))⌋₊ = -1234 := by decide +kernel
  rw [← value]
  exact (setDouble_getInt_iff atoiOfLong _ _ _ _ fits_half 0).1.mpr (.inr ⟨by decide +kernel, by decide +kernel⟩)

/-! ## What is read of a setting -/

theorem small_toInt (value : Int32) : value.toInt.natAbs ≤ 2 ^ 53 := by
  have range := inRange_toInt value
  unfold InRange at range
  omega

/-- What is read of a setting, as a setting of each type. -/
def Setting.as (library : Conversions) : Setting → (kind : Kind) → kind.Variable
  | .int value, .int => value
  | .bool _, .int => 0
  | .float (.finite negative magnitude _), .int => Int32.ofInt (signed negative (leading magnitude))
  | .double (.finite negative magnitude _), .int => Int32.ofInt (signed negative (leading magnitude))
  | .int _, .bool => 0
  | .bool value, .bool => if value ≠ 0 then 1 else 0
  | .float _, .bool => 0
  | .double _, .bool => 0
  | .int value, .float => narrow (.ofInt value.toInt (small_toInt value))
  | .float (.finite negative _ fits), .float => .finite negative _ (fits_kept_single fits)
  | .int value, .double => .ofInt value.toInt (small_toInt value)
  | .float (.finite negative _ fits), .double => .finite negative _ (fits_kept (fits_of_single fits))
  | .double (.finite negative _ fits), .float => narrow (.finite negative _ (fits_kept fits))
  | .double (.finite negative _ fits), .double => .finite negative _ (fits_kept fits)
  | setting, kind => kind.read library setting.text

theorem text_int (value : Int32) : Setting.text (.int value) = decimal value.toInt := snprintf_decimal value

theorem text_float (value : Single) : Setting.text (.float value) = printG value.promote := snprintf_printG _

theorem text_double (value : Double) : Setting.text (.double value) = printG value := snprintf_printG value

/-- The text of an integer is a decimal text of the integer. -/
theorem denotesDecimal_decimal (n : Int) : DenotesDecimal (decimal n).bytes (decide (n < 0)) n.natAbs := by
  have unsigned : Unsigned (digitBytes n.natAbs) n.natAbs := by
    refine ⟨digitBytes n.natAbs, [], [], [], 0, by simp, digits_digitBytes _, ?_, fun _ member => (by cases member),
      .inr ⟨rfl, rfl⟩, .inl ⟨rfl, rfl⟩, ?_⟩
    · exact fun nothing => Nat.toDigits_ne_nil (List.map_eq_nil_iff.mp nothing)
    · rw [List.append_nil, numeric_digitBytes]
      simp
  refine ⟨_, unsigned, ?_⟩
  by_cases negative : n < 0
  · exact .inr ⟨decide_eq_true negative, by simp only [decimal, negative, ↓reduceIte]; rfl⟩
  · exact .inl ⟨decide_eq_false negative, .inl (by simp only [decimal, negative, ↓reduceIte]; rfl)⟩

theorem strtod_decimal (strtod : Strtod) {n : Int} (small : n.natAbs ≤ 2 ^ 53) :
    strtod.value (decimal n) = .ofInt n small :=
  strtod.exact _ _ _ _ (denotesDecimal_decimal n)

/-- A text is not `TRUE`, in any case, if it begins like a number. -/
theorem strcasecmp_ne_zero {s : CString} {byte : UInt8} {rest : Bytes} (split : s.bytes = byte :: rest)
    (plain : tolower byte ≠ 116) : strcasecmp s trueText ≠ 0 := by
  rw [strcasecmp, Ne, firstDifference_eq_zero_iff s.noNul trueText.noNul, split, List.map_cons]
  exact fun same => plain (List.cons.inj same).1

theorem tolower_digit {byte : UInt8} (digit : IsDigit byte) : tolower byte = byte := by
  unfold tolower
  refine if_neg fun upper => ?_
  have low : 65 ≤ byte.toNat := upper.1
  have high := digit.2
  omega

theorem decimal_ne_true {s : CString} {negative : Bool} {q : ℚ} (denotes : DenotesDecimal s.bytes negative q) :
    strcasecmp s trueText ≠ 0 := by
  obtain ⟨text, unsigned, ⟨_, same | same⟩ | ⟨_, same⟩⟩ := denotes
  · obtain ⟨byte, rest, rfl, digit⟩ := unsigned_head unsigned
    refine strcasecmp_ne_zero same ?_
    rw [tolower_digit digit]
    rintro rfl
    exact absurd digit (by decide)
  · exact strcasecmp_ne_zero same (by decide)
  · exact strcasecmp_ne_zero same (by decide)

theorem printG_ne_true (value : Double) : strcasecmp (printG value) trueText ≠ 0 := by
  cases value with
  | finite negative magnitude fits => exact decimal_ne_true (text_finite negative fits)
  | infinite negative => cases negative <;> decide
  | nan negative => cases negative <;> decide

theorem atoi_bool (atoi : Atoi) (value : Int32) : atoi.value (Setting.text (.bool value)) = 0 := by
  have nothing : strtolValue (Setting.text (.bool value)).bytes = 0 := by
    rw [Setting.text]
    split <;> decide
  have exact := atoi.exact (Setting.text (.bool value)) (by rw [nothing]; decide)
  rw [nothing] at exact
  exact Int32.toInt_inj.mp exact

theorem atoi_double (atoi : Atoi) (negative : Bool) {q : ℚ} (fits : IsMagnitude q) :
    atoi.value (printG (.finite negative q fits)) = Int32.ofInt (signed negative (leading q)) := by
  rw [← atoi_printG atoi negative fits, Int32.ofInt_toInt]

/-- What is stored for a setting is read as it should be, whatever it is read as. -/
theorem read_text (library : Conversions) (setting : Setting) (kind : Kind) :
    kind.read library setting.text = setting.as library kind := by
  cases setting with
  | string value => cases kind <;> rfl
  | int value =>
    cases kind with
    | string => rfl
    | int => rw [text_int]; exact atoi_decimal library.atoi value
    | bool => rw [text_int]; exact if_neg (decimal_ne_true (denotesDecimal_decimal value.toInt))
    | float => rw [text_int]; exact congrArg narrow (strtod_decimal library.strtod (small_toInt value))
    | double => rw [text_int]; exact strtod_decimal library.strtod (small_toInt value)
  | bool value =>
    cases kind with
    | int => exact atoi_bool library.atoi value
    | bool =>
      by_cases truth : value ≠ 0
      · have said : Setting.text (.bool value) = trueText := if_pos truth
        rw [said]
        exact (if_pos truth).symm
      · have said : Setting.text (.bool value) = falseText := if_neg truth
        rw [said]
        exact (if_neg truth).symm
    | _ => rfl
  | float value =>
    cases value with
    | finite negative magnitude fits =>
      cases kind with
      | string => rfl
      | int => rw [text_float]; exact atoi_double library.atoi negative (fits_of_single fits)
      | bool => rw [text_float]; exact if_neg (printG_ne_true _)
      | float => rw [text_float]; exact narrow_text library.rounds negative fits
      | double => rw [text_float]; exact strtod_text library.rounds negative (fits_of_single fits)
    | infinite negative =>
      cases kind with
      | bool => rw [text_float]; exact if_neg (printG_ne_true _)
      | _ => rfl
    | nan negative =>
      cases kind with
      | bool => rw [text_float]; exact if_neg (printG_ne_true _)
      | _ => rfl
  | double value =>
    cases value with
    | finite negative magnitude fits =>
      cases kind with
      | int => rw [text_double]; exact atoi_double library.atoi negative fits
      | bool => rw [text_double]; exact if_neg (printG_ne_true _)
      | float => rw [text_double]; exact congrArg narrow (strtod_text library.rounds negative fits)
      | double => rw [text_double]; exact strtod_text library.rounds negative fits
      | _ => rfl
    | infinite negative =>
      cases kind with
      | bool => rw [text_double]; exact if_neg (printG_ne_true _)
      | _ => rfl
    | nan negative =>
      cases kind with
      | bool => rw [text_double]; exact if_neg (printG_ne_true _)
      | _ => rfl

/-! ## Sessions -/

/-- The calls of one session, and the world in which it ends. -/
structure Use where
  requests : List Request
  world : World

def performRequests (library : Conversions) (self : Handle T) : List Request → Handle T × List Answer
  | [] => (self, [])
  | request :: rest =>
    ((performRequests library (request.perform library self).1 rest).1,
      (request.perform library self).2 :: (performRequests library (request.perform library self).1 rest).2)

/-- The disk after a session, and the answers in it. -/
def Use.run (T : Type → Type) [Patricia CString T] (library : Conversions) (env : Environment) (domain : CString)
    (use : Use) (disk : Disk CString) : Option (Disk CString × List Answer) :=
  (mcsKeyfileNew env domain disk).map fun (self : Handle T) =>
    (saved (performRequests library self use.requests).1 use.world disk, (performRequests library self use.requests).2)

def runUses (T : Type → Type) [Patricia CString T] (library : Conversions) (env : Environment) (domain : CString) :
    List Use → Disk CString → Option (Disk CString × List Answer)
  | [], disk => some (disk, [])
  | use :: rest, disk =>
    (use.run T library env domain disk).bind fun done =>
      (runUses T library env domain rest done.1).map fun last => (last.1, done.2 ++ last.2)

/-- The entry that a call writes, and the setting that it leaves there. -/
def Request.change : Request → Option ((CString × CString) × Option Setting)
  | .get _ _ _ _ => none
  | .set sect key value => some ((sect, key), some value)
  | .unset sect key => some ((sect, key), none)

def changes (requests : List Request) : List ((CString × CString) × Option Setting) := requests.filterMap Request.change

/-- The answer that is due after some calls. -/
def Request.answer (library : Conversions) (past : List Request) : Request → Answer
  | .get kind sect key value =>
    match (latest (sect, key) (changes past)).join with
    | some setting => ⟨.MCS_OK, some ⟨kind, setting.as library kind⟩⟩
    | none => ⟨.MCS_FAIL, some ⟨kind, value⟩⟩
  | _ => ⟨.MCS_OK, none⟩

def answers (library : Conversions) (past : List Request) : List Request → List Answer
  | [] => []
  | request :: rest => request.answer library past :: answers library (past ++ [request]) rest

theorem answers_append (library : Conversions) (past first second : List Request) :
    answers library past (first ++ second) = answers library past first ++ answers library (past ++ first) second := by
  induction first generalizing past with
  | nil => simp [answers]
  | cons request first ih => simp [answers, ih]

/-- The format can carry what the call writes. -/
def Request.Ok (request : Request) : Prop :=
  ∀ sect key setting, request.change = some ((sect, key), some setting) → SectionOk sect ∧ EntryOk key setting.text

/-! ### As operations on texts -/

/-- What a call does to the texts. -/
def Request.op : Request → Op
  | .get _ sect key _ => .getString sect key none
  | .set sect key value => .setString sect key value.text
  | .unset sect key => .unsetKey sect key

theorem perform_op (library : Conversions) (request : Request) (self : Handle T) :
    (request.perform library self).1 = (request.op.perform self).1 := by
  cases request with
  | get kind sect key value => rfl
  | set sect key value =>
    show ({ self with kf := (value.set self.kf sect key).1 } : Handle T) = _
    rw [set_eq]
    rfl
  | unset sect key => rfl

theorem performRequests_ops (library : Conversions) (requests : List Request) (self : Handle T) :
    (performRequests library self requests).1 = (performAll self (requests.map Request.op)).1 := by
  induction requests generalizing self with
  | nil => rfl
  | cons request rest ih => rw [performRequests, List.map_cons, performAll, ih, perform_op]

theorem ok_op {request : Request} (ok : request.Ok) : request.op.Ok := by
  intro sect key value writes
  cases request with
  | get kind _ _ _ => cases writes
  | set _ _ setting =>
    cases writes
    exact ok sect key setting rfl
  | unset _ _ => cases writes

/-- The texts that are written are those of the settings. -/
theorem writes_ops (requests : List Request) :
    writes (requests.map Request.op) = (changes requests).map fun change => (change.1, change.2.map Setting.text) := by
  induction requests with
  | nil => rfl
  | cons request rest ih =>
    cases request with
    | get kind sect key value => exact ih
    | set sect key value => exact congrArg (List.cons _) ih
    | unset sect key => exact congrArg (List.cons _) ih

/-! ### Every read finds the last setting -/

/-- The answer is the one due, where the handle holds what the past wrote. -/
theorem perform_answer (library : Conversions) {past : List Request} (request : Request) {self : Handle T}
    (held : entries (view self.kf) = replay (fun _ => none) (writes (past.map Request.op))) :
    (request.perform library self).2 = request.answer library past := by
  cases request with
  | get kind sect key value =>
    have found : (view self.kf).get sect key = (latest (sect, key) (changes past)).join.map Setting.text := by
      have same := congrFun held (sect, key)
      rw [replay_eq, writes_ops, latest_map] at same
      refine same.trans ?_
      cases latest (sect, key) (changes past) with
      | none => rfl
      | some left => cases left <;> rfl
    show Answer.ofRead kind (kind.get library self.kf sect key value) = _
    rw [get_eq, found, Request.answer]
    cases (latest (sect, key) (changes past)).join with
    | none => rfl
    | some setting =>
      show Answer.ofRead kind (.MCS_OK, kind.read library setting.text) =
        ⟨.MCS_OK, some ⟨kind, setting.as library kind⟩⟩
      rw [read_text]
      rfl
  | set sect key value =>
    show (⟨(value.set self.kf sect key).2, none⟩ : Answer) = _
    rw [set_eq]
    rfl
  | unset sect key =>
    show (⟨(keyfileUnsetKey self.kf sect key).2, none⟩ : Answer) = _
    unfold keyfileUnsetKey
    split <;> rfl

theorem performRequests_answers (library : Conversions) {past requests : List Request}
    (ok : ∀ request ∈ requests, request.Ok) {self : Handle T} (current : Current (past.map Request.op) (view self.kf)) :
    (performRequests library self requests).2 = answers library past requests := by
  induction requests generalizing past self with
  | nil => rfl
  | cons request rest ih =>
    have next : Current ((past ++ [request]).map Request.op) (view (request.perform library self).1.kf) := by
      have fine : ∀ op ∈ [request.op], op.Ok := fun op member =>
        List.mem_singleton.mp member ▸ ok_op (ok request List.mem_cons_self)
      obtain ⟨after, executed, _, correct⟩ := performAll_total_correct fine current
      rw [perform_op, List.map_append]
      have same : (request.op.perform self).1 = after := congrArg Prod.fst executed
      rw [same]
      exact correct
    rw [performRequests, answers, perform_answer library request current.entries,
      ih (fun request member => ok request (List.mem_cons_of_mem _ member)) next]

variable {env : Environment} {domain loc : CString}

theorem use_total_correct (library : Conversions) (path : configPath env domain = some loc) (room : Room loc)
    {past : List Request} {use : Use} (fine : use.world.Fine) (ok : ∀ request ∈ use.requests, request.Ok)
    {disk : Disk CString} (current : Current (past.map Request.op) (loadFile (disk.content loc))) :
    ∃ after, use.run T library env domain disk = some (after, answers library past use.requests) ∧
      Current ((past ++ use.requests).map Request.op) (loadFile (after.content loc)) := by
  obtain ⟨self, opened, _, loaded⟩ := mcsKeyfileNew_total_correct (T := T) path disk
  let session : Session := ⟨use.requests.map Request.op, use.world⟩
  have texts : ∀ op ∈ session.ops, op.Ok := by
    intro op member
    obtain ⟨request, inUse, rfl⟩ := List.mem_map.mp member
    exact ok_op (ok request inUse)
  obtain ⟨after, executed, correct⟩ : ∃ after, session.run T env domain disk = some (after, _) ∧ _ :=
    session_total_correct path room fine texts current
  rw [Session.run, opened, Option.map_some, Option.some.injEq, Prod.mk.injEq] at executed
  rw [← loaded] at current
  refine ⟨after, ?_, by rw [List.map_append]; exact correct⟩
  rw [Use.run, opened, Option.map_some, performRequests_ops, executed.1, performRequests_answers library ok current]

theorem runUses_total_correct (library : Conversions) (path : configPath env domain = some loc) (room : Room loc)
    {past : List Request} {uses : List Use} (fine : ∀ use ∈ uses, use.world.Fine)
    (ok : ∀ use ∈ uses, ∀ request ∈ use.requests, request.Ok) {disk : Disk CString}
    (current : Current (past.map Request.op) (loadFile (disk.content loc))) :
    ∃ after, runUses T library env domain uses disk = some (after, answers library past (uses.flatMap Use.requests)) := by
  induction uses generalizing past disk with
  | nil => exact ⟨disk, rfl⟩
  | cons use rest ih =>
    obtain ⟨middle, executed, next⟩ := use_total_correct (T := T) library path room (fine use List.mem_cons_self)
      (ok use List.mem_cons_self) current
    obtain ⟨after, run⟩ := ih (fun use member => fine use (List.mem_cons_of_mem _ member))
      (fun use member => ok use (List.mem_cons_of_mem _ member)) next
    refine ⟨after, ?_⟩
    rw [runUses, executed, Option.bind_some, run, Option.map_some, List.flatMap_cons, answers_append]

/-- Over any number of sessions, each read of a setting, as whatever type, gives what is
    read of the last setting of the entry, in this session or an earlier one. -/
theorem uses_total_correct (library : Conversions) (path : configPath env domain = some loc) (room : Room loc)
    (disk : Disk CString) (absent : disk.content loc = none) (uses : List Use) (fine : ∀ use ∈ uses, use.world.Fine)
    (ok : ∀ use ∈ uses, ∀ request ∈ use.requests, request.Ok) :
    ∃ after, runUses T library env domain uses disk = some (after, answers library [] (uses.flatMap Use.requests)) := by
  apply runUses_total_correct library path room fine ok
  rw [absent]
  exact current_empty

/-! ### A number read as other types -/

/-- The conversions of a library that rounds to the nearest value. -/
def nearestLibrary : Conversions := ⟨atoiOfLong, strtodNearest, strtodNearest_rounds⟩

/-- An integer is set in one session, and read in the next as a `double` and as a boolean. -/
theorem uses_total_correct_two :
    ∃ after, runUses (Assoc false CString) nearestLibrary directoryA nameB
        [⟨[.set nameA nameA (.int (-12))], calm 4096⟩,
          ⟨[.get .double nameA nameA (.nan false), .get .bool nameA nameA 1], calm 4096⟩] .empty =
      some (after, [⟨.MCS_OK, none⟩, ⟨.MCS_OK, some ⟨.double, .ofInt (-12) (by decide)⟩⟩,
        ⟨.MCS_OK, some ⟨.bool, (0 : Int32)⟩⟩]) := by
  refine uses_total_correct nearestLibrary configPath_directoryA room_pathAB .empty rfl _ ?_ ?_
  · intro use member
    simp only [List.mem_cons, List.not_mem_nil, or_false] at member
    rcases member with rfl | rfl <;> exact calm_fine 4096
  · intro use member request inUse sect key setting change
    simp only [List.mem_cons, List.not_mem_nil, or_false] at member
    rcases member with rfl | rfl
    · cases List.mem_singleton.mp inUse
      cases change
      exact ⟨sectionOk_nameA, by decide +kernel⟩
    · simp only [List.mem_cons, List.not_mem_nil, or_false] at inUse
      rcases inUse with rfl | rfl <;> cases change

end Mcs.Settings
