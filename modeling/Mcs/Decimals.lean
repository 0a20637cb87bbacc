import Mcs.Numerals
import Mcs.Rounding

/-!
Decimal texts of rationals: what is kept of a rational in six significant digits, the
text that `%g` prints of it, which changes its shape with the magnitude, and the
rational that a decimal text denotes. The text denotes what was kept
(`unsigned_printMagnitude`), and everything is kept of the rationals of six digits
and of no others (`rounded_eq_iff`).
-/
namespace Mcs.Decimals
open Mcs.Strings Mcs.Numerals Mcs.Rounding

/-! ## Six digits -/

/-- The six digits, as a number, and the exponent of the first of them. A carry
    leaves a seventh digit, and moves the exponent. -/
def sixDigits (q : ℚ) : Nat × Int :=
  if near 10 (Int.log 10 q - 5) q = 1000000 then (100000, Int.log 10 q + 1)
  else (near 10 (Int.log 10 q - 5) q, Int.log 10 q)

/-- What six digits keep of a magnitude. -/
def rounded (q : ℚ) : ℚ := (sixDigits q).1 * 10 ^ ((sixDigits q).2 - 5)

theorem near_ten_le (q : ℚ) : near 10 (Int.log 10 q - 5) q ≤ 10 ^ 6 := near_le (by omega) (by omega)

theorem sixDigits_lt (q : ℚ) : (sixDigits q).1 < 10 ^ 6 := by
  have bound := near_ten_le q
  unfold sixDigits
  split
  · show 100000 < 10 ^ 6
    omega
  · show near 10 _ q < 10 ^ 6
    omega

theorem sixDigits_exponent (q : ℚ) : (sixDigits q).2 = Int.log 10 q ∨ (sixDigits q).2 = Int.log 10 q + 1 := by
  unfold sixDigits
  split
  · exact .inr rfl
  · exact .inl rfl

/-- The carry does not change what is kept. -/
theorem rounded_eq (q : ℚ) : rounded q = near 10 (Int.log 10 q - 5) q * 10 ^ (Int.log 10 q - 5) := by
  unfold rounded sixDigits
  split
  · rename_i carry
    rw [carry]
    show ((100000 : Nat) : ℚ) * 10 ^ (Int.log 10 q + 1 - 5) = _
    rw [show Int.log 10 q + 1 - 5 = 1 + (Int.log 10 q - 5) by omega, zpow_add₀ (by norm_num)]
    norm_num
    ring
  · rfl

/-- Everything is kept of a magnitude exactly when six digits have it. -/
theorem rounded_eq_iff {q : ℚ} : rounded q = q ↔ ∃ (m : Nat) (j : Int), m < 10 ^ 6 ∧ q = m * 10 ^ j := by
  constructor
  · intro kept
    exact ⟨(sixDigits q).1, (sixDigits q).2 - 5, sixDigits_lt q, kept.symm⟩
  · rintro ⟨m, j, few, value⟩
    rw [rounded_eq]
    exact near_self (by omega : 1 < 10) few value (by omega)

theorem rounded_natCast_iff (n : Nat) : rounded n = n ↔ ∃ m j : Nat, m < 10 ^ 6 ∧ n = m * 10 ^ j := by
  rw [rounded_eq_iff]
  constructor
  · rintro ⟨m, j, few, value⟩
    rcases lt_or_ge j 0 with negative | natural
    · have less : (n : ℚ) ≤ m := by
        rw [value]
        exact mul_le_of_le_one_right m.cast_nonneg (zpow_le_one_of_nonpos₀ (by norm_num) negative.le)
      have same : n ≤ m := by exact_mod_cast less
      exact ⟨n, 0, by omega, by omega⟩
    · refine ⟨m, j.toNat, few, ?_⟩
      have power : (10 : ℚ) ^ j = ((10 ^ j.toNat : Nat) : ℚ) := power_toNat 10 natural
      rw [power] at value
      exact_mod_cast value
  · rintro ⟨m, j, few, rfl⟩
    exact ⟨m, j, few, by push_cast; rw [zpow_natCast]⟩

/-! ## Printing -/

def point : UInt8 := 46
def exponentMark : UInt8 := 101
def zeroDigit : UInt8 := 48

def zeros (count : Nat) : Bytes := List.replicate count zeroDigit

/-- The digits of a number, with zeros before them up to a width. -/
def padded (width n : Nat) : Bytes := zeros (width - (digitBytes n).length) ++ digitBytes n

/-- Digits of a fraction, without the zeros that end them. -/
def stripZeros (digits : Bytes) : Bytes := (digits.reverse.dropWhile (· = zeroDigit)).reverse

/-- A whole part and a fraction, and a point only where a fraction is left. -/
def pointed (whole fraction : Bytes) : Bytes :=
  if stripZeros fraction = [] then whole else whole ++ point :: stripZeros fraction

def exponentText (exponent : Int) : Bytes :=
  exponentMark :: (if exponent < 0 then minusSign else plusSign) :: padded 2 exponent.natAbs

/-- What `%g` prints of a magnitude. -/
def printMagnitude (q : ℚ) : Bytes :=
  let (digits, exponent) := sixDigits q
  let text := padded 6 digits
  if exponent < -4 ∨ 6 ≤ exponent then pointed (text.take 1) (text.drop 1) ++ exponentText exponent
  else if 0 ≤ exponent then pointed (text.take (exponent.toNat + 1)) (text.drop (exponent.toNat + 1))
  else pointed [zeroDigit] (zeros (-exponent - 1).toNat ++ text)

theorem length_zeros (count : Nat) : (zeros count).length = count := List.length_replicate

theorem digits_zeros (count : Nat) : Digits (zeros count) := by
  intro byte member
  rw [List.eq_of_mem_replicate member]
  decide

theorem digits_append {front back : Bytes} (inFront : Digits front) (inBack : Digits back) : Digits (front ++ back) := by
  intro byte member
  rcases List.mem_append.mp member with member | member
  · exact inFront byte member
  · exact inBack byte member

theorem digits_padded (width n : Nat) : Digits (padded width n) :=
  digits_append (digits_zeros _) (digits_digitBytes n)

theorem numeric_zeros (count : Nat) : numeric (zeros count) = 0 := by
  induction count with
  | zero => rfl
  | succ count ih => rw [zeros, List.replicate_succ', numeric_concat, ← zeros, ih]; rfl

theorem numeric_zeros_append (count : Nat) (digits : Bytes) : numeric (zeros count ++ digits) = numeric digits := by
  rw [numeric_append, numeric_zeros, Nat.zero_mul, Nat.zero_add]

theorem numeric_append_zeros (digits : Bytes) (count : Nat) :
    numeric (digits ++ zeros count) = numeric digits * 10 ^ count := by
  rw [numeric_append, numeric_zeros, length_zeros, Nat.add_zero]

theorem numeric_padded (width n : Nat) : numeric (padded width n) = n := by
  rw [padded, numeric_zeros_append, numeric_digitBytes]

theorem length_padded {width n : Nat} (positive : 0 < width) (small : n < 10 ^ width) :
    (padded width n).length = width := by
  have fits := length_digitBytes_le positive small
  rw [padded, List.length_append, length_zeros]
  omega

/-- What is stripped are zeros at the end. -/
theorem stripZeros_split (digits : Bytes) : ∃ count, digits = stripZeros digits ++ zeros count := by
  refine ⟨(digits.reverse.takeWhile (· = zeroDigit)).length, ?_⟩
  have same : digits.reverse.takeWhile (· = zeroDigit) = zeros (digits.reverse.takeWhile (· = zeroDigit)).length := by
    rw [zeros, List.eq_replicate_iff]
    exact ⟨rfl, fun byte member => by simpa using List.mem_takeWhile_imp member⟩
  have whole := congrArg List.reverse (List.takeWhile_append_dropWhile (p := (· = zeroDigit)) (l := digits.reverse))
  rw [List.reverse_append, List.reverse_reverse, same, zeros, List.reverse_replicate] at whole
  exact whole.symm

/-! ## What a text denotes -/

/-- The text of an exponent, or none. -/
def Scaled (text : Bytes) (exponent : Int) : Prop :=
  (text = [] ∧ exponent = 0) ∨ ∃ digits, text = exponentMark :: digits ∧ Denotes digits exponent

/-- A decimal text without a sign: digits, maybe a point and a fraction, maybe an
    exponent, and the rational that they denote. -/
def Unsigned (text : Bytes) (q : ℚ) : Prop :=
  ∃ (whole fraction middle scale : Bytes) (exponent : Int), text = whole ++ middle ++ scale ∧
    Digits whole ∧ whole ≠ [] ∧ Digits fraction ∧ (middle = point :: fraction ∨ middle = [] ∧ fraction = []) ∧
    Scaled scale exponent ∧ q = numeric (whole ++ fraction) * 10 ^ (exponent - fraction.length)

/-- The zeros that are left out do not count. -/
theorem unsigned_pointed {whole fraction scale : Bytes} {exponent : Int} (inWhole : Digits whole) (some : whole ≠ [])
    (inFraction : Digits fraction) (scaled : Scaled scale exponent) :
    Unsigned (pointed whole fraction ++ scale) (numeric (whole ++ fraction) * 10 ^ (exponent - fraction.length)) := by
  obtain ⟨count, split⟩ := stripZeros_split fraction
  have kept : Digits (stripZeros fraction) := fun byte member =>
    inFraction byte (by rw [split]; exact List.mem_append_left _ member)
  refine ⟨whole, stripZeros fraction, if stripZeros fraction = [] then [] else point :: stripZeros fraction, scale,
    exponent, ?_, inWhole, some, kept, ?_, scaled, ?_⟩
  · unfold pointed
    split <;> simp
  · split
    · rename_i nothing
      exact .inr ⟨rfl, nothing⟩
    · exact .inl rfl
  · have length : (fraction.length : Int) = (stripZeros fraction).length + count := by
      conv_lhs => rw [split, List.length_append, length_zeros]
      omega
    have worth : numeric (whole ++ fraction) = numeric (whole ++ stripZeros fraction) * 10 ^ count := by
      conv_lhs => rw [split, ← List.append_assoc, numeric_append_zeros]
    rw [worth, length, Nat.cast_mul, mul_assoc]
    congr 1
    rw [Nat.cast_pow, Nat.cast_ofNat, ← zpow_natCast, ← zpow_add₀ (by norm_num)]
    congr 1
    omega

theorem scaled_exponentText (exponent : Int) : Scaled (exponentText exponent) exponent := by
  refine .inr ⟨_, rfl, padded 2 exponent.natAbs, digits_padded _ _, ?_⟩
  rw [numeric_padded]
  by_cases negative : exponent < 0
  · refine .inr ⟨?_, by omega⟩
    rw [if_pos negative]
  · refine .inl ⟨.inr ?_, by omega⟩
    rw [if_neg negative]

/-- In each of its shapes, the text that is printed denotes what six digits keep. -/
theorem unsigned_printMagnitude (q : ℚ) : Unsigned (printMagnitude q) (rounded q) := by
  unfold printMagnitude rounded
  have few := sixDigits_lt q
  revert few
  rcases sixDigits q with ⟨digits, exponent⟩
  intro few
  have width : (padded 6 digits).length = 6 := length_padded (by omega) few
  have worth := numeric_padded 6 digits
  have text := digits_padded 6 digits
  have front : ∀ count, Digits ((padded 6 digits).take count) := fun count byte member =>
    text byte (List.mem_of_mem_take member)
  have back : ∀ count, Digits ((padded 6 digits).drop count) := fun count byte member =>
    text byte (List.mem_of_mem_drop member)
  have some : ∀ count, (padded 6 digits).take (count + 1) ≠ [] := by
    intro count nothing
    have zero := congrArg List.length nothing
    rw [List.length_take, width, List.length_nil] at zero
    omega
  dsimp only
  split
  · have denoted := unsigned_pointed (front 1) (some 0) (back 1) (scaled_exponentText exponent)
    rw [List.take_append_drop, worth, List.length_drop, width] at denoted
    exact denoted
  · split
    · have denoted := unsigned_pointed (front (exponent.toNat + 1)) (some _) (back (exponent.toNat + 1))
        (.inl ⟨rfl, rfl⟩)
      rw [List.take_append_drop, worth, List.length_drop, width, List.append_nil] at denoted
      rw [show exponent - 5 = 0 - ((6 - (exponent.toNat + 1) : Nat) : Int) by omega]
      exact denoted
    · have zero : Digits [zeroDigit] := by decide
      have denoted := unsigned_pointed zero (by decide) (digits_append (digits_zeros (-exponent - 1).toNat) text)
        (.inl ⟨rfl, rfl⟩)
      have value : numeric (zeros 1 ++ (zeros (-exponent - 1).toNat ++ padded 6 digits)) = digits := by
        rw [numeric_zeros_append, numeric_zeros_append, worth]
      rw [show [zeroDigit] = zeros 1 from rfl, value, List.length_append, width, length_zeros, List.append_nil] at denoted
      rw [show exponent - 5 = 0 - (((-exponent - 1).toNat + 6 : Nat) : Int) by omega]
      exact denoted

/-- The carry of `9999995` makes the text `1e+07`. -/
example : printMagnitude 9999995 = [49, 101, 43, 48, 55] := by decide +kernel

theorem length_pointed_le (whole fraction : Bytes) :
    (pointed whole fraction).length ≤ whole.length + 1 + fraction.length := by
  obtain ⟨count, split⟩ := stripZeros_split fraction
  have length := congrArg List.length split
  rw [List.length_append] at length
  unfold pointed
  split
  · omega
  · rw [List.length_append, List.length_cons]
    omega

/-- A text is short, unless its exponent is enormous. -/
theorem length_printMagnitude_le {q : ℚ} (moderate : (sixDigits q).2.natAbs < 10 ^ 4) :
    (printMagnitude q).length ≤ 13 := by
  unfold printMagnitude
  have few := sixDigits_lt q
  revert few moderate
  rcases sixDigits q with ⟨digits, exponent⟩
  intro moderate few
  have width : (padded 6 digits).length = 6 := length_padded (by omega) few
  dsimp only
  split
  · have front := length_pointed_le ((padded 6 digits).take 1) ((padded 6 digits).drop 1)
    have back : (digitBytes exponent.natAbs).length ≤ 4 := length_digitBytes_le (by omega) moderate
    rw [List.length_take, List.length_drop, width] at front
    have scale : (padded 2 exponent.natAbs).length ≤ 4 := by
      rw [padded, List.length_append, length_zeros]
      omega
    rw [List.length_append, exponentText, List.length_cons, List.length_cons]
    omega
  · split
    · have length := length_pointed_le ((padded 6 digits).take (exponent.toNat + 1))
        ((padded 6 digits).drop (exponent.toNat + 1))
      rw [List.length_take, List.length_drop, width] at length
      omega
    · have length := length_pointed_le [zeroDigit] (zeros (-exponent - 1).toNat ++ padded 6 digits)
      rw [List.length_singleton, List.length_append, width, length_zeros] at length
      omega

/-! ## Reading -/

/-- A decimal text, with its sign and the magnitude it denotes. -/
def DenotesDecimal (bytes : Bytes) (negative : Bool) (q : ℚ) : Prop :=
  ∃ text, Unsigned text q ∧ ((negative = false ∧ (bytes = text ∨ bytes = plusSign :: text)) ∨
    (negative = true ∧ bytes = minusSign :: text))

/-- The exponent that is read after the digits, if there is one. -/
def readExponent : Bytes → Int
  | mark :: byte :: rest =>
    if (mark = exponentMark ∨ mark = 69) ∧ ¬ IsSpace byte then strtolValue (byte :: rest) else 0
  | _ => 0

def readUnsigned (bytes : Bytes) : ℚ :=
  let whole := bytes.takeWhile fun byte => IsDigit byte
  match bytes.dropWhile fun byte => IsDigit byte with
  | [] => numeric whole
  | byte :: rest =>
    if byte = point then
      let fraction := rest.takeWhile fun byte => IsDigit byte
      numeric (whole ++ fraction) * 10 ^ (readExponent (rest.dropWhile fun byte => IsDigit byte) - fraction.length)
    else numeric whole * 10 ^ readExponent (byte :: rest)

/-- The sign and the magnitude that `strtod` reads of a decimal text, before they have
    to be a `double`. -/
def strtodValue (bytes : Bytes) : Bool × ℚ :=
  match bytes.dropWhile (fun byte => IsSpace byte) with
  | [] => (false, 0)
  | byte :: rest =>
    if byte = minusSign then (true, readUnsigned rest)
    else if byte = plusSign then (false, readUnsigned rest)
    else (false, readUnsigned (byte :: rest))

theorem readExponent_of_scaled {text : Bytes} {exponent : Int} (scaled : Scaled text exponent) :
    readExponent text = exponent := by
  rcases scaled with ⟨rfl, rfl⟩ | ⟨digits, rfl, denotes⟩
  · rfl
  · have value := strtolValue_of_denotes denotes
    cases digits with
    | nil => exact value
    | cons byte rest =>
      have plain : ¬ IsSpace byte := by
        obtain ⟨digits, all, ⟨same | same, _⟩ | ⟨same, _⟩⟩ := denotes
        · exact (digit_plain (all byte (by rw [← same]; exact List.mem_cons_self))).1
        · rw [(List.cons.inj same).1]
          exact signs_plain.1.2
        · rw [(List.cons.inj same).1]
          exact signs_plain.1.1
      rw [readExponent, if_pos ⟨.inl rfl, plain⟩, value]

theorem scaled_ends {text : Bytes} {exponent : Int} (scaled : Scaled text exponent) :
    ∀ byte, text.head? = some byte → ¬ IsDigit byte ∧ byte ≠ point := by
  rintro byte first
  rcases scaled with ⟨rfl, _⟩ | ⟨digits, rfl, _⟩
  · cases first
  · cases first
    decide

theorem readUnsigned_of_unsigned {text : Bytes} {q : ℚ} (denotes : Unsigned text q) : readUnsigned text = q := by
  obtain ⟨whole, fraction, middle, scale, exponent, rfl, inWhole, _, inFraction, shape, scaled, rfl⟩ := denotes
  have ends := scaled_ends scaled
  rcases shape with rfl | ⟨rfl, rfl⟩
  · have stops : ∀ byte, (point :: (fraction ++ scale)).head? = some byte → ¬ IsDigit byte := by
      rintro byte ⟨⟩
      decide
    have front := takeWhile_digits inWhole stops
    have back := takeWhile_digits inFraction fun byte first => (ends byte first).1
    rw [readUnsigned, List.append_assoc, List.cons_append, front.1, front.2]
    dsimp only
    rw [if_pos rfl, back.1, back.2, readExponent_of_scaled scaled]
  · have front := takeWhile_digits inWhole fun byte first => (ends byte first).1
    have value := readExponent_of_scaled scaled
    rw [readUnsigned, List.append_nil, front.1, front.2, ← value]
    cases scale with
    | nil => simp [readExponent]
    | cons byte rest =>
      dsimp only
      rw [if_neg (ends byte rfl).2, List.length_nil, Nat.cast_zero, sub_zero]

theorem unsigned_head {text : Bytes} {q : ℚ} (denotes : Unsigned text q) :
    ∃ byte rest, text = byte :: rest ∧ IsDigit byte := by
  obtain ⟨whole, fraction, middle, scale, exponent, rfl, inWhole, some, _⟩ := denotes
  cases whole with
  | nil => exact absurd rfl some
  | cons byte rest => exact ⟨byte, rest ++ middle ++ scale, rfl, inWhole byte List.mem_cons_self⟩

/-- A decimal text is read whole. -/
theorem strtodValue_of_denotes {bytes : Bytes} {negative : Bool} {q : ℚ} (denotes : DenotesDecimal bytes negative q) :
    strtodValue bytes = (negative, q) := by
  obtain ⟨text, unsigned, ⟨rfl, rfl | rfl⟩ | ⟨rfl, rfl⟩⟩ := denotes
  · have value := readUnsigned_of_unsigned unsigned
    obtain ⟨byte, rest, rfl, digit⟩ := unsigned_head unsigned
    obtain ⟨noSpace, noMinus, noPlus⟩ := digit_plain digit
    rw [strtodValue, List.dropWhile_cons_of_neg (by simpa using noSpace)]
    simp only [noMinus, noPlus, ↓reduceIte]
    rw [value]
  · rw [strtodValue, List.dropWhile_cons_of_neg (by simpa using signs_plain.1.2)]
    simp only [signs_plain.2, ↓reduceIte]
    rw [readUnsigned_of_unsigned unsigned]
  · rw [strtodValue, List.dropWhile_cons_of_neg (by simpa using signs_plain.1.1)]
    simp only [↓reduceIte]
    rw [readUnsigned_of_unsigned unsigned]

theorem noNul_of_digits {digits : Bytes} (all : Digits digits) : 0 ∉ digits := fun nul =>
  absurd (all 0 nul) (by decide)

theorem noNul_of_unsigned {text : Bytes} {q : ℚ} (denotes : Unsigned text q) : 0 ∉ text := by
  obtain ⟨whole, fraction, middle, scale, exponent, rfl, inWhole, _, inFraction, shape, scaled, _⟩ := denotes
  have front := noNul_of_digits inWhole
  have back := noNul_of_digits inFraction
  have inMiddle : 0 ∉ middle := by
    rcases shape with rfl | ⟨rfl, _⟩
    · exact List.not_mem_cons_of_ne_of_not_mem (by decide) back
    · exact List.not_mem_nil
  have inScale : 0 ∉ scale := by
    rcases scaled with ⟨rfl, _⟩ | ⟨text, rfl, digits, all, ⟨rfl | rfl, _⟩ | ⟨rfl, _⟩⟩
    · exact List.not_mem_nil
    all_goals
      have plain := noNul_of_digits all
      simp [exponentMark, plusSign, minusSign, plain]
  simp [front, inMiddle, inScale]

theorem noNul_of_denotes {bytes : Bytes} {negative : Bool} {q : ℚ} (denotes : DenotesDecimal bytes negative q) :
    0 ∉ bytes := by
  obtain ⟨text, unsigned, ⟨_, rfl | rfl⟩ | ⟨_, rfl⟩⟩ := denotes
  all_goals
    have plain := noNul_of_unsigned unsigned
    simp [plusSign, minusSign, plain]

end Mcs.Decimals
