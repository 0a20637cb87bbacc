import Mathlib.Data.List.Induction
import Mathlib.Tactic.Ring
import Mcs.Strings

/-!
Decimal numerals as bytes: what a word of digits is worth, that the digits which
are printed for a number are worth that number, and what `strtol` and `atoi` read
of a string. For a number that an `int` cannot hold, `atoi` has no defined result,
so it is any function that is right on the others.
-/
namespace Mcs.Numerals
open Mcs.Strings

/-! ## Digits -/

def IsDigit (byte : UInt8) : Prop := 48 ≤ byte.toNat ∧ byte.toNat ≤ 57

instance (byte : UInt8) : Decidable (IsDigit byte) := inferInstanceAs (Decidable (_ ∧ _))

def Digits (bytes : Bytes) : Prop := ∀ byte ∈ bytes, IsDigit byte

instance (bytes : Bytes) : Decidable (Digits bytes) :=
  decidable_of_iff (bytes.all (fun byte => decide (IsDigit byte)) = true) (by simp [Digits])

/-- What a word of digits is worth. -/
def numeric (digits : Bytes) : Nat := digits.foldl (fun worth byte => 10 * worth + (byte.toNat - 48)) 0

theorem numeric_nil : numeric [] = 0 := rfl

theorem numeric_concat (digits : Bytes) (byte : UInt8) :
    numeric (digits ++ [byte]) = 10 * numeric digits + (byte.toNat - 48) := by
  rw [numeric, List.foldl_append]
  rfl

theorem numeric_append (front back : Bytes) :
    numeric (front ++ back) = numeric front * 10 ^ back.length + numeric back := by
  induction back using List.reverseRecOn with
  | nil => simp [numeric_nil]
  | append_singleton back byte ih =>
    rw [← List.append_assoc, numeric_concat, ih, numeric_concat, List.length_append, List.length_singleton,
      Nat.pow_succ]
    ring

/-- Digits end where something else begins. -/
theorem takeWhile_digits {digits rest : Bytes} (all : Digits digits)
    (ends : ∀ byte, rest.head? = some byte → ¬ IsDigit byte) :
    (digits ++ rest).takeWhile (fun byte => IsDigit byte) = digits ∧
      (digits ++ rest).dropWhile (fun byte => IsDigit byte) = rest := by
  have inside : ∀ byte ∈ digits, decide (IsDigit byte) = true := fun byte member => decide_eq_true (all byte member)
  rw [List.takeWhile_append_of_pos inside, List.dropWhile_append_of_pos inside]
  cases rest with
  | nil => simp
  | cons byte more =>
    have stops : ¬ IsDigit byte := ends byte rfl
    simp [stops]

/-! ## Printed numbers -/

theorem toNat_digitByte {digit : Char} (isDigit : digit.isDigit) : (digitByte digit).toNat = digit.toNat := by
  simp only [Char.isDigit, ge_iff_le, Bool.and_eq_true, decide_eq_true_eq, UInt32.le_iff_toNat_le] at isDigit
  have high : digit.val.toNat ≤ 57 := isDigit.2
  show digit.val.toUInt8.toNat = digit.val.toNat
  rw [UInt32.toNat_toUInt8]
  exact Nat.mod_eq_of_lt (by omega)

theorem isDigit_digitByte {digit : Char} (isDigit : digit.isDigit) : IsDigit (digitByte digit) := by
  rw [IsDigit, toNat_digitByte isDigit]
  simp only [Char.isDigit, ge_iff_le, Bool.and_eq_true, decide_eq_true_eq, UInt32.le_iff_toNat_le] at isDigit
  exact isDigit

/-- The digits of a number, as they are printed. -/
def digitBytes (n : Nat) : Bytes := (Nat.toDigits 10 n).map digitByte

theorem digits_digitBytes (n : Nat) : Digits (digitBytes n) := by
  intro byte member
  obtain ⟨digit, inDigits, rfl⟩ := List.mem_map.mp member
  exact isDigit_digitByte (Nat.isDigit_of_mem_toDigits (by omega) (by omega) inDigits)

theorem length_digitBytes_le {n count : Nat} (positive : 0 < count) (small : n < 10 ^ count) :
    (digitBytes n).length ≤ count := by
  rw [digitBytes, List.length_map]
  exact (Nat.length_toDigits_le_iff (by omega) positive).mpr small

theorem numeric_map_digitByte {digits : List Char} (all : ∀ digit ∈ digits, digit.isDigit) (worth : Nat) :
    (digits.map digitByte).foldl (fun worth byte => 10 * worth + (byte.toNat - 48)) worth =
      Nat.ofDigitChars 10 digits worth := by
  induction digits generalizing worth with
  | nil => simp
  | cons digit rest ih =>
    rw [List.map_cons, List.foldl_cons, ih fun digit member => all digit (List.mem_cons_of_mem _ member),
      Nat.ofDigitChars_cons, toNat_digitByte (all digit List.mem_cons_self)]
    rfl

/-- A number is worth what its digits are. -/
theorem numeric_digitBytes (n : Nat) : numeric (digitBytes n) = n := by
  have all : ∀ digit ∈ Nat.toDigits 10 n, digit.isDigit := fun _ =>
    Nat.isDigit_of_mem_toDigits (by omega) (by omega)
  exact (numeric_map_digitByte all 0).trans (Nat.ofDigitChars_toDigits (by omega) (by omega))

/-! ## Integers -/

def minusSign : UInt8 := 45
def plusSign : UInt8 := 43

/-- `isspace`, in the C locale. -/
def IsSpace (byte : UInt8) : Prop := byte = 32 ∨ (9 ≤ byte ∧ byte ≤ 13)

instance (byte : UInt8) : Decidable (IsSpace byte) := inferInstanceAs (Decidable (_ ∨ _))

/-- An optional sign and digits, any number of them, with the integer they denote. -/
def Denotes (bytes : Bytes) (n : Int) : Prop :=
  ∃ digits, Digits digits ∧ (((bytes = digits ∨ bytes = plusSign :: digits) ∧ n = numeric digits) ∨
    (bytes = minusSign :: digits ∧ n = -numeric digits))

/-- The integer that `strtol` reads in base ten, before it has to fit: after white
    space and a sign, what the digits are worth. -/
def strtolValue (bytes : Bytes) : Int :=
  match bytes.dropWhile (fun byte => IsSpace byte) with
  | [] => 0
  | byte :: rest =>
    if byte = minusSign then -numeric (rest.takeWhile fun byte => IsDigit byte)
    else if byte = plusSign then numeric (rest.takeWhile fun byte => IsDigit byte)
    else numeric ((byte :: rest).takeWhile fun byte => IsDigit byte)

/-- The integer fits an `int`. -/
def InRange (n : Int) : Prop := -2147483648 ≤ n ∧ n ≤ 2147483647

instance (n : Int) : Decidable (InRange n) := inferInstanceAs (Decidable (_ ∧ _))

/-- `atoi`, of which only this much is defined. -/
structure Atoi where
  value : CString → Int32
  exact : ∀ s, InRange (strtolValue s.bytes) → (value s).toInt = strtolValue s.bytes

theorem digit_plain {byte : UInt8} (digit : IsDigit byte) :
    ¬ IsSpace byte ∧ byte ≠ minusSign ∧ byte ≠ plusSign := by
  unfold IsDigit at digit
  have signs : minusSign.toNat = 45 ∧ plusSign.toNat = 43 := ⟨rfl, rfl⟩
  refine ⟨?_, ?_, ?_⟩
  · rintro (rfl | ⟨_, high⟩)
    · exact absurd digit (by decide)
    · have below : byte.toNat ≤ 13 := high
      omega
  · rintro rfl
    omega
  · rintro rfl
    omega

theorem signs_plain : (¬ IsSpace minusSign ∧ ¬ IsSpace plusSign) ∧ plusSign ≠ minusSign := by decide

theorem takeWhile_allDigits {digits : Bytes} (all : Digits digits) :
    digits.takeWhile (fun byte => IsDigit byte) = digits := by
  rw [List.takeWhile_eq_self_iff]
  exact fun byte member => decide_eq_true (all byte member)

/-- A numeral is read whole. -/
theorem strtolValue_of_denotes {bytes : Bytes} {n : Int} (denotes : Denotes bytes n) : strtolValue bytes = n := by
  obtain ⟨digits, all, ⟨rfl | rfl, rfl⟩ | ⟨rfl, rfl⟩⟩ := denotes
  · cases bytes with
    | nil => rfl
    | cons byte rest =>
      obtain ⟨noSpace, noMinus, noPlus⟩ := digit_plain (all byte List.mem_cons_self)
      rw [strtolValue, List.dropWhile_cons_of_neg (by simpa using noSpace)]
      simp only [noMinus, noPlus, ↓reduceIte]
      rw [takeWhile_allDigits all]
  · rw [strtolValue, List.dropWhile_cons_of_neg (by simpa using signs_plain.1.2)]
    simp only [signs_plain.2, ↓reduceIte]
    rw [takeWhile_allDigits all]
  · rw [strtolValue, List.dropWhile_cons_of_neg (by simpa using signs_plain.1.1)]
    simp only [↓reduceIte]
    rw [takeWhile_allDigits all]

/-- What `%d` prints for a number is a numeral of the number. -/
theorem denotes_decimal (n : Int) : Denotes (decimal n).bytes n := by
  refine ⟨digitBytes n.natAbs, digits_digitBytes _, ?_⟩
  rw [numeric_digitBytes]
  by_cases negative : n < 0
  · refine .inr ⟨?_, by omega⟩
    simp only [decimal, negative, ↓reduceIte]
    rfl
  · refine .inl ⟨.inl ?_, by omega⟩
    simp only [decimal, negative, ↓reduceIte]
    rfl

theorem length_decimal_le {n : Int} (range : InRange n) : strlen (decimal n) ≤ 11 := by
  unfold InRange at range
  have digits : (digitBytes n.natAbs).length ≤ 10 := length_digitBytes_le (by omega) (by omega)
  have signs : (if n < 0 then [minusSign] else []).length ≤ 1 := by split <;> simp
  have split : (decimal n).bytes = (if n < 0 then [minusSign] else []) ++ digitBytes n.natAbs := rfl
  rw [strlen, split, List.length_append]
  omega

/-- The `atoi` of a library that reads a `long` and casts it. -/
def atoiOfLong : Atoi where
  value s := Int32.ofInt (max (-9223372036854775808) (min 9223372036854775807 (strtolValue s.bytes)))
  exact := by
    intro s range
    unfold InRange at range
    have inside : max (-9223372036854775808) (min 9223372036854775807 (strtolValue s.bytes)) =
        strtolValue s.bytes := by omega
    rw [inside]
    exact Int32.toInt_ofInt_of_le (by omega) (by omega)

end Mcs.Numerals
