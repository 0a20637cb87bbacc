import Mathlib.Data.List.GetD
import Mathlib.Data.List.Induction
import Mcs.Strings

/-!
The bounded string functions of `mcs_util.c`. Each is given by the bytes it stores
and the number it returns, with `size_t` arithmetic. Into a buffer that holds a
string they copy and add what fits (`mcsStrlcpy_correct`, `mcsStrlcat_correct`), so
calls one after the other leave the beginning of all the strings
(`truncated_concatenate`). The room left in the buffer is a difference that wraps
around where the string in it is longer than the count (`roomBehind_wraps`).
-/
namespace Mcs.BoundedCopy
open Mcs.Strings

/-- Memory from the first byte of a buffer on. -/
abbrev Memory := Nat → UInt8

/-- One byte stored at an index of the destination. -/
abbrev Stored := Nat × UInt8

/-- The memory after some stores, the first one first. -/
def after (memory : Memory) (stores : List Stored) : Memory :=
  stores.foldl (fun memory stored => Function.update memory stored.1 stored.2) memory

/-- What a function stores and what it returns. -/
structure Copied where
  stores : List Stored
  result : Nat

def memcpy (start : Nat) (bytes : Bytes) : List Stored := bytes.mapIdx fun index byte => (start + index, byte)

/-- The number of values of `size_t`. -/
def sizeRange : Nat := UInt64.size

def mcsStrlcpy (src : CString) (size : Nat) : Copied :=
  let srclen := strlen src
  if size ≠ 0 then
    let retlen := if srclen ≥ size then size - 1 else srclen
    ⟨memcpy 0 (src.bytes.take retlen) ++ [(retlen, 0)], retlen⟩
  else ⟨[], 0⟩

/-- `dest` is the string that the buffer holds when the function is called. -/
def mcsStrlcat (dest src : CString) (count : Nat) : Copied :=
  let dsize := strlen dest
  let len := strlen src
  let count := (count + sizeRange - dsize) % sizeRange
  let len := if len ≥ count then (if count > 0 then count - 1 else 0) else len
  ⟨memcpy dsize (src.bytes.take len) ++ [(dsize + len, 0)], (dsize + len) % sizeRange⟩

/-! ## Strings in memory -/

/-- The string that a buffer of so many bytes holds. -/
def stringIn (size : Nat) (memory : Memory) : CString := .ofBuffer ((List.range size).map memory)

/-- The memory holds this string, with its NUL, from an index on. -/
def HoldsFrom (memory : Memory) (start : Nat) (bytes : Bytes) : Prop :=
  (∀ index < bytes.length, memory (start + index) = bytes.getD index 0) ∧ memory (start + bytes.length) = 0

theorem after_append (memory : Memory) (first second : List Stored) :
    after memory (first ++ second) = after (after memory first) second := List.foldl_append

theorem after_memcpy (memory : Memory) (start : Nat) (bytes : Bytes) (index : Nat) :
    after memory (memcpy start bytes) index =
      if start ≤ index ∧ index < start + bytes.length then bytes.getD (index - start) 0 else memory index := by
  induction bytes generalizing start memory with
  | nil =>
    rw [if_neg (by simp only [List.length_nil]; omega)]
    rfl
  | cons byte rest ih =>
    have step : memcpy start (byte :: rest) = (start, byte) :: memcpy (start + 1) rest := by
      simp only [memcpy, List.mapIdx_cons, Nat.add_zero, List.cons.injEq, true_and]
      congr 1
      funext next byte
      rw [Nat.add_right_comm, Nat.add_assoc]
    have run : after memory (memcpy start (byte :: rest)) =
        after (Function.update memory start byte) (memcpy (start + 1) rest) := by rw [step]; rfl
    rw [run, ih]
    rcases Nat.lt_trichotomy index start with below | rfl | above
    · have out : ¬ (start + 1 ≤ index ∧ index < start + 1 + rest.length) := by omega
      have outer : ¬ (start ≤ index ∧ index < start + (byte :: rest).length) := by omega
      rw [if_neg out, if_neg outer, Function.update_of_ne (Nat.ne_of_lt below)]
    · have out : ¬ (index + 1 ≤ index ∧ index < index + 1 + rest.length) := by omega
      rw [if_neg out, if_pos (by simp)]
      simp
    · obtain ⟨offset, rfl⟩ : ∃ offset, index = start + 1 + offset := ⟨index - (start + 1), by omega⟩
      have position : start + 1 + offset - start = offset + 1 := by omega
      have same : (start ≤ start + 1 + offset ∧ start + 1 + offset < start + (byte :: rest).length) ↔
          (start + 1 ≤ start + 1 + offset ∧ start + 1 + offset < start + 1 + rest.length) := by
        simp only [List.length_cons]
        omega
      rw [if_congr same rfl rfl, position, Function.update_of_ne (by omega), Nat.add_sub_cancel_left,
        List.getD_cons_succ]

/-- Copying bytes and a NUL puts the string there and leaves the rest alone. -/
theorem after_copy (memory : Memory) (start : Nat) (bytes : Bytes) :
    HoldsFrom (after memory (memcpy start bytes ++ [(start + bytes.length, 0)])) start bytes ∧
      ∀ index < start, after memory (memcpy start bytes ++ [(start + bytes.length, 0)]) index = memory index := by
  have value : ∀ index, after memory (memcpy start bytes ++ [(start + bytes.length, 0)]) index =
      if index = start + bytes.length then 0 else after memory (memcpy start bytes) index := by
    intro index
    rw [after_append]
    simp [after, Function.update_apply]
  refine ⟨⟨?_, ?_⟩, ?_⟩
  · intro index inside
    rw [value, if_neg (by omega), after_memcpy, if_pos (by omega), Nat.add_sub_cancel_left]
  · rw [value, if_pos rfl]
  · intro index below
    rw [value, if_neg (by omega), after_memcpy, if_neg (by omega)]

/-- A string that ends inside the buffer is what the buffer holds. -/
theorem stringIn_of_holds {memory : Memory} {size : Nat} {s : CString} (holds : HoldsFrom memory 0 s.bytes)
    (inside : strlen s < size) : stringIn size memory = s := by
  obtain ⟨bytes, noNul⟩ := s
  simp only [strlen] at holds inside
  obtain ⟨same, ends⟩ := holds
  simp only [Nat.zero_add] at same ends
  have split : (List.range size).map memory =
      bytes ++ 0 :: (List.range (size - bytes.length - 1)).map fun index => memory (bytes.length + 1 + index) := by
    apply List.ext_getElem
    · simp only [List.length_map, List.length_range, List.length_append, List.length_cons]
      omega
    · intro index _ _
      simp only [List.getElem_map, List.getElem_range, List.getElem_append]
      split
      · rename_i before
        rw [same index before, List.getD_eq_getElem _ _ before]
      · rename_i beyond
        rcases Nat.eq_or_lt_of_le (Nat.le_of_not_lt beyond) with rfl | above
        · simpa using ends
        · obtain ⟨offset, rfl⟩ : ∃ offset, index = bytes.length + 1 + offset :=
            ⟨index - (bytes.length + 1), by omega⟩
          simp [Nat.add_assoc, Nat.add_comm 1 offset]
  ext1
  have kept : ∀ byte ∈ bytes, decide (byte ≠ 0) = true := fun byte member => by
    simp only [ne_eq, decide_not, Bool.not_eq_eq_eq_not, Bool.not_true, decide_eq_false_iff_not]
    exact fun zero => noNul (zero ▸ member)
  simp only [stringIn, CString.ofBuffer, split]
  rw [List.takeWhile_append_of_pos kept]
  simp

/-- The string that a buffer holds, where it ends inside. -/
theorem holds_stringIn {memory : Memory} {size : Nat} (inside : strlen (stringIn size memory) < size) :
    HoldsFrom memory 0 (stringIn size memory).bytes := by
  have cut : (List.range size).map memory = (stringIn size memory).bytes ++
      ((List.range size).map memory).dropWhile (· ≠ 0) := (List.takeWhile_append_dropWhile ..).symm
  have get : ∀ index < size, memory index = ((List.range size).map memory).getD index 0 := by
    intro index below
    simp [below]
  unfold strlen at inside
  refine ⟨?_, ?_⟩
  · intro index below
    rw [Nat.zero_add, get index (by omega), cut, List.getD_append _ _ _ _ below]
  · rw [Nat.zero_add, get _ inside, cut, List.getD_append_right _ _ _ _ (Nat.le_refl _), Nat.sub_self]
    have nonempty : ((List.range size).map memory).dropWhile (· ≠ 0) ≠ [] := by
      intro none
      have whole := congrArg List.length cut
      rw [none] at whole
      simp only [List.length_map, List.length_range, List.append_nil] at whole
      omega
    have stopped := List.head_dropWhile_not (fun byte : UInt8 => decide (byte ≠ 0)) nonempty
    generalize ((List.range size).map memory).dropWhile (fun byte : UInt8 => decide (byte ≠ 0)) = ending
      at nonempty stopped ⊢
    obtain ⟨byte, more, rfl⟩ := List.exists_cons_of_ne_nil nonempty
    rw [decide_eq_false_iff_not, not_not] at stopped
    exact stopped

/-- A string stays where it is while another one is put behind it. -/
theorem holds_append {memory after : Memory} {first second : Bytes} (held : HoldsFrom memory 0 first)
    (kept : ∀ index < first.length, after index = memory index) (added : HoldsFrom after first.length second) :
    HoldsFrom after 0 (first ++ second) := by
  refine ⟨?_, ?_⟩
  · intro index below
    rw [Nat.zero_add]
    rcases Nat.lt_or_ge index first.length with before | behind
    · rw [kept index before, List.getD_append _ _ _ _ before]
      simpa using held.1 index before
    · have total : index < first.length + second.length := by rwa [List.length_append] at below
      have position : first.length + (index - first.length) = index := by omega
      have new := added.1 (index - first.length) (by omega)
      rw [position] at new
      rw [List.getD_append_right _ _ _ _ behind, new]
  · rw [Nat.zero_add, List.length_append]
    exact added.2

/-! ## What the functions leave in a buffer -/

/-- `mcs_strlcpy` copies what leaves room for the NUL. -/
theorem mcsStrlcpy_eq (src : CString) {size : Nat} (room : 0 < size) :
    mcsStrlcpy src size = ⟨memcpy 0 (src.take (size - 1)).bytes ++ [(0 + strlen (src.take (size - 1)), 0)],
      strlen (src.take (size - 1))⟩ := by
  have cut : (if strlen src ≥ size then size - 1 else strlen src) = strlen (src.take (size - 1)) := by
    rw [strlen_take]
    split <;> omega
  have bytes : src.bytes.take (strlen (src.take (size - 1))) = (src.take (size - 1)).bytes := by
    rw [strlen_take]
    exact List.take_eq_take_min.symm
  simp only [mcsStrlcpy, if_pos (Nat.ne_of_gt room), cut, bytes, Nat.zero_add]

/-- The room behind a string, as `mcs_strlcat` computes it. -/
def roomBehind (dest : CString) (count : Nat) : Nat := (count + sizeRange - strlen dest) % sizeRange

theorem roomBehind_eq {dest : CString} {count : Nat} (within : strlen dest ≤ count) (small : count < sizeRange) :
    roomBehind dest count = count - strlen dest := by
  have shift : count + sizeRange - strlen dest = count - strlen dest + sizeRange := by omega
  rw [roomBehind, shift, Nat.add_mod_right, Nat.mod_eq_of_lt (by omega)]

/-- Behind a string that is longer than the count, the room wraps around. -/
theorem roomBehind_wraps {dest : CString} {count : Nat} (beyond : count < strlen dest) (fits : strlen dest < sizeRange) :
    roomBehind dest count = count + sizeRange - strlen dest := Nat.mod_eq_of_lt (by omega)

/-- `mcs_strlcat` adds what leaves room for the NUL in that room; in no room it
    adds nothing. -/
theorem mcsStrlcat_eq (dest src : CString) (count : Nat) :
    mcsStrlcat dest src count =
      ⟨memcpy (strlen dest) (src.take (roomBehind dest count - 1)).bytes ++
        [(strlen dest + strlen (src.take (roomBehind dest count - 1)), 0)],
      (strlen dest + strlen (src.take (roomBehind dest count - 1))) % sizeRange⟩ := by
  have cut : (if strlen src ≥ roomBehind dest count then
      (if roomBehind dest count > 0 then roomBehind dest count - 1 else 0) else strlen src) =
        strlen (src.take (roomBehind dest count - 1)) := by
    rw [strlen_take]
    split
    · split <;> omega
    · omega
  have bytes : src.bytes.take (strlen (src.take (roomBehind dest count - 1))) =
      (src.take (roomBehind dest count - 1)).bytes := by
    rw [strlen_take]
    exact List.take_eq_take_min.symm
  unfold roomBehind at cut bytes ⊢
  simp only [mcsStrlcat, cut, bytes]

/-- Behind the string lies what was added, with its NUL. -/
theorem holds_mcsStrlcat {memory : Memory} {dest : CString} (held : HoldsFrom memory 0 dest.bytes) (src : CString)
    (count : Nat) : HoldsFrom (after memory (mcsStrlcat dest src count).stores) 0
      (dest.append (src.take (roomBehind dest count - 1))).bytes := by
  obtain ⟨added, kept⟩ := after_copy memory (strlen dest) (src.take (roomBehind dest count - 1)).bytes
  rw [mcsStrlcat_eq]
  exact holds_append held kept added

theorem mcsStrlcpy_correct (memory : Memory) (src : CString) {size : Nat} (room : 0 < size) :
    stringIn size (after memory (mcsStrlcpy src size).stores) = src.take (size - 1) := by
  rw [mcsStrlcpy_eq src room]
  apply stringIn_of_holds (after_copy memory 0 _).1
  rw [strlen_take]
  omega

/-- What is added to a string that ends inside the buffer is what fits. -/
theorem append_roomBehind {dest : CString} (src : CString) {size : Nat} (inside : strlen dest < size)
    (small : size < sizeRange) :
    dest.append (src.take (roomBehind dest size - 1)) = (dest.append src).take (size - 1) := by
  have less : size - strlen dest - 1 = size - 1 - dest.bytes.length := by
    unfold strlen
    omega
  ext1
  show dest.bytes ++ src.bytes.take (roomBehind dest size - 1) = (dest.bytes ++ src.bytes).take (size - 1)
  have front : dest.bytes.take (size - 1) = dest.bytes := by
    unfold strlen at inside
    exact List.take_of_length_le (by omega)
  rw [roomBehind_eq (Nat.le_of_lt inside) small, less, List.take_append, front]

/-- Adds what fits behind a string that ends inside the buffer. -/
theorem mcsStrlcat_correct {memory : Memory} {dest : CString} (src : CString) {size : Nat}
    (held : stringIn size memory = dest) (inside : strlen dest < size) (small : size < sizeRange) :
    stringIn size (after memory (mcsStrlcat dest src size).stores) = (dest.append src).take (size - 1) := by
  have holds : HoldsFrom memory 0 dest.bytes := by
    rw [← held]
    exact holds_stringIn (by rw [held]; exact inside)
  rw [← append_roomBehind src inside small]
  apply stringIn_of_holds (holds_mcsStrlcat holds src size)
  rw [append_roomBehind src inside small, strlen_take]
  omega

theorem mem_copy {start : Nat} {src : CString} {stored : Stored}
    (member : stored ∈ memcpy start src.bytes ++ [(start + strlen src, 0)]) : stored.1 ≤ start + strlen src := by
  rcases List.mem_append.mp member with copied | ended
  · obtain ⟨index, inside, rfl⟩ := List.mem_mapIdx.mp copied
    exact Nat.add_le_add_left (Nat.le_of_lt inside) start
  · rw [List.mem_singleton.mp ended]

/-! ## Where the size wraps around -/

/-- The call stores nothing beyond the count and the string that was there, adds
    nothing to a string that leaves no room, and returns the length of the string
    that it leaves. -/
structure Bounded (dest src : CString) (count : Nat) : Prop where
  inside : ∀ stored ∈ (mcsStrlcat dest src count).stores, stored.1 < max count (strlen dest + 1)
  left : ∀ memory, HoldsFrom memory 0 dest.bytes → ∃ s : CString,
    HoldsFrom (after memory (mcsStrlcat dest src count).stores) 0 s.bytes ∧
      (mcsStrlcat dest src count).result = strlen s ∧ (count ≤ strlen dest + 1 → s = dest)

theorem append_empty (s : CString) : s.append .empty = s := by
  ext1
  exact List.append_nil s.bytes

/-- `mcs_strlcat` is bounded exactly where the string is no longer than the count, or
    nothing is to be added: else the room that it computes is enormous. -/
theorem bounded_iff {dest : CString} (fits : strlen dest + 1 < sizeRange) (src : CString) {count : Nat}
    (small : count < sizeRange) : Bounded dest src count ↔ strlen dest ≤ count ∨ src = .empty := by
  have length := strlen_append dest (src.take (roomBehind dest count - 1))
  constructor
  · intro bounded
    by_contra neither
    obtain ⟨long, some⟩ := not_or.mp neither
    have nonempty : strlen src ≠ 0 := fun none => some (CString.ext (List.length_eq_zero_iff.mp none))
    have stores := bounded.inside (strlen dest + strlen (src.take (roomBehind dest count - 1)), 0) (by
      rw [mcsStrlcat_eq]
      exact List.mem_append_right _ List.mem_cons_self)
    have outside : strlen dest + 1 ≤ strlen dest + strlen (src.take (roomBehind dest count - 1)) := by
      rw [strlen_take, roomBehind_wraps (by omega) (by omega)]
      omega
    omega
  · intro safe
    have bound : strlen dest + strlen (src.take (roomBehind dest count - 1)) < max count (strlen dest + 1) := by
      rcases safe with within | rfl
      · rw [strlen_take, roomBehind_eq within small]
        omega
      · rw [strlen_take]
        show _ + min _ 0 < _
        omega
    refine ⟨?_, fun memory held => ⟨_, holds_mcsStrlcat held src count, ?_, ?_⟩⟩
    · intro stored member
      rw [mcsStrlcat_eq] at member
      exact Nat.lt_of_le_of_lt (mem_copy member) bound
    · rw [mcsStrlcat_eq, length]
      exact Nat.mod_eq_of_lt (by omega)
    · intro full
      have none : strlen (src.take (roomBehind dest count - 1)) = 0 := by omega
      have empty : src.take (roomBehind dest count - 1) = .empty := CString.ext (List.length_eq_zero_iff.mp none)
      rw [empty, append_empty]

/-- The texts `x` and `xy`. -/
def oneByte : CString := ⟨[120], by decide⟩
def twoBytes : CString := ⟨[120, 121], by decide⟩

theorem bounded_iff_full : Bounded twoBytes oneByte 3 :=
  (bounded_iff (by decide) oneByte (by decide)).mpr (.inl (by decide))

/-- A string of two bytes is not seen to be too long for one byte: a third is stored. -/
theorem longer_overruns : ¬ ∀ (dest src : CString) (count : Nat), strlen dest + 1 < sizeRange → count < sizeRange →
    Bounded dest src count := by
  intro always
  have inside := (always twoBytes oneByte 1 (by decide) (by decide)).inside (3, 0)
  have stores : (mcsStrlcat twoBytes oneByte 1).stores = [(2, 120), (3, 0)] := by decide
  rw [stores] at inside
  exact absurd (inside (by simp)) (by decide)

/-! ## Building a string by calls -/

/-- `mcs_strlcpy(buf, first, size)` and then `mcs_strlcat(buf, src, size)` for each
    of the others: the memory after the last call, and what that call did. -/
def concatenate (memory : Memory) (size : Nat) (first : CString) (rest : List CString) : Memory × Copied :=
  rest.foldl
    (fun done src =>
      (after done.1 (mcsStrlcat (stringIn size done.1) src size).stores, mcsStrlcat (stringIn size done.1) src size))
    (after memory (mcsStrlcpy first size).stores, mcsStrlcpy first size)

/-- The call leaves what of the text has room, with its NUL, has stored nothing
    outside the buffer, and returns the length of what it leaves. -/
structure Truncated (size : Nat) (done : Memory × Copied) (text : CString) : Prop where
  holds : HoldsFrom done.1 0 (text.take (size - 1)).bytes
  string : stringIn size done.1 = text.take (size - 1)
  inside : ∀ stored ∈ done.2.stores, stored.1 < size
  returned : done.2.result = strlen (text.take (size - 1))

theorem concatenate_append (memory : Memory) (size : Nat) (first : CString) (rest : List CString) (src : CString) :
    concatenate memory size first (rest ++ [src]) =
      (after (concatenate memory size first rest).1
        (mcsStrlcat (stringIn size (concatenate memory size first rest).1) src size).stores,
      mcsStrlcat (stringIn size (concatenate memory size first rest).1) src size) := by
  rw [concatenate, List.foldl_append]
  rfl

/-- What a call leaves is cut off again by the next one. -/
theorem take_append_take (text src : CString) (count : Nat) :
    ((text.take count).append src).take count = (text.append src).take count := by
  ext1
  show (text.bytes.take count ++ src.bytes).take count = (text.bytes ++ src.bytes).take count
  rw [List.take_append, List.take_append, List.take_take, Nat.min_self, List.length_take]
  congr 2
  omega

theorem truncated_mcsStrlcpy (memory : Memory) (src : CString) {size : Nat} (room : 0 < size) :
    Truncated size (after memory (mcsStrlcpy src size).stores, mcsStrlcpy src size) src := by
  have short : strlen (src.take (size - 1)) < size := by
    rw [strlen_take]
    omega
  refine ⟨?_, mcsStrlcpy_correct memory src room, ?_, ?_⟩
  · rw [mcsStrlcpy_eq src room]
    exact (after_copy memory 0 _).1
  · intro stored member
    rw [mcsStrlcpy_eq src room] at member
    have below := mem_copy member
    omega
  · rw [mcsStrlcpy_eq src room]

theorem truncated_mcsStrlcat {size : Nat} {done : Memory × Copied} {text : CString} (left : Truncated size done text)
    (room : 0 < size) (small : size < sizeRange) (src : CString) :
    Truncated size (after done.1 (mcsStrlcat (stringIn size done.1) src size).stores,
      mcsStrlcat (stringIn size done.1) src size) (text.append src) := by
  have inside : strlen (text.take (size - 1)) < size := by
    rw [strlen_take]
    omega
  have now : (text.take (size - 1)).append (src.take (roomBehind (text.take (size - 1)) size - 1)) =
      (text.append src).take (size - 1) := by
    rw [append_roomBehind src inside small, take_append_take]
  have length := congrArg strlen now
  rw [strlen_append] at length
  have short : strlen ((text.append src).take (size - 1)) < size := by
    rw [strlen_take]
    omega
  rw [left.string]
  refine ⟨?_, ?_, ?_, ?_⟩
  · rw [← now]
    exact holds_mcsStrlcat left.holds src size
  · rw [mcsStrlcat_correct src left.string inside small, take_append_take]
  · intro stored member
    rw [mcsStrlcat_eq] at member
    have below := mem_copy member
    omega
  · rw [mcsStrlcat_eq]
    show (_ + _) % sizeRange = _
    rw [length, Nat.mod_eq_of_lt (by omega)]

/-- After the calls the buffer holds the beginning of all the strings. The
    induction takes the last call off. -/
theorem truncated_concatenate (memory : Memory) {size : Nat} (room : 0 < size) (small : size < sizeRange)
    (first : CString) (rest : List CString) :
    Truncated size (concatenate memory size first rest) (rest.foldl CString.append first) := by
  induction rest using List.reverseRecOn with
  | nil => exact truncated_mcsStrlcpy memory first room
  | append_singleton rest src ih =>
    rw [concatenate_append, List.foldl_append]
    exact truncated_mcsStrlcat ih room small src

/-- Each call on a buffer leaves the beginning of the strings so far, as much as
    there is room for, and returns the length of that. -/
theorem concatenate_correct (memory : Memory) {size : Nat} (room : 0 < size) (small : size < sizeRange)
    (first : CString) (rest : List CString) (calls : Nat) :
    Truncated size (concatenate memory size first (rest.take calls)) ((rest.take calls).foldl CString.append first) :=
  truncated_concatenate memory room small first (rest.take calls)

/-- In a buffer of three bytes, the second of three calls is the one that is cut. -/
theorem concatenate_correct_three : Truncated 3 (concatenate (fun _ => 7) 3 oneByte [twoBytes, oneByte])
    ([twoBytes, oneByte].foldl CString.append oneByte) :=
  concatenate_correct (fun _ => 7) (by decide) (by decide) oneByte [twoBytes, oneByte] 2

end Mcs.BoundedCopy
