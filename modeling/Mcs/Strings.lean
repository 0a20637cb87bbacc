import Mathlib.Data.List.Basic
import Mathlib.Data.List.TakeWhile

/-!
C strings and the parts of the C library that read a text file by lines: `fgets`,
`strchr` and `strtok`.
-/
namespace Mcs.Strings

abbrev Bytes := List UInt8

/-- A C string: the bytes before its terminating NUL. -/
@[ext] structure CString where
  bytes : Bytes
  noNul : 0 ∉ bytes
  deriving DecidableEq

def openBracket : UInt8 := 91
def closeBracket : UInt8 := 93
def hashSign : UInt8 := 35
def equals : UInt8 := 61
def newline : UInt8 := 10

theorem takeWhile_of_absent {bytes : Bytes} {stop : UInt8} (absent : stop ∉ bytes) :
    bytes.takeWhile (· ≠ stop) = bytes := by
  rw [List.takeWhile_eq_self_iff]
  intro byte member
  have differ : byte ≠ stop := fun same => absent (same ▸ member)
  simpa using differ

namespace CString

/-- A string made of bytes of another. -/
def part (s : CString) (bytes : Bytes) (within : ∀ byte ∈ bytes, byte ∈ s.bytes) : CString :=
  ⟨bytes, fun nul => s.noNul (within 0 nul)⟩

def empty : CString := ⟨[], by simp⟩

/-- The string that a pointer to the first byte of a buffer reads. -/
def ofBuffer (buffer : Bytes) : CString :=
  ⟨buffer.takeWhile (· ≠ 0), fun nul => by simpa using List.mem_takeWhile_imp nul⟩

/-- The byte at an index; past the last one is the terminating NUL. -/
def byteAt (s : CString) (index : Nat) : UInt8 := s.bytes.getD index 0

def take (s : CString) (count : Nat) : CString := s.part (s.bytes.take count) fun _ => List.mem_of_mem_take

def drop (s : CString) (count : Nat) : CString := s.part (s.bytes.drop count) fun _ => List.mem_of_mem_drop

def append (s t : CString) : CString := ⟨s.bytes ++ t.bytes, by simp [s.noNul, t.noNul]⟩

theorem ofBuffer_of_noNul {buffer : Bytes} (noNul : 0 ∉ buffer) : (ofBuffer buffer).bytes = buffer :=
  takeWhile_of_absent noNul

theorem byteAt_zero_eq_zero {s : CString} : s.byteAt 0 = 0 ↔ s = .empty := by
  constructor
  · intro ended
    cases bytes : s.bytes with
    | nil => exact CString.ext bytes
    | cons byte rest =>
      rw [CString.byteAt, bytes, List.getD_cons_zero] at ended
      exact absurd (bytes ▸ ended ▸ List.mem_cons_self) s.noNul
  · rintro rfl
    rfl

end CString

/-! ## Searching a string -/

def strlen (s : CString) : Nat := s.bytes.length

theorem strlen_take (s : CString) (count : Nat) : strlen (s.take count) = min count (strlen s) := by
  simp [strlen, CString.take, CString.part]

theorem strlen_drop (s : CString) (count : Nat) : strlen (s.drop count) = strlen s - count := by
  simp [strlen, CString.drop, CString.part]

theorem strlen_append (s t : CString) : strlen (s.append t) = strlen s + strlen t := by
  simp [strlen, CString.append]

/-- The index of the first such byte; `none` is the null pointer. -/
def strchr (s : CString) (byte : UInt8) : Option Nat := s.bytes.findIdx? (· = byte)

/-- The next token, and the position that the call leaves for `strtok(NULL, ..)`.
    At the end of the string the position stays at the terminating NUL. -/
def strtok (s : CString) (delims : List UInt8) : Option CString × CString :=
  let start := s.bytes.dropWhile (· ∈ delims)
  if start = [] then (none, .empty)
  else
    (some (s.part (start.takeWhile (· ∉ delims)) fun _ member =>
        (List.dropWhile_suffix _).subset ((List.takeWhile_prefix _).subset member)),
      s.part ((start.dropWhile (· ∉ delims)).drop 1) fun _ member =>
        (List.dropWhile_suffix _).subset ((List.dropWhile_suffix _).subset (List.mem_of_mem_drop member)))

theorem strtok_of_nil {s : CString} {delims : List UInt8} (none : s.bytes.dropWhile (· ∈ delims) = []) :
    strtok s delims = (.none, .empty) := by simp only [strtok, if_pos none]

theorem strtok_of_ne_nil {s : CString} {delims : List UInt8} (start : s.bytes.dropWhile (· ∈ delims) ≠ []) :
    ∃ token rest, strtok s delims = (some token, rest) ∧
      token.bytes = (s.bytes.dropWhile (· ∈ delims)).takeWhile (· ∉ delims) ∧
      rest.bytes = ((s.bytes.dropWhile (· ∈ delims)).dropWhile (· ∉ delims)).drop 1 := by
  simp only [strtok, if_neg start]
  exact ⟨_, _, rfl, rfl, rfl⟩

theorem strtok_empty (delims : List UInt8) : strtok .empty delims = (none, .empty) := strtok_of_nil rfl

theorem strchr_eq_none {s : CString} {byte : UInt8} : strchr s byte = none ↔ byte ∉ s.bytes := by
  simp only [strchr, List.findIdx?_eq_none_iff, decide_eq_false_iff_not]
  exact ⟨fun other member => other byte member rfl, fun absent other member same => absent (same ▸ member)⟩

theorem strchr_lt {s : CString} {byte : UInt8} {index : Nat} (found : strchr s byte = some index) :
    index < strlen s := (List.findIdx?_eq_some_iff_getElem.mp found).1

/-- What lies around the byte that `strchr` finds. -/
theorem strchr_split {s : CString} {byte : UInt8} {index : Nat} (found : strchr s byte = some index) :
    ∃ tail, s.bytes = s.bytes.take index ++ byte :: tail ∧ byte ∉ s.bytes.take index := by
  obtain ⟨inside, here, first⟩ := List.findIdx?_eq_some_iff_getElem.mp found
  refine ⟨s.bytes.drop (index + 1), ?_, ?_⟩
  · have split := List.take_append_drop index s.bytes
    rw [List.drop_eq_getElem_cons inside, of_decide_eq_true here] at split
    exact split.symm
  · intro member
    obtain ⟨earlier, below, same⟩ := List.mem_take_iff_getElem.mp member
    exact first earlier (by omega) (decide_eq_true same)

/-- The first such byte is found where it stands. -/
theorem strchr_of_split {s : CString} {byte : UInt8} {before tail : Bytes} (split : s.bytes = before ++ byte :: tail)
    (plain : byte ∉ before) : strchr s byte = some before.length := by
  have none : before.findIdx? (· = byte) = none := by
    rw [List.findIdx?_eq_none_iff]
    intro other member
    have differ : other ≠ byte := fun same => plain (same ▸ member)
    simpa using differ
  rw [strchr, split, List.findIdx?_append, none, List.findIdx?_cons]
  simp

/-! ## Printing numbers -/

def digitByte (digit : Char) : UInt8 := digit.toUInt8

theorem digitByte_ne_zero {digit : Char} (isDigit : digit.isDigit) : digitByte digit ≠ 0 := by
  simp only [Char.isDigit, ge_iff_le, Bool.and_eq_true, decide_eq_true_eq, UInt32.le_iff_toNat_le] at isDigit
  intro zero
  have value := congrArg UInt8.toNat zero
  simp only [digitByte, Char.toUInt8, UInt32.toNat_toUInt8, UInt8.toNat_zero] at value
  have low : 48 ≤ digit.val.toNat := isDigit.1
  have high : digit.val.toNat ≤ 57 := isDigit.2
  omega

/-- What `%d` prints. -/
def decimal (n : Int) : CString where
  bytes := (if n < 0 then [45] else []) ++ (Nat.toDigits 10 n.natAbs).map digitByte
  noNul := by
    simp only [List.mem_append, List.mem_map, not_or, not_exists, not_and]
    refine ⟨by split <;> simp, ?_⟩
    intro digit member zero
    exact digitByte_ne_zero (Nat.isDigit_of_mem_toDigits (by omega) (by omega) member) zero

/-- `snprintf(buffer, size, ..)` keeps what leaves room for the NUL. -/
def snprintf (size : Nat) (text : CString) : CString := text.take (size - 1)

theorem take_of_strlen_le {s : CString} {count : Nat} (short : strlen s ≤ count) : s.take count = s := by
  ext1
  exact List.take_of_length_le short

theorem snprintf_of_short {size : Nat} {text : CString} (short : strlen text < size) : snprintf size text = text :=
  take_of_strlen_le (Nat.le_sub_one_of_lt short)

/-! ## Reading lines -/

/-- The bytes up to the first newline, at most `room` of them, and what follows. -/
def readLine : Nat → Bytes → Bytes × Bytes
  | 0, stream => ([], stream)
  | _ + 1, [] => ([], [])
  | room + 1, byte :: rest =>
    if byte = newline then ([byte], rest)
    else (byte :: (readLine room rest).1, (readLine room rest).2)

/-- `fgets(buffer, room + 1, f)`: what it stores before the NUL and what is left
    to read; `none` at the end of the file. -/
def fgets (room : Nat) (stream : Bytes) : Option (Bytes × Bytes) :=
  if stream = [] then none else some (readLine room stream)

def chunksWithin (room : Nat) : Nat → Bytes → List Bytes
  | 0, _ => []
  | fuel + 1, stream =>
    match fgets room stream with
    | none => []
    | some (chunk, rest) => chunk :: chunksWithin room fuel rest

/-- All that `while (fgets(buffer, room + 1, f))` reads; every call takes a byte,
    so the length of the file bounds the loop. -/
def chunks (room : Nat) (stream : Bytes) : List Bytes := chunksWithin room stream.length stream

theorem readLine_append (room : Nat) (stream : Bytes) :
    (readLine room stream).1 ++ (readLine room stream).2 = stream := by
  induction room, stream using readLine.induct with
  | case1 stream => rfl
  | case2 room => rfl
  | case3 room rest => simp [readLine]
  | case4 room byte rest other ih => simp [readLine, other, ih]

theorem readLine_length_le (room : Nat) (stream : Bytes) : (readLine room stream).1.length ≤ room := by
  induction room, stream using readLine.induct with
  | case1 stream => simp [readLine]
  | case2 room => simp [readLine]
  | case3 room rest => simp [readLine]
  | case4 room byte rest other ih => simpa [readLine, other] using ih

/-- Only the last byte of a chunk can be a newline. -/
theorem readLine_newline (room : Nat) (stream : Bytes) : newline ∉ (readLine room stream).1.dropLast := by
  induction room, stream using readLine.induct with
  | case1 stream => simp [readLine]
  | case2 room => simp [readLine]
  | case3 room rest => simp [readLine]
  | case4 room byte rest other ih =>
    simp only [readLine, other, ↓reduceIte]
    cases line : (readLine room rest).1 with
    | nil => simp
    | cons second more =>
      rw [line] at ih
      simpa [List.dropLast_cons_of_ne_nil, Ne.symm other] using ih

theorem readLine_rest_length (room : Nat) {stream : Bytes} (nonempty : stream ≠ []) :
    (readLine (room + 1) stream).2.length < stream.length := by
  cases stream with
  | nil => exact absurd rfl nonempty
  | cons byte rest =>
    by_cases here : byte = newline
    · simp [readLine, here]
    · have whole := congrArg List.length (readLine_append room rest)
      simp only [List.length_append] at whole
      simp only [readLine, here, ↓reduceIte, List.length_cons]
      omega

theorem chunksWithin_enough (room : Nat) (fuel : Nat) (stream : Bytes) (enough : stream.length ≤ fuel) :
    chunksWithin (room + 1) fuel stream = chunks (room + 1) stream := by
  induction fuel using Nat.strongRecOn generalizing stream with
  | _ fuel ih =>
    rw [chunks]
    cases stream with
    | nil => cases fuel <;> simp [chunksWithin, fgets]
    | cons byte rest =>
      have shorter := readLine_rest_length room (List.cons_ne_nil byte rest)
      simp only [List.length_cons] at enough shorter
      obtain ⟨fuel, rfl⟩ : ∃ less, fuel = less + 1 := ⟨fuel - 1, by omega⟩
      simp only [chunksWithin, fgets, reduceCtorEq, ↓reduceIte, List.length_cons]
      rw [ih fuel (by omega) _ (by omega)]
      rcases Nat.lt_or_ge rest.length (fuel + 1) with less | more
      · rw [ih rest.length (by omega) _ (by omega)]
      · omega

@[simp] theorem chunks_nil (room : Nat) : chunks room [] = [] := rfl

theorem chunks_cons (room : Nat) {stream : Bytes} (nonempty : stream ≠ []) : chunks (room + 1) stream =
    (readLine (room + 1) stream).1 :: chunks (room + 1) (readLine (room + 1) stream).2 := by
  have shorter := readLine_rest_length room nonempty
  obtain ⟨fuel, length⟩ : ∃ less, stream.length = less + 1 := ⟨stream.length - 1, by omega⟩
  rw [chunks, length, chunksWithin, fgets, if_neg nonempty]
  simp only
  rw [chunksWithin_enough room fuel _ (by omega)]

/-- A property of all chunks is one of what `readLine` returns. -/
theorem chunks_forall {room : Nat} (holds : Bytes → Prop)
    (each : ∀ stream, stream ≠ [] → holds (readLine (room + 1) stream).1) (stream : Bytes) :
    ∀ chunk ∈ chunks (room + 1) stream, holds chunk := by
  induction length : stream.length using Nat.strongRecOn generalizing stream with
  | _ count ih =>
    by_cases empty : stream = []
    · simp [empty]
    · have shorter := readLine_rest_length room empty
      rw [chunks_cons room empty]
      intro chunk member
      rcases List.mem_cons.mp member with rfl | later
      · exact each stream empty
      · exact ih _ (by omega) _ rfl chunk later

theorem chunk_length_le {room : Nat} {stream chunk : Bytes} (member : chunk ∈ chunks (room + 1) stream) :
    chunk.length ≤ room + 1 :=
  chunks_forall (fun chunk => chunk.length ≤ room + 1)
    (fun stream _ => readLine_length_le (room + 1) stream) stream chunk member

theorem chunk_newline {room : Nat} {stream chunk : Bytes} (member : chunk ∈ chunks (room + 1) stream) :
    newline ∉ chunk.dropLast :=
  chunks_forall (fun chunk => newline ∉ chunk.dropLast)
    (fun stream _ => readLine_newline (room + 1) stream) stream chunk member

/-! ### Chunks of lines -/

theorem readLine_short {room : Nat} {line : Bytes} (plain : newline ∉ line) (short : line.length < room)
    (rest : Bytes) : readLine room (line ++ newline :: rest) = (line ++ [newline], rest) := by
  induction line generalizing room with
  | nil =>
    obtain ⟨room, rfl⟩ : ∃ less, room = less + 1 := ⟨room - 1, by omega⟩
    simp [readLine]
  | cons byte more ih =>
    simp only [List.length_cons] at short
    obtain ⟨room, rfl⟩ : ∃ less, room = less + 1 := ⟨room - 1, by omega⟩
    simp only [List.mem_cons, not_or] at plain
    have less : more.length < room := by omega
    simp [readLine, Ne.symm plain.1, ih plain.2 less]

theorem readLine_full {line : Bytes} (plain : newline ∉ line) (rest : Bytes) :
    readLine line.length (line ++ rest) = (line, rest) := by
  induction line with
  | nil => simp [readLine]
  | cons byte more ih =>
    simp only [List.mem_cons, not_or] at plain
    simp [readLine, Ne.symm plain.1, ih plain.2]

/-- A line that leaves room for its newline is one chunk. -/
theorem chunks_short {room : Nat} {line : Bytes} (plain : newline ∉ line) (short : line.length < room + 1)
    (rest : Bytes) : chunks (room + 1) (line ++ newline :: rest) = (line ++ [newline]) :: chunks (room + 1) rest := by
  rw [chunks_cons room (by simp), readLine_short plain short]

/-- A line that fills the buffer leaves its newline to a chunk of its own. -/
theorem chunks_full {room : Nat} {line : Bytes} (plain : newline ∉ line) (full : line.length = room + 1)
    (rest : Bytes) : chunks (room + 1) (line ++ newline :: rest) = line :: [newline] :: chunks (room + 1) rest := by
  have read := readLine_full plain (newline :: rest)
  rw [full] at read
  have nonempty : line ++ newline :: rest ≠ [] := by simp
  rw [chunks_cons room nonempty, read, chunks_cons room (List.cons_ne_nil _ _)]
  simp [readLine]

theorem readLine_append_of_mem {text : Bytes} (ends : newline ∈ text) (room : Nat) (rest : Bytes) :
    readLine room (text ++ rest) = ((readLine room text).1, (readLine room text).2 ++ rest) := by
  induction room, text using readLine.induct with
  | case1 text => simp [readLine]
  | case2 room => simp at ends
  | case3 room more => simp [readLine]
  | case4 room byte more other ih =>
    rcases List.mem_cons.mp ends with same | later
    · exact absurd same.symm other
    · simp [readLine, other, ih later]

/-- Text that is whole lines: empty, or ending with a newline. -/
def WholeLines (text : Bytes) : Prop := text = [] ∨ text.getLast? = some newline

theorem wholeLines_line (line : Bytes) : WholeLines (line ++ [newline]) := .inr (by simp)

theorem wholeLines_suffix {text before after : Bytes} (whole : WholeLines text) (split : before ++ after = text) :
    WholeLines after := by
  by_cases empty : after = []
  · exact .inl empty
  · rcases whole with rfl | ends
    · simp_all
    · rw [← split, List.getLast?_append_of_ne_nil _ empty] at ends
      exact .inr ends

/-- Chunks never cross the end of whole lines. -/
theorem chunks_append {text : Bytes} (whole : WholeLines text) (room : Nat) (rest : Bytes) :
    chunks (room + 1) (text ++ rest) = chunks (room + 1) text ++ chunks (room + 1) rest := by
  induction length : text.length using Nat.strongRecOn generalizing text with
  | _ count ih =>
    by_cases empty : text = []
    · simp [empty]
    · have ends : newline ∈ text := by
        rcases whole with rfl | last
        · exact absurd rfl empty
        · exact List.mem_of_getLast? last
      have shorter := readLine_rest_length room empty
      have nonempty : text ++ rest ≠ [] := by simp [empty]
      rw [chunks_cons room nonempty, readLine_append_of_mem ends, chunks_cons room empty]
      simp only [List.cons_append]
      rw [ih _ (by omega) (wholeLines_suffix whole (readLine_append (room + 1) text)) rfl]

/-- A chunk that is full and has no newline is cut off, whatever follows. -/
theorem chunks_long {room : Nat} {front : Bytes} (plain : newline ∉ front) (full : front.length = room + 1)
    (rest : Bytes) : chunks (room + 1) (front ++ rest) = front :: chunks (room + 1) rest := by
  have nonempty : front ++ rest ≠ [] := by
    intro empty
    have front_nil := (List.append_eq_nil_iff.mp empty).1
    rw [front_nil] at full
    cases full
  have read := readLine_full plain rest
  rw [full] at read
  rw [chunks_cons room nonempty, read]

/-- A last line that fits is one chunk. -/
theorem chunks_last {room : Nat} {line : Bytes} (plain : newline ∉ line) (nonempty : line ≠ [])
    (fits : line.length ≤ room + 1) : chunks (room + 1) line = [line] := by
  have read : ∀ (room : Nat) (line : Bytes), newline ∉ line → line.length ≤ room → readLine room line = (line, []) := by
    intro room line
    induction room, line using readLine.induct with
    | case1 line => intro _ none; rw [List.length_eq_zero_iff.mp (Nat.le_zero.mp none)]; rfl
    | case2 room => intro _ _; rfl
    | case3 room rest => intro plain; simp at plain
    | case4 room byte rest other ih =>
      intro plain fits
      simp only [List.mem_cons, not_or, List.length_cons] at plain fits
      simp [readLine, other, ih plain.2 (by omega)]
  rw [chunks_cons room nonempty, read (room + 1) line plain fits, chunks_nil]

theorem chunks_flatten (room : Nat) (text : Bytes) : (chunks (room + 1) text).flatten = text := by
  induction length : text.length using Nat.strongRecOn generalizing text with
  | _ count ih =>
    by_cases empty : text = []
    · simp [empty]
    · have shorter := readLine_rest_length room empty
      rw [chunks_cons room empty, List.flatten_cons, ih _ (by omega) _ rfl, readLine_append]

/-! ### Lines -/

/-- The lines of a text, with their newlines; the last line may lack it. -/
def lines : Bytes → List Bytes
  | [] => []
  | byte :: rest =>
    if byte = newline then [newline] :: lines rest
    else
      match lines rest with
      | [] => [[byte]]
      | line :: more => (byte :: line) :: more

theorem lines_line {line : Bytes} (plain : newline ∉ line) (rest : Bytes) :
    lines (line ++ newline :: rest) = (line ++ [newline]) :: lines rest := by
  induction line with
  | nil => simp [lines]
  | cons byte more ih =>
    simp only [List.mem_cons, not_or] at plain
    rw [List.cons_append, lines, if_neg (Ne.symm plain.1), ih plain.2]
    rfl

theorem lines_last {line : Bytes} (plain : newline ∉ line) (nonempty : line ≠ []) : lines line = [line] := by
  induction line with
  | nil => exact absurd rfl nonempty
  | cons byte more ih =>
    simp only [List.mem_cons, not_or] at plain
    rw [lines, if_neg (Ne.symm plain.1)]
    by_cases last : more = []
    · rw [last]
      rfl
    · rw [ih plain.2 last]

/-- Texts are read line by line. -/
theorem lines_induction {holds : Bytes → Prop} (nil : holds [])
    (last : ∀ line, newline ∉ line → line ≠ [] → holds line)
    (step : ∀ line rest, newline ∉ line → holds rest → holds (line ++ newline :: rest)) (text : Bytes) :
    holds text := by
  induction length : text.length using Nat.strongRecOn generalizing text with
  | _ count ih =>
    by_cases more : newline ∈ text
    · obtain ⟨line, rest, rfl, plain⟩ := List.eq_append_cons_of_mem more
      simp only [List.length_append, List.length_cons] at length
      exact step line rest plain (ih rest.length (by omega) rest rfl)
    · by_cases empty : text = []
      · rw [empty]
        exact nil
      · exact last text more empty

theorem chunks_lines (room : Nat) (text : Bytes) :
    chunks (room + 1) text = (lines text).flatMap (chunks (room + 1)) := by
  induction text using lines_induction with
  | nil => rfl
  | last line plain nonempty => rw [lines_last plain nonempty, List.flatMap_singleton]
  | step line rest plain ih =>
    have split : line ++ newline :: rest = (line ++ [newline]) ++ rest := by simp
    rw [lines_line plain, List.flatMap_cons, ← ih, split, chunks_append (wholeLines_line line)]

/-- A line is its content, and a newline unless it is the last line. -/
theorem mem_lines {text line : Bytes} (member : line ∈ lines text) : ∃ content, newline ∉ content ∧
    (line = content ++ [newline] ∨ (line = content ∧ content ≠ [])) ∧ ∀ byte ∈ content, byte ∈ text := by
  induction text using lines_induction with
  | nil => cases member
  | last single plain nonempty =>
    rw [lines_last plain nonempty, List.mem_singleton] at member
    exact ⟨single, plain, .inr ⟨member, nonempty⟩, fun _ inside => inside⟩
  | step first rest plain ih =>
    rw [lines_line plain] at member
    rcases List.mem_cons.mp member with rfl | later
    · exact ⟨first, plain, .inl rfl, fun _ inside => List.mem_append_left _ inside⟩
    · obtain ⟨content, plainContent, shape, inside⟩ := ih later
      exact ⟨content, plainContent, shape, fun byte here => by simp [inside byte here]⟩

end Mcs.Strings
