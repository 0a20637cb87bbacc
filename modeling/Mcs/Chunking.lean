import Mcs.Meaning

/-!
Lines that are longer than the buffer. `keyfile_open` treats every buffer that
`fgets` fills as a line, so the tail of a long line is read by the same rules as a
line of its own. What is loaded is what the whole lines say, each once, exactly
when every line of the file is `Harmless` (`invisible_iff`).
-/
namespace Mcs.Chunking
open Mcs.Dictionary Mcs.Strings Mcs.Sectioned Mcs.KeyfileModel Mcs.Reading Mcs.Format Mcs.Meaning

variable {T : Type → Type} [Patricia CString T]

/-- The store that a file holds when the rules are applied once to each whole line. -/
def loadLines (bytes : Bytes) : Store CString CString CString := load ((lines bytes).filterMap chunkItem)

/-- What the buffers say that a line is read into. -/
def contributed (line : Bytes) : List (Item CString CString CString) := (chunks lineRoom line).filterMap chunkItem

/-- Opening the file gives the store of its whole lines, and every line contributes
    what it says itself, and nothing else. -/
def Invisible (T : Type → Type) [Patricia CString T] (bytes : Bytes) : Prop :=
  ∃ kf : Keyfile T, keyfileOpen (some bytes) = some kf ∧ view kf = loadLines bytes ∧
    ∀ line ∈ lines bytes, contributed line = (chunkItem line).toList

/-- The text is no header and no entry. -/
def Silent (text : Bytes) : Prop := (∀ name, ¬ HeaderChunk text name) ∧ ∀ key value, ¬ EntryChunk text key value

/-- The text of a line, without its newline, of which the buffer's size shows
    nothing. It fits the buffer; or it says nothing, and no buffer of it does; or it
    is a header that is closed in the first buffer, and the other buffers say
    nothing; or only `=` signs stand in the buffers before the last one, which does
    not begin like a header or a comment. -/
inductive Harmless (text : Bytes) : Prop where
  | fits (short : text.length ≤ lineRoom)
  | silent (whole : Silent text) (pieces : ∀ piece ∈ chunks lineRoom text, Silent piece)
  | header (name : CString) (first : HeaderChunk (text.take lineRoom) name)
      (pieces : ∀ piece ∈ chunks lineRoom (text.drop lineRoom), Silent piece)
  | padded (count : Nat) (final : Bytes) (split : text = List.replicate (count * lineRoom) equals ++ final)
      (short : final.length ≤ lineRoom) (noBracket : final.head? ≠ some openBracket)
      (noHash : final.head? ≠ some hashSign)

/-! ## What a text says -/

/-- Bytes that can be the text of a line. -/
structure Text (text : Bytes) : Prop where
  plain : newline ∉ text
  noNul : 0 ∉ text

theorem Text.of_subset {text part : Bytes} (ok : Text text) (subset : ∀ byte ∈ part, byte ∈ text) : Text part :=
  ⟨fun member => ok.plain (subset _ member), fun member => ok.noNul (subset _ member)⟩

theorem Text.piece {text piece : Bytes} (ok : Text text) (member : piece ∈ chunks lineRoom text) : Text piece := by
  apply ok.of_subset
  intro byte inPiece
  have whole := chunks_flatten 4094 text
  rw [← whole]
  exact List.mem_flatten.mpr ⟨piece, member, inPiece⟩

theorem headerChunk_iff {text : Bytes} (noNul : 0 ∉ text) (name : CString) : HeaderChunk text name ↔
    ∃ tail, text = openBracket :: name.bytes ++ closeBracket :: tail ∧ closeBracket ∉ name.bytes := by
  rw [HeaderChunk, CString.ofBuffer_of_noNul noNul]

theorem byteAt_ofBuffer {text : Bytes} (noNul : 0 ∉ text) {byte : UInt8} (nonzero : byte ≠ 0) :
    (CString.ofBuffer text).byteAt 0 = byte ↔ text.head? = some byte := by
  rw [CString.byteAt, CString.ofBuffer_of_noNul noNul]
  cases text with
  | nil => simp [Ne.symm nonzero]
  | cons first more => simp

theorem marks_ne_zero : openBracket ≠ 0 ∧ hashSign ≠ 0 := by decide

/-- No newline stands behind the `=` of an entry. -/
theorem unbroken {text : Bytes} (ok : Text text) {front rest : Bytes}
    (split : text.dropWhile (· = equals) = front ++ equals :: rest) : newline ∉ rest := by
  intro inside
  apply ok.plain
  apply (List.dropWhile_suffix (· = equals)).subset
  rw [split]
  simp [inside]

/-- An entry of the text of a line runs to its end. -/
theorem entryChunk_iff {text : Bytes} (ok : Text text) (key value : CString) : EntryChunk text key value ↔
    text.head? ≠ some openBracket ∧ text.head? ≠ some hashSign ∧
      text.dropWhile (· = equals) = key.bytes ++ equals :: value.bytes ∧ key.bytes ≠ [] ∧ equals ∉ key.bytes ∧
        value.bytes ≠ [] := by
  rw [EntryChunk, CString.ofBuffer_of_noNul ok.noNul, Ne, Ne, byteAt_ofBuffer ok.noNul marks_ne_zero.1,
    byteAt_ofBuffer ok.noNul marks_ne_zero.2]
  constructor
  · rintro ⟨noBracket, noHash, rest, split, nonempty, plain, valueIs, valueNonempty⟩
    rw [takeWhile_of_absent (unbroken ok split)] at valueIs
    rw [valueIs] at split
    exact ⟨noBracket, noHash, split, nonempty, plain, valueNonempty⟩
  · rintro ⟨noBracket, noHash, split, nonempty, plain, valueNonempty⟩
    exact ⟨noBracket, noHash, value.bytes, split, nonempty, plain, takeWhile_of_absent (unbroken ok split),
      valueNonempty⟩

theorem newline_absent {text : Bytes} (ok : Text text) (before after : Bytes)
    (split : (CString.ofBuffer text).bytes = before ++ newline :: after) : after = [] := by
  rw [CString.ofBuffer_of_noNul ok.noNul] at split
  exact absurd (by rw [split]; simp) ok.plain

theorem said_entry_iff {text : Bytes} (ok : Text text) (key value : CString) :
    chunkItem text = some (.entry key value) ↔ EntryChunk text key value :=
  chunkItem_entry_iff_of_last (newline_absent ok) key value

theorem silent_iff {text : Bytes} (ok : Text text) : Silent text ↔ chunkItem text = none := by
  unfold Silent
  simp only [← chunkItem_header_iff, ← said_entry_iff ok]
  cases said : chunkItem text with
  | none => simp
  | some item => cases item <;> simp

/-! ## The newline at the end -/

theorem text_line {text : Bytes} (ok : Text text) (before after : Bytes)
    (split : (CString.ofBuffer (text ++ [newline])).bytes = before ++ newline :: after) : after = [] := by
  have noNul : 0 ∉ text ++ [newline] := by simp [ok.noNul, newline]
  rw [CString.ofBuffer_of_noNul noNul] at split
  exact newline_last (by simpa using ok.plain) split

theorem header_concat_newline {text : Bytes} (ok : Text text) (name : CString) :
    HeaderChunk (text ++ [newline]) name ↔ HeaderChunk text name := by
  have noNul : 0 ∉ text ++ [newline] := by simp [ok.noNul, newline]
  rw [headerChunk_iff noNul, headerChunk_iff ok.noNul]
  constructor
  · rintro ⟨tail, split, plain⟩
    cases tail using List.reverseRecOn with
    | nil =>
      obtain ⟨_, last⟩ := List.append_inj' split rfl
      exact absurd last (by decide)
    | append_singleton tail byte =>
      rw [← List.cons_append, ← List.append_assoc] at split
      exact ⟨tail, (List.append_inj' split rfl).1, plain⟩
  · rintro ⟨tail, rfl, plain⟩
    exact ⟨tail ++ [newline], by simp, plain⟩

theorem entry_concat_newline {text : Bytes} (ok : Text text) (key value : CString) :
    EntryChunk (text ++ [newline]) key value ↔ EntryChunk text key value := by
  have noNul : 0 ∉ text ++ [newline] := by simp [ok.noNul, newline]
  rw [entryChunk_iff ok, EntryChunk, CString.ofBuffer_of_noNul noNul, Ne, Ne, byteAt_ofBuffer noNul marks_ne_zero.1,
    byteAt_ofBuffer noNul marks_ne_zero.2, List.dropWhile_append]
  by_cases start : text.dropWhile (· = equals) = []
  · -- Only `=` signs: the newline alone is no entry either.
    have alone : [newline].dropWhile (· = equals) = [newline] := by decide
    simp only [start, List.isEmpty_nil, ↓reduceIte, alone]
    constructor
    · rintro ⟨_, _, rest, split, nonempty, _⟩
      have lengths := congrArg List.length split
      have positive := List.length_pos_iff.mpr nonempty
      simp only [List.length_append, List.length_cons, List.length_nil] at lengths
      omega
    · rintro ⟨_, _, split, _⟩
      simp at split
  · have head : (text ++ [newline]).head? = text.head? := by
      cases text with
      | nil => exact absurd rfl start
      | cons byte more => rfl
    rw [head, if_neg (by simpa using start)]
    refine and_congr_right fun _ => and_congr_right fun _ => ?_
    constructor
    · rintro ⟨rest, split, nonempty, plain, valueIs, valueNonempty⟩
      cases rest using List.reverseRecOn with
      | nil =>
        obtain ⟨_, last⟩ := List.append_inj' split rfl
        exact absurd last (by decide)
      | append_singleton rest byte =>
        rw [← List.cons_append, ← List.append_assoc] at split
        obtain ⟨front, last⟩ := List.append_inj' split rfl
        rw [← last, (takeWhile_stop (unbroken ok front) []).1] at valueIs
        rw [valueIs] at front
        exact ⟨front, nonempty, plain, valueNonempty⟩
    · rintro ⟨split, nonempty, plain, valueNonempty⟩
      exact ⟨value.bytes ++ [newline], by simp [split], nonempty, plain,
        (takeWhile_stop (unbroken ok split) []).1, valueNonempty⟩

/-- A newline at the end of a line adds nothing to what it says. -/
theorem chunkItem_concat_newline {text : Bytes} (ok : Text text) :
    chunkItem (text ++ [newline]) = chunkItem text := by
  ext item
  cases item with
  | header name => rw [chunkItem_header_iff, chunkItem_header_iff, header_concat_newline ok]
  | entry key value =>
    rw [chunkItem_entry_iff_of_last (text_line ok), said_entry_iff ok, entry_concat_newline ok]

/-! ## Buffer by buffer -/

theorem chunks_cut {text : Bytes} (ok : Text text) (long : lineRoom < text.length) (ending : Bytes) :
    chunks lineRoom (text ++ ending) = text.take lineRoom :: chunks lineRoom (text.drop lineRoom ++ ending) := by
  have plain : newline ∉ text.take lineRoom := fun inside => ok.plain (List.mem_of_mem_take inside)
  have full : (text.take lineRoom).length = 4094 + 1 := by
    rw [List.length_take]
    exact Nat.min_eq_left (Nat.le_of_lt long)
  have split : text ++ ending = text.take lineRoom ++ (text.drop lineRoom ++ ending) := by
    rw [← List.append_assoc, List.take_append_drop]
  rw [split]
  exact chunks_long plain full _

/-- A line that fits contributes what it says. -/
theorem contributed_short {text : Bytes} (ok : Text text) (short : text.length ≤ lineRoom) :
    contributed text = (chunkItem text).toList := by
  by_cases empty : text = []
  · rw [empty]
    decide
  · have one : chunks lineRoom text = [text] := chunks_last ok.plain empty short
    rw [contributed, one]
    cases said : chunkItem text <;> simp [said]

/-- A line that does not fit contributes what its first buffer and the rest say. -/
theorem contributed_cut {text : Bytes} (ok : Text text) (long : lineRoom < text.length) :
    contributed text = (chunkItem (text.take lineRoom)).toList ++ contributed (text.drop lineRoom) := by
  have cut := chunks_cut ok long []
  rw [List.append_nil, List.append_nil] at cut
  rw [contributed, cut]
  cases said : chunkItem (text.take lineRoom) <;> simp [contributed, said]

/-- The newline at the end of a line contributes nothing, in whatever buffer it is. -/
theorem contributed_newline {text : Bytes} (ok : Text text) : contributed (text ++ [newline]) = contributed text := by
  induction length : text.length using Nat.strongRecOn generalizing text with
  | _ count ih =>
    rcases Nat.lt_or_ge lineRoom text.length with long | short
    · have shorter : (text.drop lineRoom).length < count := by
        rw [List.length_drop, lineRoom_eq] at *
        omega
      have rest := ih _ shorter (ok.of_subset fun _ => List.mem_of_mem_drop) rfl
      rw [contributed_cut ok long, ← rest, contributed, chunks_cut ok long]
      cases said : chunkItem (text.take lineRoom) <;> simp [contributed, said]
    · rw [contributed_short ok short, contributed]
      have said := chunkItem_concat_newline ok
      rcases chunks_line ok.plain short with one | two
      · rw [one]
        cases own : chunkItem text <;> simp [said, own]
      · rw [two]
        cases own : chunkItem text <;> simp [chunkItem_newline, own]

/-! ## Harmless lines -/

theorem contributed_eq_nil_iff (text : Bytes) :
    contributed text = [] ↔ ∀ piece ∈ chunks lineRoom text, chunkItem piece = none := List.filterMap_eq_nil_iff

theorem dropWhile_equals (count : Nat) (text : Bytes) :
    (List.replicate count equals ++ text).dropWhile (· = equals) = text.dropWhile (· = equals) :=
  List.dropWhile_append_of_pos fun byte member => by simp [List.eq_of_mem_replicate member]

theorem Text.padded {text : Bytes} (ok : Text text) (count : Nat) : Text (List.replicate count equals ++ text) := by
  have others : newline ≠ equals ∧ 0 ≠ equals := by decide
  exact ⟨by simp [ok.plain, others], by simp [ok.noNul, others]⟩

/-- Leading `=` signs add nothing to what a text says, unless it was marked. -/
theorem chunkItem_equals {text : Bytes} (ok : Text text) (noBracket : text.head? ≠ some openBracket)
    (noHash : text.head? ≠ some hashSign) (count : Nat) :
    chunkItem (List.replicate count equals ++ text) = chunkItem text := by
  cases count with
  | zero => rfl
  | succ count =>
    have okPadded := ok.padded (count + 1)
    have signs : (List.replicate (count + 1) equals ++ text).head? = some equals := rfl
    have marks : equals ≠ openBracket ∧ equals ≠ hashSign := by decide
    have noHeader : ∀ {text : Bytes}, text.head? ≠ some openBracket → 0 ∉ text → ∀ name, ¬ HeaderChunk text name := by
      intro text first noNul name named
      obtain ⟨tail, rfl, _⟩ := (headerChunk_iff noNul name).mp named
      exact first rfl
    ext item
    cases item with
    | header name =>
      rw [chunkItem_header_iff, chunkItem_header_iff]
      refine iff_of_false (noHeader ?_ okPadded.noNul name) (noHeader noBracket ok.noNul name)
      rw [signs]
      exact fun same => marks.1 (Option.some.inj same)
    | entry key value =>
      rw [said_entry_iff okPadded, said_entry_iff ok, entryChunk_iff okPadded, entryChunk_iff ok, dropWhile_equals, signs]
      simp [noBracket, noHash, marks]

/-- A header that is closed in the first buffer is the header of the line. -/
theorem header_of_take {text : Bytes} (ok : Text text) {name : CString} (first : HeaderChunk (text.take lineRoom) name) :
    HeaderChunk text name := by
  have noNul : 0 ∉ text.take lineRoom := fun inside => ok.noNul (List.mem_of_mem_take inside)
  obtain ⟨tail, split, plain⟩ := (headerChunk_iff noNul name).mp first
  rw [headerChunk_iff ok.noNul]
  refine ⟨tail ++ text.drop lineRoom, ?_, plain⟩
  have whole := List.take_append_drop lineRoom text
  rw [split] at whole
  simpa using whole.symm

/-- A header whose name fits the first buffer is closed in it. -/
theorem take_of_header {text : Bytes} (ok : Text text) {name : CString} (named : HeaderChunk text name)
    (fits : name.bytes.length + 2 ≤ lineRoom) : HeaderChunk (text.take lineRoom) name := by
  have noNul : 0 ∉ text.take lineRoom := fun inside => ok.noNul (List.mem_of_mem_take inside)
  obtain ⟨tail, split, plain⟩ := (headerChunk_iff ok.noNul name).mp named
  rw [headerChunk_iff noNul]
  refine ⟨tail.take (lineRoom - (name.bytes.length + 2)), ?_, plain⟩
  have regroup : text = (openBracket :: name.bytes ++ [closeBracket]) ++ tail := by simp [split]
  have length : (openBracket :: name.bytes ++ [closeBracket]).length = name.bytes.length + 2 := by simp
  rw [regroup, List.take_append, length, List.take_of_length_le (by rw [length]; exact fits)]
  simp

theorem contributed_padded {count : Nat} {final : Bytes} (ok : Text final) (short : final.length ≤ lineRoom) :
    contributed (List.replicate (count * lineRoom) equals ++ final) = (chunkItem final).toList := by
  induction count with
  | zero =>
    rw [Nat.zero_mul, List.replicate_zero, List.nil_append]
    exact contributed_short ok short
  | succ count ih =>
    have okPadded := ok.padded (count * lineRoom)
    have okAll := okPadded.padded lineRoom
    have onlySigns : chunkItem (List.replicate lineRoom equals) = none := by
      have empty : chunkItem (List.replicate lineRoom equals ++ []) = chunkItem [] :=
        chunkItem_equals ⟨by simp, by simp⟩ (by simp) (by simp) lineRoom
      rw [List.append_nil] at empty
      rw [empty]
      decide
    have regroup : List.replicate ((count + 1) * lineRoom) equals ++ final =
        List.replicate lineRoom equals ++ (List.replicate (count * lineRoom) equals ++ final) := by
      rw [← List.append_assoc, List.replicate_append_replicate, Nat.succ_mul, Nat.add_comm lineRoom]
    have full : (List.replicate lineRoom equals).length = lineRoom := List.length_replicate
    rw [regroup]
    rcases Nat.lt_or_ge lineRoom
      (List.replicate lineRoom equals ++ (List.replicate (count * lineRoom) equals ++ final)).length with long | fits
    · rw [contributed_cut okAll long, List.take_left' full, List.drop_left' full, onlySigns, ih]
      rfl
    · rw [List.length_append, full] at fits
      have rest : List.replicate (count * lineRoom) equals ++ final = [] := List.length_eq_zero_iff.mp (by omega)
      rw [rest] at okAll ⊢
      rw [contributed_short okAll (by rw [List.append_nil, full]), (List.append_eq_nil_iff.mp rest).2,
        List.append_nil, onlySigns]
      decide

/-- Signs fill the first buffer of a line where enough of it stands behind them. -/
theorem take_signs {text : Bytes} {count : Nat}
    (late : count + (text.dropWhile (· = equals)).length ≤ text.length) :
    text.take count = List.replicate count equals := by
  have whole := List.takeWhile_append_dropWhile (p := fun byte => decide (byte = equals)) (l := text)
  have halves := congrArg List.length whole
  rw [List.length_append] at halves
  rw [List.eq_replicate_iff]
  constructor
  · rw [List.length_take]
    omega
  · intro byte inTake
    rw [← whole, List.take_append_of_le_length (by omega)] at inTake
    simpa using List.mem_takeWhile_imp (List.mem_of_mem_take inTake)

/-- The first buffer of a long line does not have the whole entry. -/
theorem dropWhile_take_ne {text rest : Bytes} (long : lineRoom < text.length)
    (own : text.dropWhile (· = equals) = rest) (some : rest ≠ []) :
    (text.take lineRoom).dropWhile (· = equals) ≠ rest := by
  intro early
  have both : text.dropWhile (· = equals) = (text.take lineRoom).dropWhile (· = equals) ++ text.drop lineRoom := by
    conv_lhs => rw [← List.take_append_drop lineRoom text]
    rw [List.dropWhile_append, if_neg (by simpa [early] using some)]
  rw [own, early] at both
  have lengths := congrArg List.length (List.self_eq_append_right.mp both)
  rw [List.length_drop, List.length_nil] at lengths
  omega

/-- What one buffer says of a line that says the same is read behind nothing but
    `=` signs. The induction takes a buffer of them off the line. -/
theorem padded_of_piece {text piece : Bytes} (ok : Text text) (member : piece ∈ chunks lineRoom text)
    {key value : CString} (said : EntryChunk piece key value)
    (own : text.dropWhile (· = equals) = key.bytes ++ equals :: value.bytes) :
    ∃ count final, text = List.replicate (count * lineRoom) equals ++ final ∧ final.length ≤ lineRoom ∧
      final.head? ≠ some openBracket ∧ final.head? ≠ some hashSign := by
  induction length : text.length using Nat.strongRecOn generalizing text with
  | _ bound ih =>
    obtain ⟨noBracket, noHash, split, nonempty, plain, valueNonempty⟩ := (entryChunk_iff (ok.piece member) _ _).mp said
    rcases Nat.lt_or_ge lineRoom text.length with long | short
    · have cut := chunks_cut ok long []
      rw [List.append_nil, List.append_nil] at cut
      rw [cut] at member
      rcases List.mem_cons.mp member with rfl | later
      · exact absurd split (dropWhile_take_ne long own (by simp))
      · have within : piece.length ≤ (text.drop lineRoom).length := by
          have inside := (List.sublist_flatten_of_mem later).length_le
          rwa [lineRoom_eq, chunks_flatten] at inside
        have suffix := (List.dropWhile_suffix (fun byte => decide (byte = equals)) (l := piece)).length_le
        rw [split] at suffix
        rw [List.length_drop] at within
        have signs : text.take lineRoom = List.replicate lineRoom equals := take_signs (by rw [own]; omega)
        have whole := List.take_append_drop lineRoom text
        have ownRest : (text.drop lineRoom).dropWhile (· = equals) = key.bytes ++ equals :: value.bytes := by
          rw [← own, ← dropWhile_equals lineRoom (text.drop lineRoom), ← signs, whole]
        have okRest : Text (text.drop lineRoom) := ok.of_subset fun _ => List.mem_of_mem_drop
        have shorter : (text.drop lineRoom).length < bound := by
          rw [List.length_drop, ← length]
          exact Nat.sub_lt (Nat.lt_of_le_of_lt (Nat.zero_le _) long) (by decide)
        obtain ⟨count, final, restIs, fits, noBracket, noHash⟩ := ih _ shorter okRest later ownRest rfl
        refine ⟨count + 1, final, ?_, fits, noBracket, noHash⟩
        rw [Nat.succ_mul, Nat.add_comm, ← List.replicate_append_replicate, List.append_assoc, ← restIs, ← signs, whole]
    · by_cases empty : text = []
      · rw [empty] at member
        cases member
      · have one : chunks lineRoom text = [text] := chunks_last ok.plain empty short
        rw [one, List.mem_singleton] at member
        subst member
        exact ⟨0, piece, by simp, short, noBracket, noHash⟩

theorem contributed_of_harmless {text : Bytes} (ok : Text text) (harmless : Harmless text) :
    contributed text = (chunkItem text).toList := by
  cases harmless with
  | fits short => exact contributed_short ok short
  | silent whole pieces =>
    rw [(silent_iff ok).mp whole]
    exact (contributed_eq_nil_iff text).mpr fun piece member => (silent_iff (ok.piece member)).mp (pieces piece member)
  | header name first pieces =>
    rcases Nat.lt_or_ge lineRoom text.length with long | short
    · have okRest : Text (text.drop lineRoom) := ok.of_subset fun _ => List.mem_of_mem_drop
      have rest : contributed (text.drop lineRoom) = [] := (contributed_eq_nil_iff _).mpr fun piece member =>
        (silent_iff (okRest.piece member)).mp (pieces piece member)
      rw [contributed_cut ok long, rest, (chunkItem_header_iff _ name).mpr first,
        (chunkItem_header_iff _ name).mpr (header_of_take ok first)]
      rfl
    · exact contributed_short ok short
  | padded count final split short noBracket noHash =>
    have okFinal : Text final := ok.of_subset fun byte member => by rw [split]; simp [member]
    rw [split, contributed_padded okFinal short, chunkItem_equals okFinal noBracket noHash]

theorem harmless_of_contributed {text : Bytes} (ok : Text text) (same : contributed text = (chunkItem text).toList) :
    Harmless text := by
  rcases Nat.lt_or_ge lineRoom text.length with long | short
  · cases own : chunkItem text with
    | none =>
      rw [own] at same
      refine .silent ((silent_iff ok).mpr own) fun piece member => (silent_iff (ok.piece member)).mpr ?_
      exact (contributed_eq_nil_iff text).mp same piece member
    | some item =>
      rw [own] at same
      cases item with
      | header name =>
        have named := (chunkItem_header_iff text name).mp own
        rw [contributed_cut ok long] at same
        cases first : chunkItem (text.take lineRoom) with
        | some item =>
          rw [first] at same
          obtain ⟨rfl, none⟩ := List.cons.inj same
          have okRest : Text (text.drop lineRoom) := ok.of_subset fun _ => List.mem_of_mem_drop
          refine .header name ((chunkItem_header_iff _ name).mp first) fun piece member => ?_
          exact (silent_iff (okRest.piece member)).mpr ((contributed_eq_nil_iff _).mp none piece member)
        | none =>
          -- A later buffer cannot hold a name that the first one does not close.
          rw [first] at same
          have rest : contributed (text.drop lineRoom) = [Item.header name] := same
          have said : Item.header name ∈ contributed (text.drop lineRoom) := by
            rw [rest]
            exact List.mem_singleton.mpr rfl
          have short := (header_sectionOk said).fits
          have closed := take_of_header ok named (by rw [lineRoom_eq]; omega)
          rw [(chunkItem_header_iff _ name).mpr closed] at first
          cases first
      | entry key value =>
        have said : Item.entry key value ∈ contributed text := by
          rw [same]
          exact List.mem_singleton.mpr rfl
        obtain ⟨piece, member, inPiece⟩ := List.mem_filterMap.mp said
        obtain ⟨_, _, split, _⟩ := (entryChunk_iff ok key value).mp ((said_entry_iff ok key value).mp own)
        obtain ⟨count, final, textIs, fits, noBracket, noHash⟩ :=
          padded_of_piece ok member ((said_entry_iff (ok.piece member) key value).mp inPiece) split
        exact .padded count final textIs fits noBracket noHash
  · exact .fits short

/-- Of a line, the buffer's size shows nothing exactly when it is harmless. -/
theorem contributed_iff {text : Bytes} (ok : Text text) :
    contributed text = (chunkItem text).toList ↔ Harmless text :=
  ⟨harmless_of_contributed ok, contributed_of_harmless ok⟩

/-! ## Files -/

theorem contributed_line_iff {bytes line : Bytes} (noNul : 0 ∉ bytes) (member : line ∈ lines bytes) :
    contributed line = (chunkItem line).toList ↔ Harmless (line.takeWhile (· ≠ newline)) := by
  obtain ⟨content, plain, shape, inside⟩ := mem_lines member
  have ok : Text content := ⟨plain, fun nul => noNul (inside 0 nul)⟩
  rcases shape with rfl | ⟨rfl, _⟩
  · rw [(takeWhile_stop plain []).1, contributed_newline ok, chunkItem_concat_newline ok]
    exact contributed_iff ok
  · rw [takeWhile_of_absent plain]
    exact contributed_iff ok

theorem itemsOf_lines (bytes : Bytes) : itemsOf bytes = (lines bytes).flatMap contributed := by
  rw [itemsOf, lineRoom_eq, chunks_lines, List.filterMap_flatMap]
  rfl

/-- Of a file without NUL the buffer's size shows nothing exactly when each of its
    lines is harmless. -/
theorem invisible_iff {bytes : Bytes} (noNul : 0 ∉ bytes) :
    Invisible T bytes ↔ ∀ line ∈ lines bytes, Harmless (line.takeWhile (· ≠ newline)) := by
  constructor
  · rintro ⟨_, _, _, each⟩ line member
    exact (contributed_line_iff noNul member).mp (each line member)
  · intro harmless
    have each : ∀ line ∈ lines bytes, contributed line = (chunkItem line).toList := fun line member =>
      (contributed_line_iff noNul member).mpr (harmless line member)
    obtain ⟨kf, executed, loaded⟩ := keyfileOpen_total_correct (T := T) (some bytes)
    refine ⟨kf, executed, ?_, each⟩
    have items : itemsOf bytes = (lines bytes).filterMap chunkItem := by
      rw [itemsOf_lines, List.flatMap_congr each, List.filterMap_eq_flatMap_toList]
    rw [loaded, loadFile, loadLines, items]

/-! ### A long comment -/

/-- A line that begins with `#` says nothing. -/
theorem chunkItem_comment {text : Bytes} (noNul : 0 ∉ text) (comment : text.head? = some hashSign) :
    chunkItem text = none := by
  have first := (byteAt_ofBuffer noNul marks_ne_zero.2).mpr comment
  rw [chunkItem, itemOf, first]
  rfl

/-- A buffer of `=` signs, `a=b` and the end of the line. -/
def paddedEntry : Bytes := List.replicate lineRoom equals ++ [97, 61, 98]

/-- A file of one line that is longer than the buffer is read as its line. -/
theorem invisible_iff_padded : Invisible (Assoc false CString) (paddedEntry ++ [newline]) := by
  have absent : ∀ stop, stop ∉ [equals, 97, 61, 98] → stop ∉ paddedEntry := by
    intro stop outside inside
    rcases List.mem_append.mp inside with front | back
    · rw [List.eq_of_mem_replicate front] at outside
      exact outside List.mem_cons_self
    · exact outside (List.mem_cons_of_mem _ back)
  have plain : newline ∉ paddedEntry := absent newline (by decide)
  have noNul : 0 ∉ paddedEntry := absent 0 (by decide)
  refine (invisible_iff (by simp [noNul, newline])).mpr ?_
  intro line member
  rw [lines_line plain [], List.mem_cons] at member
  rcases member with rfl | other
  · rw [(takeWhile_stop plain []).1]
    exact .padded 1 [97, 61, 98] (by rw [paddedEntry, Nat.one_mul]) (by decide) (by decide) (by decide)
  · exact absurd other List.not_mem_nil

/-- The text of a comment: `#`, so often `x` that the buffer is full, and `[s]`. -/
def longComment : Bytes := (hashSign :: List.replicate 4094 120) ++ [91, 115, 93]

/-- The tail of the comment opens a section. -/
theorem longComment_opens : ¬ ∀ bytes : Bytes, 0 ∉ bytes → Invisible (Assoc false CString) bytes := by
  intro always
  have absent : ∀ stop, stop ∉ [hashSign, 120, 91, 115, 93] → stop ∉ longComment := by
    intro stop outside inside
    apply outside
    rcases List.mem_append.mp inside with front | back
    · rcases List.mem_cons.mp front with rfl | letter
      · exact List.mem_cons_self
      · rw [List.eq_of_mem_replicate letter]
        exact List.mem_cons_of_mem _ List.mem_cons_self
    · exact List.mem_cons_of_mem _ (List.mem_cons_of_mem _ back)
  have plain : newline ∉ longComment := absent newline (by decide)
  have noNul : 0 ∉ longComment := absent 0 (by decide)
  have noNulLine : 0 ∉ longComment ++ [newline] := by simp [noNul, newline]
  obtain ⟨_, _, _, each⟩ := always (longComment ++ [newline]) noNulLine
  have same := each (longComment ++ [newline]) (by rw [lines_line plain []]; exact List.mem_cons_self)
  have front : newline ∉ hashSign :: List.replicate 4094 120 := fun inside => plain (List.mem_append_left _ inside)
  have full : (hashSign :: List.replicate 4094 120).length = 4094 + 1 := by
    rw [List.length_cons, List.length_replicate]
  have tail : [91, 115, 93] ++ [newline] ∈ chunks lineRoom (longComment ++ [newline]) := by
    rw [longComment, List.append_assoc, lineRoom_eq, chunks_long front full]
    exact List.mem_cons_of_mem _ (by decide)
  have opened : Item.header RoundTrip.nameS ∈ contributed (longComment ++ [newline]) :=
    List.mem_filterMap.mpr ⟨_, tail, by decide⟩
  rw [same, chunkItem_comment noNulLine rfl] at opened
  cases opened

end Mcs.Chunking
