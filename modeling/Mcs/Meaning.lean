import Mcs.RoundTrip

/-!
What loading a file means, said of its chunks alone. A chunk is a header of one
name, an entry of one key and value, or neither; a section exists where a header
names it, and a key has the value of the first entry for it whose nearest header
names the section (`keyfileOpen_meaning`). Whatever the bytes are, opening hands
over no null key, adds nothing before a header, and loads only what one chunk can
hold (`keyfileOpen_wellFormed`).
-/
namespace Mcs.Meaning
open Mcs.Dictionary Mcs.Dictionary.Patricia Mcs.Strings Mcs.Sectioned Mcs.KeyfileModel Mcs.Reading Mcs.Format
open Mcs.RoundTrip

/-! ## Headers and entries -/

/-- The chunk begins with `[` and contains `]`; the name lies between the first two. -/
def HeaderChunk (chunk : Bytes) (name : CString) : Prop :=
  ∃ tail, (CString.ofBuffer chunk).bytes = openBracket :: name.bytes ++ closeBracket :: tail ∧
    closeBracket ∉ name.bytes

/-- The chunk begins with neither `[` nor `#`, and is `key=rest` once leading `=`
    signs are dropped; the value is the rest up to the newline. -/
def EntryChunk (chunk : Bytes) (key value : CString) : Prop :=
  (CString.ofBuffer chunk).byteAt 0 ≠ openBracket ∧ (CString.ofBuffer chunk).byteAt 0 ≠ hashSign ∧
    ∃ rest, (CString.ofBuffer chunk).bytes.dropWhile (· = equals) = key.bytes ++ equals :: rest ∧
      key.bytes ≠ [] ∧ equals ∉ key.bytes ∧ rest.takeWhile (· ≠ newline) = value.bytes ∧ value.bytes ≠ []

/-- The nearest header chunk before this place names the section. -/
def NearestHeader (before : List Bytes) (sect : CString) : Prop :=
  ∃ earlier header between, before = earlier ++ header :: between ∧ HeaderChunk header sect ∧
    ∀ chunk ∈ between, ∀ name, ¬ HeaderChunk chunk name

/-- The first entry chunk for the key under the nearest header of the section has
    this value. -/
def FirstValue (file : List Bytes) (sect key value : CString) : Prop :=
  ∃ before chunk after, file = before ++ chunk :: after ∧ NearestHeader before sect ∧ EntryChunk chunk key value ∧
    ∀ earlier other later, before = earlier ++ other :: later → NearestHeader earlier sect →
      ∀ found, ¬ EntryChunk other key found

theorem strtok_token_iff (s : CString) (delim : UInt8) (token : CString) :
    (strtok s [delim]).1 = some token ↔
      token.bytes ≠ [] ∧ (s.bytes.dropWhile (· = delim)).takeWhile (· ≠ delim) = token.bytes := by
  have same : s.bytes.dropWhile (· ∈ [delim]) = s.bytes.dropWhile (· = delim) := by simp
  constructor
  · intro found
    obtain ⟨_, _, _, _, nonempty, _⟩ := strtok_some found
    refine ⟨nonempty, ?_⟩
    by_cases start : s.bytes.dropWhile (· ∈ [delim]) = []
    · rw [strtok_of_nil start] at found
      cases found
    · obtain ⟨first, rest, executed, tokenIs, _⟩ := strtok_of_ne_nil start
      rw [executed] at found
      cases found
      rw [tokenIs, same]
      simp
  · rintro ⟨nonempty, text⟩
    have start : s.bytes.dropWhile (· ∈ [delim]) ≠ [] := by
      intro none
      rw [← same, none] at text
      exact nonempty text.symm
    obtain ⟨first, rest, executed, tokenIs, _⟩ := strtok_of_ne_nil start
    rw [executed, Option.some.injEq]
    ext1
    rw [tokenIs, ← text, same]
    simp

theorem strtok_rest (s : CString) (delim : UInt8) :
    (strtok s [delim]).2.bytes = ((s.bytes.dropWhile (· = delim)).dropWhile (· ≠ delim)).drop 1 := by
  have same : s.bytes.dropWhile (· ∈ [delim]) = s.bytes.dropWhile (· = delim) := by simp
  by_cases start : s.bytes.dropWhile (· ∈ [delim]) = []
  · rw [strtok_of_nil start, ← same, start]
    rfl
  · obtain ⟨first, rest, executed, _, restIs⟩ := strtok_of_ne_nil start
    rw [executed, restIs, same]
    simp

theorem chunkItem_header_iff (chunk : Bytes) (name : CString) :
    chunkItem chunk = some (.header name) ↔ HeaderChunk chunk name := by
  constructor
  · exact itemOf_header
  · rintro ⟨tail, split, plain⟩
    have said := chunkItem_header plain tail
    rw [← split] at said
    have same : CString.ofBuffer (CString.ofBuffer chunk).bytes = CString.ofBuffer chunk :=
      CString.ext (CString.ofBuffer_of_noNul (CString.ofBuffer chunk).noNul)
    rwa [chunkItem, same] at said

/-- A buffer is an entry where it is no header, no comment, and both tokens are there. -/
theorem itemOf_entry_iff (buffer key value : CString) :
    itemOf buffer = some (.entry key value) ↔ buffer.byteAt 0 ≠ openBracket ∧ buffer.byteAt 0 ≠ hashSign ∧
      (strtok buffer [equals]).1 = some key ∧ (strtok (strtok buffer [equals]).2 [newline]).1 = some value := by
  unfold itemOf
  by_cases bracket : buffer.byteAt 0 = openBracket
  · simp [bracket]
  · by_cases comment : buffer.byteAt 0 = hashSign
    · simp [comment]
    · cases (strtok buffer [equals]).1 <;> cases (strtok (strtok buffer [equals]).2 [newline]).1 <;>
        simp [bracket, comment]

theorem takeWhile_stop {before : Bytes} {stop : UInt8} (plain : stop ∉ before) (rest : Bytes) :
    (before ++ stop :: rest).takeWhile (· ≠ stop) = before ∧
      (before ++ stop :: rest).dropWhile (· ≠ stop) = stop :: rest := by
  have inside : ∀ byte ∈ before, decide (byte ≠ stop) = true :=
    List.takeWhile_eq_self_iff.mp (takeWhile_of_absent plain)
  rw [List.takeWhile_append_of_pos inside, List.dropWhile_append_of_pos inside]
  simp

/-- The byte that a search stops at is the first one of its kind. -/
theorem split_of_stop {text before rest : Bytes} {stop first : UInt8} (front : text.takeWhile (· ≠ stop) = before)
    (behind : text.dropWhile (· ≠ stop) = first :: rest) : text = before ++ stop :: rest ∧ stop ∉ before := by
  have ends := List.head?_dropWhile_not (fun byte => decide (byte ≠ stop)) text
  rw [behind] at ends
  have here : first = stop := by simpa using ends
  have whole := List.takeWhile_append_dropWhile (p := fun byte => decide (byte ≠ stop)) (l := text)
  rw [front, behind, here] at whole
  refine ⟨whole.symm, fun inside => ?_⟩
  rw [← front] at inside
  simpa using List.mem_takeWhile_imp inside

/-- Where only the last byte can be a newline, none is skipped before a value. -/
theorem gapless {bytes text rest : Bytes} (last : ∀ before after, bytes = before ++ newline :: after → after = [])
    (split : bytes.dropWhile (· = equals) = text ++ equals :: rest) :
    (rest.dropWhile (· = newline)).takeWhile (· ≠ newline) = rest.takeWhile (· ≠ newline) := by
  cases rest with
  | nil => rfl
  | cons byte more =>
    by_cases here : byte = newline
    · have whole := List.takeWhile_append_dropWhile (p := fun byte => decide (byte = equals)) (l := bytes)
      have ended : more = [] := by
        apply last (bytes.takeWhile (· = equals) ++ (text ++ [equals]))
        rw [split, here] at whole
        simpa using whole.symm
      rw [here, ended]
      rfl
    · rw [List.dropWhile_cons_of_neg (by simpa using here)]

theorem chunkItem_entry_iff_of_last {chunk : Bytes}
    (last : ∀ before after, (CString.ofBuffer chunk).bytes = before ++ newline :: after → after = [])
    (key value : CString) : chunkItem chunk = some (.entry key value) ↔ EntryChunk chunk key value := by
  unfold chunkItem EntryChunk
  generalize CString.ofBuffer chunk = buffer at last ⊢
  rw [itemOf_entry_iff, strtok_token_iff, strtok_token_iff, strtok_rest]
  constructor
  · rintro ⟨noBracket, noHash, ⟨keyNonempty, keyIs⟩, valueNonempty, valueIs⟩
    refine ⟨noBracket, noHash, ?_⟩
    cases after : (buffer.bytes.dropWhile (· = equals)).dropWhile (· ≠ equals) with
    | nil =>
      rw [after] at valueIs
      exact absurd valueIs.symm valueNonempty
    | cons sign rest =>
      obtain ⟨split, plain⟩ := split_of_stop keyIs after
      rw [after] at valueIs
      refine ⟨rest, split, keyNonempty, plain, ?_, valueNonempty⟩
      rw [← gapless last split]
      exact valueIs
  · rintro ⟨noBracket, noHash, rest, split, keyNonempty, plain, valueIs, valueNonempty⟩
    obtain ⟨keyIs, restIs⟩ := takeWhile_stop plain rest
    refine ⟨noBracket, noHash, ⟨keyNonempty, by rw [split, keyIs]⟩, valueNonempty, ?_⟩
    rw [split, restIs, List.drop_one, List.tail_cons, gapless last split]
    exact valueIs

theorem chunkItem_entry_iff {file chunk : Bytes} (member : chunk ∈ chunks lineRoom file) (key value : CString) :
    chunkItem chunk = some (.entry key value) ↔ EntryChunk chunk key value :=
  chunkItem_entry_iff_of_last (buffer_spec member).2 key value

/-! ## Files -/

/-- Where an item stands among what the chunks say, a chunk stands that says it. -/
theorem items_split_iff (file : List Bytes) (front back : List (Item CString CString CString))
    (item : Item CString CString CString) :
    file.filterMap chunkItem = front ++ item :: back ↔ ∃ before chunk after, file = before ++ chunk :: after ∧
      before.filterMap chunkItem = front ∧ chunkItem chunk = some item ∧ after.filterMap chunkItem = back := by
  constructor
  · intro split
    obtain ⟨earlier, later, rfl, frontIs, laterIs⟩ := List.filterMap_eq_append_iff.mp split
    obtain ⟨silent, chunk, after, rfl, none, said, backIs⟩ := List.filterMap_eq_cons_iff.mp laterIs
    refine ⟨earlier ++ silent, chunk, after, by simp, ?_, said, backIs⟩
    rw [List.filterMap_append, frontIs, List.filterMap_eq_nil_iff.mpr none, List.append_nil]
  · rintro ⟨before, chunk, after, rfl, frontIs, said, backIs⟩
    rw [List.filterMap_append, List.filterMap_cons_some said, frontIs, backIs]

theorem nearestHeader_iff (before : List Bytes) (sect : CString) :
    NearestHeader before sect ↔ currentAfter none (before.filterMap chunkItem) = some sect := by
  rw [currentAfter_eq_some_iff]
  constructor
  · rintro ⟨earlier, header, between, rfl, named, plain⟩
    refine ⟨earlier.filterMap chunkItem, between.filterMap chunkItem, ?_, ?_⟩
    · rw [List.filterMap_append, List.filterMap_cons_some ((chunkItem_header_iff header sect).mpr named)]
    · intro other member
      obtain ⟨chunk, inside, said⟩ := List.mem_filterMap.mp member
      exact plain chunk inside other ((chunkItem_header_iff chunk other).mp said)
  · rintro ⟨front, back, split, plain⟩
    obtain ⟨earlier, header, between, rfl, _, said, rfl⟩ := (items_split_iff _ _ _ _).mp split
    refine ⟨earlier, header, between, rfl, (chunkItem_header_iff header sect).mp said, ?_⟩
    intro chunk inside name named
    exact plain name (List.mem_filterMap.mpr ⟨chunk, inside, (chunkItem_header_iff chunk name).mpr named⟩)

/-- Read in order, chunks give each key the value of its first entry chunk. -/
theorem firstValue_load_iff {file : List Bytes} (read : ∀ chunk ∈ file, ∃ bytes, chunk ∈ chunks lineRoom bytes)
    (sect key value : CString) :
    FirstValue file sect key value ↔ (load (file.filterMap chunkItem)).get sect key = some value := by
  have entry : ∀ chunk ∈ file, ∀ key value,
      chunkItem chunk = some (.entry key value) ↔ EntryChunk chunk key value := by
    intro chunk member
    obtain ⟨bytes, inBytes⟩ := read chunk member
    exact chunkItem_entry_iff inBytes
  rw [load_get, firstFor_owned_iff]
  constructor
  · rintro ⟨before, chunk, after, rfl, nearest, holds, first⟩
    refine ⟨before.filterMap chunkItem, after.filterMap chunkItem, ?_, (nearestHeader_iff before sect).mp nearest, ?_⟩
    · rw [List.filterMap_append, List.filterMap_cons_some ((entry chunk (by simp) key value).mpr holds)]
    · intro front found back split here
      obtain ⟨earlier, other, later, rfl, rfl, said, _⟩ := (items_split_iff _ _ _ _).mp split
      exact first earlier other later rfl ((nearestHeader_iff earlier sect).mpr here) found
        ((entry other (by simp) key found).mp said)
  · rintro ⟨front, back, split, here, without⟩
    obtain ⟨before, chunk, after, rfl, rfl, said, rfl⟩ := (items_split_iff _ _ _ _).mp split
    refine ⟨before, chunk, after, rfl, (nearestHeader_iff before sect).mpr here,
      (entry chunk (by simp) key value).mp said, ?_⟩
    rintro earlier other later rfl nearest found holds
    have stands := (items_split_iff (earlier ++ other :: later) _ _ _).mpr
      ⟨earlier, other, later, rfl, rfl, (entry other (by simp) key found).mpr holds, rfl⟩
    exact without _ _ _ stands ((nearestHeader_iff earlier sect).mp nearest)

theorem firstValue_iff (file : Bytes) (sect key value : CString) :
    FirstValue (chunks lineRoom file) sect key value ↔ (loadFile (some file)).get sect key = some value :=
  firstValue_load_iff (fun _ member => ⟨file, member⟩) sect key value

theorem header_mem_itemsOf (file : Bytes) (name : CString) :
    .header name ∈ itemsOf file ↔ ∃ chunk ∈ chunks lineRoom file, HeaderChunk chunk name := by
  rw [itemsOf, List.mem_filterMap]
  exact exists_congr fun chunk => and_congr_right fun _ => chunkItem_header_iff chunk name

variable {T : Type → Type} [Patricia CString T]

/-- Every file can be opened. Then the sections are those that a header chunk
    names, and a read finds the value of the first entry chunk for its key whose
    nearest header names its section. -/
theorem keyfileOpen_meaning (bytes : Bytes) : ∃ kf : Keyfile T, keyfileOpen (some bytes) = some kf ∧
    (∀ sect, (retrieve kf.sections sect).isSome ↔ ∃ chunk ∈ chunks lineRoom bytes, HeaderChunk chunk sect) ∧
    ∀ sect key value, (∀ old, keyfileGetString kf sect key old = (.MCS_OK, some value)) ↔
      FirstValue (chunks lineRoom bytes) sect key value := by
  obtain ⟨kf, executed, loaded⟩ := keyfileOpen_total_correct (T := T) (some bytes)
  refine ⟨kf, executed, ?_, ?_⟩
  · intro sect
    have present := load_isSome (itemsOf bytes) sect
    rw [header_mem_itemsOf] at present
    rw [← present]
    show _ ↔ (loadFile (some bytes) sect).isSome
    rw [← loaded, view, Option.isSome_map]
  · intro sect key value
    rw [keyfileGetString_found, loaded, firstValue_iff]

/-! ## Loaded files are well formed -/

/-- Before a header chunk the loop has added nothing. -/
theorem keyfileOpenLoop_empty {before : List Bytes} (plain : ∀ chunk ∈ before, ∀ name, ¬ HeaderChunk chunk name) :
    ∃ st : Loading T, keyfileOpenLoop ⟨keyfileNew, none⟩ before = some st ∧ view st.out = .empty := by
  obtain ⟨st, executed, read⟩ := keyfileOpenLoop_total_correct (T := T) ⟨keyfileNew, none⟩ before
  refine ⟨st, executed, ?_⟩
  have stores := congrArg Cursor.store read
  have start : cursor (⟨keyfileNew, none⟩ : Loading T) = ⟨.empty, none⟩ := by rw [cursor, view_keyfileNew]
  rw [start] at stores
  refine stores.trans (load_of_no_header ?_)
  intro name member
  obtain ⟨chunk, inside, said⟩ := List.mem_filterMap.mp member
  exact plain chunk inside name ((chunkItem_header_iff chunk name).mp said)

/-- Whatever the bytes are, opening ends and hands over no null key, since a value
    is only found behind a key; nothing is added before a header; and what is
    loaded has names, keys and values that one chunk can hold. -/
theorem keyfileOpen_wellFormed (bytes : Bytes) : ∃ kf : Keyfile T, keyfileOpen (some bytes) = some kf ∧
    (∀ chunk ∈ chunks lineRoom bytes, ∀ tmp2,
      (strtok (strtok (.ofBuffer chunk) [equals]).2 [newline]).1 = some tmp2 →
        ∃ tmp, (strtok (.ofBuffer chunk) [equals]).1 = some tmp) ∧
    (∀ before after, chunks lineRoom bytes = before ++ after →
      (∀ chunk ∈ before, ∀ name, ¬ HeaderChunk chunk name) →
        ∃ st : Loading T, keyfileOpenLoop ⟨keyfileNew, none⟩ before = some st ∧ view st.out = .empty) ∧
    (∀ sect, (retrieve kf.sections sect).isSome → SectionOk sect) ∧
    ∀ sect key value, (∀ old, keyfileGetString kf sect key old = (.MCS_OK, some value)) → Loadable key value := by
  obtain ⟨kf, executed, loaded⟩ := keyfileOpen_total_correct (T := T) (some bytes)
  refine ⟨kf, executed, fun _ _ _ => strtok_before, ?_, ?_, ?_⟩
  · intro before after _ plain
    exact keyfileOpenLoop_empty plain
  · intro sect present
    have inFile : (loadFile (some bytes) sect).isSome := by
      rw [← loaded, view, Option.isSome_map]
      exact present
    exact loaded_section inFile
  · intro sect key value read
    rw [keyfileGetString_found, loaded] at read
    exact loaded_entry read

end Mcs.Meaning
