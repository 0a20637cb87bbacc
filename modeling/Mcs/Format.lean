import Mcs.Reading

/-!
The keyfile format: which names, keys and values a line of a file can carry, and
which the printed lines carry back. `SectionOk` and `Loadable` hold of whatever
any file says; `EntryOk` asks in addition that the line of the entry does not
look like a header or a comment, and `itemsOf_serialise` reads a store with such
entries back as its own listing.
-/
namespace Mcs.Format
open Mcs.Dictionary Mcs.Dictionary.Patricia Mcs.Strings Mcs.Sectioned Mcs.KeyfileModel Mcs.Reading

/-- A section's name: what can stand between the brackets of one buffer. -/
structure SectionOk (name : CString) : Prop where
  noBracket : closeBracket ∉ name.bytes
  noNewline : newline ∉ name.bytes
  fits : name.bytes.length ≤ 4093

/-- A key and a value that one buffer can hold. -/
structure Loadable (key value : CString) : Prop where
  keyNonempty : key.bytes ≠ []
  keyNoEquals : equals ∉ key.bytes
  keyNoNewline : newline ∉ key.bytes
  valueNonempty : value.bytes ≠ []
  valueNoNewline : newline ∉ value.bytes
  fits : key.bytes.length + 1 + value.bytes.length ≤ 4095

/-- A key whose line would begin like a header or a comment. -/
def Marked (key : CString) : Prop := key.byteAt 0 = openBracket ∨ key.byteAt 0 = hashSign

instance (key : CString) : Decidable (Marked key) := inferInstanceAs (Decidable (_ ∨ _))

/-- An entry that its own line carries. -/
structure EntryOk (key value : CString) : Prop extends Loadable key value where
  unmarked : ¬ Marked key

/-- A store that its own file carries. -/
structure Representable (store : Store CString CString CString) : Prop where
  sections : ∀ name, (store name).isSome → SectionOk name
  entries : ∀ name key value, store.get name key = some value → EntryOk key value

instance (name : CString) : Decidable (SectionOk name) :=
  decidable_of_iff (closeBracket ∉ name.bytes ∧ newline ∉ name.bytes ∧ name.bytes.length ≤ 4093)
    ⟨fun ⟨a, b, c⟩ => ⟨a, b, c⟩, fun ⟨a, b, c⟩ => ⟨a, b, c⟩⟩

instance (key value : CString) : Decidable (Loadable key value) :=
  decidable_of_iff (key.bytes ≠ [] ∧ equals ∉ key.bytes ∧ newline ∉ key.bytes ∧ value.bytes ≠ [] ∧
      newline ∉ value.bytes ∧ key.bytes.length + 1 + value.bytes.length ≤ 4095)
    ⟨fun ⟨a, b, c, d, e, f⟩ => ⟨a, b, c, d, e, f⟩, fun ⟨a, b, c, d, e, f⟩ => ⟨a, b, c, d, e, f⟩⟩

instance (key value : CString) : Decidable (EntryOk key value) :=
  decidable_of_iff (Loadable key value ∧ ¬ Marked key) ⟨fun ⟨a, b⟩ => ⟨a, b⟩, fun ⟨a, b⟩ => ⟨a, b⟩⟩

theorem lineRoom_eq : lineRoom = 4094 + 1 := rfl

/-! ## What a buffer can say -/

/-- A header is the text between the opening bracket and the first closing one. -/
theorem itemOf_header {buffer name : CString} (said : itemOf buffer = some (.header name)) :
    ∃ tail, buffer.bytes = openBracket :: name.bytes ++ closeBracket :: tail ∧ closeBracket ∉ name.bytes := by
  unfold itemOf at said
  split at said
  · rename_i bracket
    simp only [Option.map_eq_some_iff, Item.header.injEq] at said
    obtain ⟨tmp, close, rfl⟩ := said
    obtain ⟨tail, split, plain⟩ := strchr_split close
    cases front : buffer.bytes.take tmp with
    | nil =>
      rw [CString.byteAt, split, front] at bracket
      exact absurd bracket (by simp [closeBracket, openBracket])
    | cons first name =>
      rw [front] at split plain
      have first_eq : first = openBracket := by
        rw [CString.byteAt, split] at bracket
        simpa using bracket
      have nameIs : ((buffer.take tmp).drop 1).bytes = name := by
        show (buffer.bytes.take tmp).drop 1 = name
        rw [front, List.drop_one, List.tail_cons]
      rw [nameIs]
      exact ⟨tail, by rw [split, first_eq], fun inside => plain (List.mem_cons_of_mem _ inside)⟩
  · split at said
    · cases said
    · split at said <;> cases said

/-- An entry follows the `=` signs that the buffer may begin with. -/
theorem itemOf_entry {buffer key value : CString} (said : itemOf buffer = some (.entry key value)) :
    buffer.byteAt 0 ≠ openBracket ∧ buffer.byteAt 0 ≠ hashSign ∧
      ∃ skipped gap tail, buffer.bytes = skipped ++ key.bytes ++ equals :: (gap ++ value.bytes ++ tail) ∧
        (∀ byte ∈ skipped, byte = equals) ∧ key.bytes ≠ [] ∧ equals ∉ key.bytes ∧
        value.bytes ≠ [] ∧ newline ∉ value.bytes := by
  unfold itemOf at said
  split at said
  · simp at said
  · rename_i noBracket
    split at said
    · cases said
    · rename_i noHash
      split at said
      · rename_i token rest tokenIs restIs
        cases said
        obtain ⟨skipped, left, split, onlyEquals, keyNonempty, keyPlain, ends, leftIs⟩ := strtok_some tokenIs
        obtain ⟨gap, tail, valueSplit, _, valueNonempty, valuePlain, _, _⟩ := strtok_some restIs
        refine ⟨noBracket, noHash, skipped, gap, tail, ?_, onlyEquals, keyNonempty, keyPlain, valueNonempty, valuePlain⟩
        rcases ends with rfl | head
        · simp only [List.drop_nil] at leftIs
          rw [leftIs] at valueSplit
          simp_all
        · cases left with
          | nil => simp at head
          | cons byte more =>
            simp only [List.head?_cons, Option.some.injEq] at head
            simp only [List.drop_one, List.tail_cons] at leftIs
            rw [split, head, ← leftIs, valueSplit]
      · cases said

/-! ## What a file can say -/

theorem newline_last {chunk before after : Bytes} (inner : newline ∉ chunk.dropLast)
    (split : chunk = before ++ newline :: after) : after = [] := by
  by_contra more
  apply inner
  rw [split, List.dropLast_append_of_ne_nil (List.cons_ne_nil _ _), List.dropLast_cons_of_ne_nil more]
  simp

/-- The string in a buffer is short, and its newline ends it. -/
theorem buffer_spec {file chunk : Bytes} (member : chunk ∈ chunks lineRoom file) :
    (CString.ofBuffer chunk).bytes.length ≤ 4095 ∧
      ∀ before after, (CString.ofBuffer chunk).bytes = before ++ newline :: after → after = [] := by
  rw [lineRoom_eq] at member
  have cut : chunk = (CString.ofBuffer chunk).bytes ++ chunk.dropWhile (· ≠ 0) :=
    (List.takeWhile_append_dropWhile ..).symm
  constructor
  · have short := chunk_length_le member
    have lengths := congrArg List.length cut
    rw [List.length_append] at lengths
    omega
  · intro before after split
    rw [split, List.append_assoc, List.cons_append] at cut
    exact (List.append_eq_nil_iff.mp (newline_last (chunk_newline member) cut)).1

theorem mem_itemsOf {file : Bytes} {item : Item CString CString CString} (said : item ∈ itemsOf file) :
    ∃ chunk ∈ chunks lineRoom file, itemOf (.ofBuffer chunk) = some item := by
  simpa [itemsOf, List.mem_filterMap, chunkItem] using said

theorem header_sectionOk {file : Bytes} {name : CString} (said : .header name ∈ itemsOf file) : SectionOk name := by
  obtain ⟨chunk, member, item⟩ := mem_itemsOf said
  obtain ⟨tail, split, plain⟩ := itemOf_header item
  obtain ⟨short, last⟩ := buffer_spec member
  refine ⟨plain, ?_, ?_⟩
  · intro inside
    obtain ⟨before, after, cut⟩ := List.append_of_mem inside
    have ended := last (openBracket :: before) (after ++ closeBracket :: tail) (by simp [split, cut])
    simp at ended
  · have lengths := congrArg List.length split
    simp only [List.length_append, List.length_cons] at lengths
    omega

theorem entry_loadable {file : Bytes} {key value : CString} (said : .entry key value ∈ itemsOf file) :
    Loadable key value := by
  obtain ⟨chunk, member, item⟩ := mem_itemsOf said
  obtain ⟨_, _, skipped, gap, tail, split, _, keyNonempty, keyPlain, valueNonempty, valuePlain⟩ := itemOf_entry item
  obtain ⟨short, last⟩ := buffer_spec member
  refine ⟨keyNonempty, keyPlain, ?_, valueNonempty, valuePlain, ?_⟩
  · intro inside
    obtain ⟨before, after, cut⟩ := List.append_of_mem inside
    have ended := last (skipped ++ before) (after ++ equals :: (gap ++ value.bytes ++ tail)) (by simp [split, cut])
    simp at ended
  · have lengths := congrArg List.length split
    simp only [List.length_append, List.length_cons] at lengths
    omega

/-! ## What the printed lines say -/

theorem ofBuffer_append {text : Bytes} (noNul : 0 ∉ text) (tail : Bytes) :
    (CString.ofBuffer (text ++ tail)).bytes = text ++ (CString.ofBuffer tail).bytes := by
  unfold CString.ofBuffer
  refine List.takeWhile_append_of_pos ?_
  intro byte member
  have differ : byte ≠ 0 := fun zero => noNul (zero ▸ member)
  simpa using differ

theorem chunkItem_header {name : CString} (plain : closeBracket ∉ name.bytes) (tail : Bytes) :
    chunkItem (openBracket :: name.bytes ++ closeBracket :: tail) = some (.header name) := by
  have noNul : 0 ∉ openBracket :: name.bytes ++ [closeBracket] := by
    simp [name.noNul, openBracket, closeBracket]
  have bytes := ofBuffer_append noNul tail
  simp only [List.append_assoc, List.singleton_append] at bytes
  have first : (CString.ofBuffer (openBracket :: name.bytes ++ closeBracket :: tail)).byteAt 0 = openBracket := by
    rw [CString.byteAt, bytes]
    rfl
  have inside : closeBracket ∉ openBracket :: name.bytes := by
    rw [List.mem_cons, not_or]
    exact ⟨by decide, plain⟩
  have close := strchr_of_split bytes inside
  rw [chunkItem, itemOf, if_pos first, close, Option.map_some]
  congr 2
  ext1
  show (List.take _ _).drop 1 = _
  rw [bytes, List.take_left]
  rfl

theorem chunkItem_entry {key value : CString} (loadable : Loadable key value) (unmarked : ¬ Marked key)
    {tail : Bytes} (ends : tail = [] ∨ tail = [newline]) :
    chunkItem (key.bytes ++ equals :: value.bytes ++ tail) = some (.entry key value) := by
  have noNul : 0 ∉ key.bytes ++ equals :: value.bytes ++ tail := by
    have differ : ∀ byte ∈ tail, byte ≠ 0 := by
      rcases ends with rfl | rfl <;> simp [newline]
    have tailNoNul : 0 ∉ tail := fun member => differ 0 member rfl
    simp [key.noNul, value.noNul, equals, tailNoNul]
  have bytes := CString.ofBuffer_of_noNul noNul
  have first : (CString.ofBuffer (key.bytes ++ equals :: value.bytes ++ tail)).byteAt 0 = key.byteAt 0 := by
    obtain ⟨byte, more, start⟩ := List.exists_cons_of_ne_nil loadable.keyNonempty
    rw [CString.byteAt, CString.byteAt, bytes, start]
    rfl
  obtain ⟨token, rest, tokenRun, tokenIs, restIs⟩ :=
    strtok_token (s := CString.ofBuffer (key.bytes ++ equals :: value.bytes ++ tail))
      (by rw [bytes, List.append_assoc]) loadable.keyNonempty loadable.keyNoEquals (.inr rfl)
  obtain ⟨token2, rest2, token2Run, token2Is, _⟩ :=
    strtok_token (s := rest) restIs loadable.valueNonempty loadable.valueNoNewline
      (by rcases ends with rfl | rfl <;> simp)
  have keyIs : token = key := CString.ext tokenIs
  have valueIs : token2 = value := CString.ext token2Is
  simp only [Marked, not_or] at unmarked
  rw [chunkItem, itemOf, first, if_neg unmarked.1, if_neg unmarked.2, tokenRun, token2Run, keyIs, valueIs]

theorem chunkItem_newline : chunkItem [newline] = none := by decide

theorem itemsOf_append {text : Bytes} (whole : WholeLines text) (rest : Bytes) :
    itemsOf (text ++ rest) = itemsOf text ++ itemsOf rest := by
  rw [itemsOf, lineRoom_eq, chunks_append whole, List.filterMap_append]
  show itemsOf text ++ itemsOf rest = _
  rfl

theorem itemsOf_flatten {texts : List Bytes} (whole : ∀ text ∈ texts, WholeLines text) :
    itemsOf texts.flatten = texts.flatMap itemsOf := by
  induction texts with
  | nil => rfl
  | cons text rest ih =>
    rw [List.flatten_cons, itemsOf_append (whole text List.mem_cons_self), List.flatMap_cons,
      ih fun text member => whole text (List.mem_cons_of_mem _ member)]

/-- A line that fits is one chunk, or one chunk and its newline. -/
theorem chunks_line {line : Bytes} (plain : newline ∉ line) (fits : line.length ≤ 4095) :
    chunks lineRoom (line ++ [newline]) = [line ++ [newline]] ∨
      chunks lineRoom (line ++ [newline]) = [line, [newline]] := by
  rw [lineRoom_eq]
  rcases Nat.lt_or_ge line.length (4094 + 1) with short | full
  · exact .inl (chunks_short plain short [])
  · exact .inr (chunks_full plain (by omega) [])

theorem itemsOf_line {line : Bytes} (plain : newline ∉ line) (fits : line.length ≤ 4095)
    {item : Item CString CString CString} (said : chunkItem (line ++ [newline]) = some item)
    (saidFull : chunkItem line = some item) : itemsOf (line ++ [newline]) = [item] := by
  rcases chunks_line plain fits with one | two
  · rw [itemsOf, one, List.filterMap_cons_some said, List.filterMap_nil]
  · rw [itemsOf, two, List.filterMap_cons_some saidFull, List.filterMap_cons_none chunkItem_newline,
      List.filterMap_nil]

theorem headerText_eq (name : CString) :
    keyfileHeaderText name = (openBracket :: name.bytes ++ [closeBracket]) ++ [newline] := by
  simp [keyfileHeaderText]

theorem header_plain {name : CString} (ok : SectionOk name) :
    newline ∉ openBracket :: name.bytes ++ [closeBracket] := by
  have brackets : newline ≠ openBracket ∧ newline ≠ closeBracket := by decide
  simp [ok.noNewline, brackets]

theorem line_plain {key value : CString} (loadable : Loadable key value) :
    newline ∉ key.bytes ++ equals :: value.bytes := by
  have sign : newline ≠ equals := by decide
  simp [loadable.keyNoNewline, loadable.valueNoNewline, sign]

theorem itemsOf_headerText {name : CString} (ok : SectionOk name) :
    itemsOf (keyfileHeaderText name) = [.header name] := by
  rw [headerText_eq]
  apply itemsOf_line (header_plain ok)
  · have fits := ok.fits
    simp only [List.length_append, List.length_cons, List.length_nil]
    omega
  · rw [List.append_assoc]
    exact chunkItem_header ok.noBracket [newline]
  · exact chunkItem_header ok.noBracket []

theorem itemsOf_lineText {key value : CString} (ok : EntryOk key value) :
    itemsOf (keyfileWriteLineCb key value) = [.entry key value] := by
  apply itemsOf_line (line_plain ok.toLoadable)
  · have fits := ok.fits
    simp only [List.length_append, List.length_cons]
    omega
  · exact chunkItem_entry ok.toLoadable ok.unmarked (.inr rfl)
  · simpa using chunkItem_entry ok.toLoadable ok.unmarked (.inl rfl)

theorem wholeLines_headerText (name : CString) : WholeLines (keyfileHeaderText name) := by
  rw [headerText_eq]
  exact wholeLines_line _

theorem wholeLines_lineText (key value : CString) : WholeLines (keyfileWriteLineCb key value) := wholeLines_line _

/-! ## What a saved store says -/

section
variable {T : Type → Type} [Patricia CString T]

/-- The sections of a store and their entries, as `foreach` meets them. -/
def parts (kf : Keyfile T) : List (CString × List (CString × CString)) :=
  (foreach kf.sections).map fun entry => (entry.2.name, foreach entry.2.lines)

/-- The texts of one section. -/
def partTexts (part : CString × List (CString × CString)) : List Bytes :=
  keyfileHeaderText part.1 :: part.2.map fun line => keyfileWriteLineCb line.1 line.2

theorem keyfileTexts_eq (kf : Keyfile T) : keyfileTexts kf = (parts kf).flatMap partTexts := by
  rw [keyfileTexts, parts, List.flatMap_map]
  rfl

theorem lists_parts (kf : Keyfile T) : Lists (parts kf) (view kf) := by
  have filed : ∀ name lines, (name, lines) ∈ parts kf ↔
      ∃ sec, retrieve kf.sections name = some sec ∧ foreach sec.lines = lines := by
    intro name lines
    simp only [parts, List.mem_map, Prod.mk.injEq, Prod.exists]
    constructor
    · rintro ⟨key, sec, member, rfl, same⟩
      rw [mem_foreach] at member
      rw [kf.named key sec member]
      exact ⟨sec, member, same⟩
    · rintro ⟨sec, held, same⟩
      exact ⟨name, sec, (mem_foreach _ _ _).mpr held, kf.named name sec held, same⟩
  refine ⟨?_, ?_⟩
  · intro name
    simp only [filed, view, Option.isSome_map, Option.isSome_iff_exists]
    constructor
    · rintro ⟨sec, held⟩; exact ⟨_, sec, held, rfl⟩
    · rintro ⟨_, sec, held, _⟩; exact ⟨sec, held⟩
  · intro name key value
    simp only [filed, Store.get, view]
    constructor
    · intro held
      cases sec : retrieve kf.sections name with
      | none => simp [sec] at held
      | some found =>
        rw [sec] at held
        exact ⟨_, ⟨found, rfl, rfl⟩, (mem_foreach _ _ _).mpr held⟩
    · rintro ⟨_, ⟨sec, held, rfl⟩, member⟩
      rw [held]
      exact (mem_foreach _ _ _).mp member

theorem wholeLines_texts (kf : Keyfile T) : ∀ text ∈ keyfileTexts kf, WholeLines text := by
  intro text member
  rw [keyfileTexts_eq] at member
  obtain ⟨part, _, inPart⟩ := List.mem_flatMap.mp member
  rcases List.mem_cons.mp inPart with rfl | inLines
  · exact wholeLines_headerText _
  · obtain ⟨line, _, rfl⟩ := List.mem_map.mp inLines
    exact wholeLines_lineText _ _

/-- The items of the texts of one section. -/
theorem itemsOf_part {part : CString × List (CString × CString)} (name : SectionOk part.1)
    (lines : ∀ line ∈ part.2, EntryOk line.1 line.2) : (partTexts part).flatMap itemsOf = block part := by
  rw [partTexts, block, List.flatMap_cons, itemsOf_headerText name, List.singleton_append, List.flatMap_map]
  congr 1
  generalize part.2 = held at lines ⊢
  induction held with
  | nil => rfl
  | cons line rest ih =>
    rw [List.flatMap_cons, itemsOf_lineText (lines line List.mem_cons_self), List.map_cons,
      ih fun line member => lines line (List.mem_cons_of_mem _ member)]
    rfl

/-- The file of a representable store says its listing. -/
theorem itemsOf_serialise {kf : Keyfile T} (ok : Representable (view kf)) :
    itemsOf (serialise kf) = listing (parts kf) := by
  rw [serialise, itemsOf_flatten (wholeLines_texts kf), keyfileTexts_eq, List.flatMap_assoc, listing]
  have lists := lists_parts kf
  apply List.flatMap_congr
  intro part member
  apply itemsOf_part
  · exact ok.sections part.1 ((lists.sections part.1).mpr ⟨part.2, member⟩)
  · intro line inLines
    exact ok.entries part.1 line.1 line.2 ((lists.lines _ _ _).mpr ⟨part.2, member, inLines⟩)

end

end Mcs.Format
