import Mcs.RoundTrip

/-!
Files that were cut short. Of a saved store whose file lost its end, each entry that
can be read is an entry of the store, and at most the last one of them has lost the end
of its value (`torn_below`, `torn_one`).
-/
namespace Mcs.Torn
open Mcs.Dictionary Mcs.Strings Mcs.Sectioned Mcs.KeyfileModel Mcs.Reading Mcs.Format Mcs.RoundTrip

variable {T : Type → Type} [Patricia CString T]

/-! ## Lines -/

/-- The line that says an item. -/
def itemText : Item CString CString CString → Bytes
  | .header name => keyfileHeaderText name
  | .entry key value => keyfileWriteLineCb key value

/-- An item that its own line carries. -/
def ItemOk : Item CString CString CString → Prop
  | .header name => SectionOk name
  | .entry key value => EntryOk key value

/-- What can be read of an item whose line was cut. -/
inductive Cut : Item CString CString CString → List (Item CString CString CString) → Prop where
  | lost (item : Item CString CString CString) : Cut item []
  | header (name : CString) : Cut (.header name) [.header name]
  | entry (key : CString) {value short : CString} (front : short.bytes <+: value.bytes) :
    Cut (.entry key value) [.entry key short]

theorem serialise_eq (kf : Keyfile T) : serialise kf = ((listing (parts kf)).map itemText).flatten := by
  have texts : partTexts = fun part => (block part).map itemText := by
    funext part
    rw [partTexts, block, List.map_cons, List.map_map]
    rfl
  rw [serialise, keyfileTexts_eq, listing, List.map_flatMap, texts]

theorem itemsOf_itemText {item : Item CString CString CString} (ok : ItemOk item) :
    itemsOf (itemText item) = [item] := by
  cases item with
  | header name => exact itemsOf_headerText ok
  | entry key value => exact itemsOf_lineText ok

theorem wholeLines_itemText (item : Item CString CString CString) : WholeLines (itemText item) := by
  cases item with
  | header name => exact wholeLines_headerText name
  | entry key value => exact wholeLines_lineText key value

/-- A piece of a line is one chunk. -/
theorem itemsOf_one {piece : Bytes} (plain : newline ∉ piece) (nonempty : piece ≠ []) (fits : piece.length ≤ 4095) :
    itemsOf piece = (chunkItem piece).toList := by
  rw [itemsOf, lineRoom_eq, chunks_last plain nonempty fits]
  cases said : chunkItem piece with
  | none => rw [List.filterMap_cons_none said]; rfl
  | some item => rw [List.filterMap_cons_some said]; rfl

theorem itemsOf_piece {piece line : Bytes} (plain : newline ∉ line) (fits : line.length ≤ 4095)
    (front : piece <+: line) : itemsOf piece = [] ∨ (piece ≠ [] ∧ itemsOf piece = (chunkItem piece).toList) := by
  by_cases empty : piece = []
  · rw [empty]
    exact .inl rfl
  · exact .inr ⟨empty, itemsOf_one (fun inside => plain (front.subset inside)) empty (Nat.le_trans front.length_le fits)⟩

/-- Without its closing bracket a header says nothing. -/
theorem chunkItem_openHeader {name : CString} (plain : closeBracket ∉ name.bytes) {piece : Bytes}
    (nonempty : piece ≠ []) (front : piece <+: openBracket :: name.bytes) : chunkItem piece = none := by
  have noNul : 0 ∉ piece := by
    intro inside
    rcases List.mem_cons.mp (front.subset inside) with zero | later
    · exact absurd zero (by decide)
    · exact name.noNul later
  have bytes := CString.ofBuffer_of_noNul noNul
  obtain ⟨byte, rest, rfl⟩ := List.exists_cons_of_ne_nil nonempty
  have first : byte = openBracket := (List.cons_prefix_cons.mp front).1
  have absent : strchr (CString.ofBuffer (byte :: rest)) closeBracket = none := by
    rw [strchr_eq_none, bytes]
    intro inside
    rcases List.mem_cons.mp (front.subset inside) with same | later
    · exact absurd same (by decide)
    · exact plain later
  rw [chunkItem, itemOf, if_pos (by rw [CString.byteAt, bytes, first]; rfl), absent]
  rfl

/-- Up to its `=` sign a line says nothing. -/
theorem chunkItem_openEntry {key : CString} (plain : equals ∉ key.bytes) (unmarked : ¬ Marked key) {piece : Bytes}
    (nonempty : piece ≠ []) (front : piece <+: key.bytes) : chunkItem piece = none := by
  have noNul : 0 ∉ piece := fun inside => key.noNul (front.subset inside)
  have bytes := CString.ofBuffer_of_noNul noNul
  obtain ⟨byte, rest, rfl⟩ := List.exists_cons_of_ne_nil nonempty
  obtain ⟨more, split⟩ := front
  have first : (CString.ofBuffer (byte :: rest)).byteAt 0 = key.byteAt 0 := by
    rw [CString.byteAt, CString.byteAt, bytes, ← split]
    rfl
  simp only [Marked, not_or] at unmarked
  rw [chunkItem, itemOf, first, if_neg unmarked.1, if_neg unmarked.2]
  cases second : (strtok (strtok (CString.ofBuffer (byte :: rest)) [equals]).2 [newline]).1 with
  | none => cases (strtok (CString.ofBuffer (byte :: rest)) [equals]).1 <;> rfl
  | some value =>
    obtain ⟨index, found⟩ := strchr_before second
    have absent : strchr (CString.ofBuffer (byte :: rest)) equals = none := by
      rw [strchr_eq_none, bytes]
      exact fun inside => plain (split ▸ List.mem_append_left _ inside)
    rw [absent] at found
    cases found

/-- Behind the `=` sign there must be a value. -/
theorem chunkItem_noValue {key : CString} (nonempty : key.bytes ≠ []) (plain : equals ∉ key.bytes)
    (unmarked : ¬ Marked key) : chunkItem (key.bytes ++ [equals]) = none := by
  have noNul : 0 ∉ key.bytes ++ [equals] := by
    have sign : (0 : UInt8) ≠ equals := by decide
    simp [key.noNul, sign]
  have bytes := CString.ofBuffer_of_noNul noNul
  have first : (CString.ofBuffer (key.bytes ++ [equals])).byteAt 0 = key.byteAt 0 := by
    obtain ⟨byte, more, start⟩ := List.exists_cons_of_ne_nil nonempty
    rw [CString.byteAt, CString.byteAt, bytes, start]
    rfl
  obtain ⟨token, rest, tokenRun, _, restIs⟩ := strtok_token bytes nonempty plain (.inr rfl)
  have ended : rest = .empty := CString.ext restIs
  simp only [Marked, not_or] at unmarked
  rw [chunkItem, itemOf, first, if_neg unmarked.1, if_neg unmarked.2, tokenRun, ended, strtok_empty]

theorem header_fits {name : CString} (ok : SectionOk name) :
    (openBracket :: name.bytes ++ [closeBracket]).length ≤ 4095 := by
  have bound := ok.fits
  simp only [List.length_append, List.length_cons, List.length_nil]
  omega

theorem line_fits {key value : CString} (loadable : Loadable key value) :
    (key.bytes ++ equals :: value.bytes).length ≤ 4095 := by
  have bound := loadable.fits
  simp only [List.length_append, List.length_cons]
  omega

theorem cut_header {name : CString} (ok : SectionOk name) {piece : Bytes}
    (front : piece <+: keyfileHeaderText name) : Cut (.header name) (itemsOf piece) := by
  rw [headerText_eq] at front
  rcases List.prefix_concat_iff.mp front with whole | inside
  · rw [whole, ← headerText_eq, itemsOf_headerText ok]
    exact .header name
  · rcases itemsOf_piece (header_plain ok) (header_fits ok) inside with none | ⟨nonempty, one⟩
    · rw [none]
      exact .lost _
    · rw [one]
      rcases List.prefix_concat_iff.mp inside with closed | open_
      · rw [closed, chunkItem_header ok.noBracket []]
        exact .header name
      · rw [chunkItem_openHeader ok.noBracket nonempty open_]
        exact .lost _

/-- What the line of an entry says before its newline: nothing, or the entry with a
    piece of its value. -/
theorem cut_line {key value : CString} (ok : EntryOk key value) {piece : Bytes} (nonempty : piece ≠ [])
    (front : piece <+: key.bytes ++ equals :: value.bytes) : Cut (.entry key value) (chunkItem piece).toList := by
  rcases Nat.lt_or_ge key.bytes.length piece.length with behind | early
  · -- The `=` sign is there.
    have keyFirst : key.bytes <+: piece := List.prefix_of_prefix_length_le (List.prefix_append ..) front (by omega)
    obtain ⟨rest, rfl⟩ := keyFirst
    have restFront := (List.prefix_append_right_inj _).mp front
    rcases List.prefix_cons_iff.mp restFront with none | ⟨short, rfl, part⟩
    · rw [none, List.append_nil] at behind
      omega
    · by_cases empty : short = []
      · rw [empty, chunkItem_noValue ok.keyNonempty ok.keyNoEquals ok.unmarked]
        exact .lost _
      · have loadable : Loadable key ⟨short, fun nul => value.noNul (part.subset nul)⟩ := by
          refine ⟨ok.keyNonempty, ok.keyNoEquals, ok.keyNoNewline, empty, fun inside => ok.valueNoNewline (part.subset inside), ?_⟩
          have fits := ok.fits
          have less := part.length_le
          show key.bytes.length + 1 + short.length ≤ 4095
          omega
        have said := chunkItem_entry loadable ok.unmarked (.inl rfl)
        rw [List.append_nil] at said
        rw [said]
        exact .entry key part
  · have inKey : piece <+: key.bytes := List.prefix_of_prefix_length_le front (List.prefix_append ..) early
    rw [chunkItem_openEntry ok.keyNoEquals ok.unmarked nonempty inKey]
    exact .lost _

theorem cut_entry {key value : CString} (ok : EntryOk key value) {piece : Bytes}
    (front : piece <+: keyfileWriteLineCb key value) : Cut (.entry key value) (itemsOf piece) := by
  rcases List.prefix_concat_iff.mp front with whole | inside
  · have said := itemsOf_lineText ok
    rw [keyfileWriteLineCb, ← whole] at said
    rw [said]
    exact .entry key List.prefix_rfl
  · rcases itemsOf_piece (line_plain ok.toLoadable) (line_fits ok.toLoadable) inside with none | ⟨nonempty, one⟩
    · rw [none]
      exact .lost _
    · rw [one]
      exact cut_line ok nonempty inside

theorem cut_item {item : Item CString CString CString} (ok : ItemOk item) {piece : Bytes}
    (front : piece <+: itemText item) : Cut item (itemsOf piece) := by
  cases item with
  | header name => exact cut_header ok front
  | entry key value => exact cut_entry ok front

/-! ## Files -/

/-- The front of some texts: all of them, or some whole ones and a piece of the next. -/
theorem prefix_flatten {texts : List Bytes} {front : Bytes} (torn : front <+: texts.flatten) :
    front = texts.flatten ∨ ∃ before text after piece, texts = before ++ text :: after ∧
      front = before.flatten ++ piece ∧ piece <+: text ∧ piece.length < text.length := by
  induction texts generalizing front with
  | nil => exact .inl (List.prefix_nil.mp torn)
  | cons text rest ih =>
    rw [List.flatten_cons] at torn
    rcases Nat.lt_or_ge front.length text.length with short | long
    · have inside := List.prefix_of_prefix_length_le torn (List.prefix_append ..) (Nat.le_of_lt short)
      exact .inr ⟨[], text, rest, front, rfl, rfl, inside, short⟩
    · obtain ⟨more, rfl⟩ := List.prefix_of_prefix_length_le (List.prefix_append ..) torn long
      rcases ih ((List.prefix_append_right_inj _).mp torn) with whole | ⟨before, next, after, piece, split, same, part, less⟩
      · exact .inl (by rw [whole, List.flatten_cons])
      · refine .inr ⟨text :: before, next, after, piece, by rw [split]; rfl, ?_, part, less⟩
        rw [same, List.flatten_cons, List.append_assoc]

theorem itemsOf_texts {items : List (Item CString CString CString)} (ok : ∀ item ∈ items, ItemOk item) (rest : Bytes) :
    itemsOf ((items.map itemText).flatten ++ rest) = items ++ itemsOf rest := by
  induction items with
  | nil => rfl
  | cons item others ih =>
    rw [List.map_cons, List.flatten_cons, List.append_assoc, itemsOf_append (wholeLines_itemText item),
      itemsOf_itemText (ok item List.mem_cons_self), ih fun other member => ok other (List.mem_cons_of_mem _ member)]
    rfl

/-- A file whose end is missing: some whole lines, and a piece of the next one. -/
structure TornAt (before : List (Item CString CString CString)) (item : Item CString CString CString)
    (after : List (Item CString CString CString)) (piece front : Bytes) : Prop where
  whole : ∀ other ∈ before, ItemOk other
  ok : ItemOk item
  bytes : front = (before.map itemText).flatten ++ piece
  part : piece <+: itemText item
  short : piece.length < (itemText item).length

theorem TornAt.items {before after : List (Item CString CString CString)} {item : Item CString CString CString}
    {piece front : Bytes} (torn : TornAt before item after piece front) : itemsOf front = before ++ itemsOf piece := by
  rw [torn.bytes, itemsOf_texts torn.whole]

theorem TornAt.cut {before after : List (Item CString CString CString)} {item : Item CString CString CString}
    {piece front : Bytes} (torn : TornAt before item after piece front) : Cut item (itemsOf piece) :=
  cut_item torn.ok torn.part

/-- The front of a file is the whole file, or it is torn at some item. -/
theorem torn_split {items : List (Item CString CString CString)} (ok : ∀ item ∈ items, ItemOk item) {front : Bytes}
    (torn : front <+: (items.map itemText).flatten) : front = (items.map itemText).flatten ∨
      ∃ before item after piece, items = before ++ item :: after ∧ TornAt before item after piece front := by
  rcases prefix_flatten torn with whole | ⟨texts, text, others, piece, split, same, part, less⟩
  · exact .inl whole
  · obtain ⟨before, rest, rfl, rfl, behind⟩ := List.map_eq_append_iff.mp split
    obtain ⟨item, after, rfl, rfl, _⟩ := List.map_eq_cons_iff.mp behind
    refine .inr ⟨before, item, after, piece, rfl, ?_, ok item (by simp), same, part, less⟩
    exact fun other member => ok other (List.mem_append_left _ member)

/-! ## Stores -/

/-- Every entry of the store is an entry of the other one, of whose value it may lack
    the end; and it has no other sections. -/
structure Below (store whole : Store CString CString CString) : Prop where
  sections : ∀ sect, (store sect).isSome → (whole sect).isSome
  entries : ∀ sect key value, store.get sect key = some value →
    ∃ full, whole.get sect key = some full ∧ value.bytes <+: full.bytes

theorem itemOk_listing {kf : Keyfile T} (ok : Representable (view kf)) :
    ∀ item ∈ listing (parts kf), ItemOk item := by
  have lists := lists_parts kf
  intro item member
  obtain ⟨part, inParts, inBlock⟩ := List.mem_flatMap.mp member
  rcases List.mem_cons.mp inBlock with rfl | inLines
  · exact ok.sections part.1 ((lists.sections part.1).mpr ⟨part.2, inParts⟩)
  · obtain ⟨line, inPart, rfl⟩ := List.mem_map.mp inLines
    exact ok.entries part.1 line.1 line.2 ((lists.lines _ _ _).mpr ⟨part.2, inParts, inPart⟩)

theorem mem_owned_listing (kf : Keyfile T) (sect key value : CString) :
    (sect, key, value) ∈ owned none (listing (parts kf)) ↔ (view kf).get sect key = some value := by
  rw [owned_listing, (lists_parts kf).lines]
  simp only [List.mem_flatMap, List.mem_map, Prod.mk.injEq, Prod.exists]
  constructor
  · rintro ⟨_, lines, member, _, _, line, rfl, rfl, rfl⟩
    exact ⟨lines, member, line⟩
  · rintro ⟨lines, member, line⟩
    exact ⟨sect, lines, member, key, value, line, rfl, rfl, rfl⟩

/-- What is owned of a cut item. -/
theorem owned_cut {item : Item CString CString CString} {said : List (Item CString CString CString)} (cut : Cut item said)
    {current : Option CString} {sect key value : CString} (member : (sect, key, value) ∈ owned current said) :
    current = some sect ∧ said = [.entry key value] ∧ ∃ full, item = .entry key full ∧ value.bytes <+: full.bytes := by
  cases cut with
  | lost => cases member
  | header name => cases member
  | entry found front =>
    cases current with
    | none => cases member
    | some name =>
      cases List.mem_singleton.mp member
      exact ⟨rfl, rfl, _, rfl, front⟩

theorem header_cut {item : Item CString CString CString} {said : List (Item CString CString CString)} (cut : Cut item said)
    {sect : CString} (member : .header sect ∈ said) : item = .header sect := by
  cases cut with
  | lost => cases member
  | header name => rw [List.mem_singleton.mp member]
  | entry found front => cases List.mem_singleton.mp member

/-- A store is saved, and its file torn. -/
theorem serialise_torn {kf : Keyfile T} (ok : Representable (view kf)) {front : Bytes} (torn : front <+: serialise kf) :
    front = serialise kf ∨ ∃ before item after piece, listing (parts kf) = before ++ item :: after ∧
      TornAt before item after piece front := by
  rw [serialise_eq] at torn ⊢
  exact torn_split (itemOk_listing ok) torn

/-- The entry whose line was torn belongs to the store. -/
theorem get_of_split {kf : Keyfile T} {before after : List (Item CString CString CString)} {sect key full : CString}
    (split : listing (parts kf) = before ++ .entry key full :: after) (here : currentAfter none before = some sect) :
    (view kf).get sect key = some full :=
  (mem_owned_listing kf sect key full).mp ((mem_owned_iff _ _ _ _ _).mpr ⟨before, after, split, here⟩)

/-- An entry that is read from a torn file stands in the lines before, or it is the one
    whose line is torn. -/
theorem TornAt.owned {before after : List (Item CString CString CString)} {item : Item CString CString CString}
    {piece front : Bytes} (torn : TornAt before item after piece front) {sect key value : CString}
    (held : (loadFile (some front)).get sect key = some value) :
    (sect, key, value) ∈ Sectioned.owned none before ∨ (currentAfter none before = some sect ∧
      itemsOf piece = [.entry key value] ∧ ∃ full, item = .entry key full ∧ value.bytes <+: full.bytes) := by
  rw [loadFile, load_get, torn.items] at held
  have member := firstFor_mem held
  rw [owned_append] at member
  exact (List.mem_append.mp member).imp id fun last => owned_cut torn.cut last

/-- The front of a saved file says nothing that the store does not have. -/
theorem torn_below {kf : Keyfile T} (ok : Representable (view kf)) {front : Bytes} (torn : front <+: serialise kf) :
    Below (loadFile (some front)) (view kf) := by
  rcases serialise_torn ok torn with rfl | ⟨before, item, after, piece, split, torn⟩
  · rw [loadFile_serialise ok]
    exact ⟨fun _ present => present, fun _ _ value held => ⟨value, held, List.prefix_rfl⟩⟩
  · refine ⟨fun sect present => ?_, fun sect key value held => ?_⟩
    · rw [loadFile, load_isSome, torn.items] at present
      rw [← loadFile_serialise ok, loadFile, load_isSome, itemsOf_serialise ok, split]
      rcases List.mem_append.mp present with whole | last
      · exact List.mem_append_left _ whole
      · rw [header_cut torn.cut last]
        simp
    · rcases torn.owned held with whole | ⟨here, _, full, rfl, front⟩
      · refine ⟨value, (mem_owned_listing kf sect key value).mp ?_, List.prefix_rfl⟩
        rw [split, owned_append]
        exact List.mem_append_left _ whole
      · exact ⟨full, get_of_split split here, front⟩

/-- At most one entry has lost the end of its value. -/
theorem torn_one {kf : Keyfile T} (ok : Representable (view kf)) {front : Bytes} (torn : front <+: serialise kf)
    {sect key value sect' key' value' : CString} (held : (loadFile (some front)).get sect key = some value)
    (held' : (loadFile (some front)).get sect' key' = some value') (less : (view kf).get sect key ≠ some value)
    (less' : (view kf).get sect' key' ≠ some value') : sect = sect' ∧ key = key' ∧ value = value' := by
  rcases serialise_torn ok torn with rfl | ⟨before, item, after, piece, split, torn⟩
  · rw [loadFile_serialise ok] at held
    exact absurd held less
  · have last : ∀ {sect key value : CString}, (loadFile (some front)).get sect key = some value →
        (view kf).get sect key ≠ some value → currentAfter none before = some sect ∧ itemsOf piece = [.entry key value] := by
      intro sect key value held less
      rcases torn.owned held with whole | ⟨here, said, _⟩
      · refine absurd ((mem_owned_listing kf sect key value).mp ?_) less
        rw [split, owned_append]
        exact List.mem_append_left _ whole
      · exact ⟨here, said⟩
    obtain ⟨here, said⟩ := last held less
    obtain ⟨here', said'⟩ := last held' less'
    rw [here] at here'
    rw [said] at said'
    cases here'
    cases said'
    exact ⟨rfl, rfl, rfl⟩

/-- What is read from the front of a saved file can be saved again. -/
theorem torn_representable {kf : Keyfile T} (ok : Representable (view kf)) {front : Bytes}
    (torn : front <+: serialise kf) : Representable (loadFile (some front)) := by
  apply loaded_representable
  intro name key value held
  obtain ⟨full, whole, _⟩ := (torn_below ok torn).entries name key value held
  exact (ok.entries name key full whole).unmarked

/-! ## Whole stores -/

/-- What is said takes as many bytes as its line, but for the newline. -/
theorem length_said {bytes : Bytes} {item : Item CString CString CString} (said : item ∈ itemsOf bytes) :
    (itemText item).length ≤ bytes.length + 1 := by
  obtain ⟨chunk, member, here⟩ := mem_itemsOf said
  have inBytes : chunk.length ≤ bytes.length := by
    rw [lineRoom_eq] at member
    have whole := (List.sublist_flatten_of_mem member).length_le
    rwa [chunks_flatten] at whole
  have inChunk : (CString.ofBuffer chunk).bytes.length ≤ chunk.length := (List.takeWhile_sublist _).length_le
  cases item with
  | header name =>
    obtain ⟨tail, split, _⟩ := itemOf_header here
    have length := congrArg List.length split
    simp only [itemText, keyfileHeaderText, List.length_append, List.length_cons, List.length_nil] at length ⊢
    omega
  | entry key value =>
    obtain ⟨_, _, skipped, gap, tail, split, _⟩ := itemOf_entry here
    have length := congrArg List.length split
    simp only [itemText, keyfileWriteLineCb, List.length_append, List.length_cons, List.length_nil] at length ⊢
    omega

theorem itemText_ends (item : Item CString CString CString) : ∃ line, itemText item = line ++ [newline] := by
  cases item with
  | header name => exact ⟨_, headerText_eq name⟩
  | entry key value => exact ⟨_, rfl⟩

/-- A line can do without its newline. -/
theorem itemsOf_unended {item : Item CString CString CString} (ok : ItemOk item) {piece : Bytes}
    (ended : itemText item = piece ++ [newline]) : itemsOf piece = [item] := by
  cases item with
  | header name =>
    have content : piece = openBracket :: name.bytes ++ [closeBracket] :=
      List.append_cancel_right (ended.symm.trans (headerText_eq name))
    rw [content, itemsOf_one (header_plain ok) (List.cons_ne_nil _ _) (header_fits ok),
      chunkItem_header (SectionOk.noBracket ok) []]
    rfl
  | entry key value =>
    have content : piece = key.bytes ++ equals :: value.bytes := (List.append_cancel_right ended).symm
    have entry : EntryOk key value := ok
    have said := chunkItem_entry entry.toLoadable entry.unmarked (.inl rfl)
    rw [List.append_nil] at said
    rw [content, itemsOf_one (line_plain entry.toLoadable) (by simp) (line_fits entry.toLoadable), said]
    rfl

/-! ### No line is printed twice -/

def headers (items : List (Item CString CString CString)) : List CString :=
  items.filterMap fun item => match item with
    | .header name => some name
    | .entry _ _ => none

theorem mem_headers (items : List (Item CString CString CString)) (name : CString) :
    name ∈ headers items ↔ .header name ∈ items := by
  rw [headers, List.mem_filterMap]
  constructor
  · rintro ⟨item, member, found⟩
    cases item with
    | header other => cases found; exact member
    | entry key value => cases found
  · intro member
    exact ⟨_, member, rfl⟩

theorem headers_listing (parts : List (CString × List (CString × CString))) :
    headers (listing parts) = parts.map Prod.fst := by
  induction parts with
  | nil => rfl
  | cons part rest ih =>
    have entries : headers (part.2.map fun line => Item.entry line.1 line.2) = [] := by
      rw [headers, List.filterMap_map]
      exact List.filterMap_eq_nil_iff.mpr fun _ _ => rfl
    have split : headers (listing (part :: rest)) =
        part.1 :: (headers (part.2.map fun line => Item.entry line.1 line.2) ++ headers (listing rest)) := by
      simp [headers, listing, block]
    rw [split, entries, ih]
    rfl

theorem parts_nodup (kf : Keyfile T) : ((parts kf).map Prod.fst).Nodup := by
  have names : (parts kf).map Prod.fst = (Patricia.foreach kf.sections).map Prod.fst := by
    rw [parts, List.map_map]
    refine List.map_congr_left fun entry member => ?_
    exact kf.named entry.1 entry.2 ((Patricia.mem_foreach kf.sections entry.1 entry.2).mp member)
  rw [names]
  exact Patricia.foreach_nodup kf.sections

theorem owned_nodup (kf : Keyfile T) :
    ((owned none (listing (parts kf))).map fun entry => (entry.1, entry.2.1)).Nodup := by
  rw [owned_listing, List.map_flatMap, List.nodup_flatMap]
  constructor
  · intro part member
    obtain ⟨entry, _, rfl⟩ := List.mem_map.mp member
    have keys := (Patricia.foreach_nodup entry.2.lines).map (f := fun key => (entry.2.name, key))
      fun _ _ same => (Prod.mk.inj same).2
    rw [List.map_map] at keys ⊢
    exact keys
  · refine (List.pairwise_map.mp (parts_nodup kf)).imp ?_
    intro left right differ
    show List.Disjoint _ _
    rw [List.disjoint_left]
    rintro pair inLeft inRight
    simp only [List.mem_map, exists_exists_and_eq_and] at inLeft inRight
    obtain ⟨_, _, rfl⟩ := inLeft
    obtain ⟨_, _, same⟩ := inRight
    exact differ (Prod.mk.inj same).1.symm

theorem headers_once (kf : Keyfile T) {before after : List (Item CString CString CString)} {name : CString}
    (split : listing (parts kf) = before ++ .header name :: after) : .header name ∉ before := by
  have once := parts_nodup kf
  rw [← headers_listing, split, headers, List.filterMap_append, List.nodup_append] at once
  intro inside
  exact once.2.2 name ((mem_headers before name).mpr inside) name List.mem_cons_self rfl

theorem entries_once (kf : Keyfile T) {before after : List (Item CString CString CString)} {sect key full : CString}
    (split : listing (parts kf) = before ++ .entry key full :: after) (here : currentAfter none before = some sect)
    (value : CString) : (sect, key, value) ∉ owned none before := by
  have once := owned_nodup kf
  rw [split, owned_append, here, List.map_append, List.nodup_append] at once
  intro inside
  exact once.2.2 (sect, key) (List.mem_map.mpr ⟨_, inside, rfl⟩) (sect, key) List.mem_cons_self rfl

/-- The first line of a file is a header. -/
theorem listing_owner {parts : List (CString × List (CString × CString))}
    {before after : List (Item CString CString CString)} {key full : CString}
    (split : listing parts = before ++ .entry key full :: after) : ∃ sect, currentAfter none before = some sect := by
  rw [← Option.isSome_iff_exists, currentAfter_isSome]
  cases before with
  | nil =>
    cases parts with
    | nil => cases split
    | cons part rest => cases (List.cons.inj split).1
  | cons first others =>
    cases parts with
    | nil => cases split
    | cons part rest =>
      rw [← (List.cons.inj split).1]
      exact .inr ⟨part.1, List.mem_cons_self⟩

/-- A store is not loaded without one of its lines. -/
theorem load_ne_of_lost {kf : Keyfile T} (ok : Representable (view kf)) {before after : List (Item CString CString CString)}
    {lost : Item CString CString CString} (split : listing (parts kf) = before ++ lost :: after)
    {said : List (Item CString CString CString)} (header : ∀ name, lost = .header name → .header name ∉ said)
    (entry : ∀ sect key full, lost = .entry key full → currentAfter none before = some sect →
      (sect, key, full) ∉ owned none said) : load said ≠ view kf := by
  intro same
  cases lost with
  | header name =>
    have present : (view kf name).isSome := by
      rw [← loadFile_serialise ok, loadFile, load_isSome, itemsOf_serialise ok, split]
      simp
    rw [← same, load_isSome] at present
    exact header name rfl present
  | entry key full =>
    obtain ⟨sect, here⟩ := listing_owner split
    have held := get_of_split split here
    rw [← same, load_get] at held
    exact entry sect key full rfl here (firstFor_mem held)

/-- The front of a saved file loads as the store exactly when nothing but the last
    newline is missing. -/
theorem torn_whole_iff {kf : Keyfile T} (ok : Representable (view kf)) {front : Bytes} (torn : front <+: serialise kf) :
    loadFile (some front) = view kf ↔ (serialise kf).length ≤ front.length + 1 := by
  rcases serialise_torn ok torn with rfl | ⟨before, item, after, piece, split, torn⟩
  · exact ⟨fun _ => Nat.le_succ _, fun _ => loadFile_serialise ok⟩
  · have lengths : (serialise kf).length + piece.length =
        front.length + (itemText item).length + (after.map itemText).flatten.length := by
      rw [serialise_eq, split, torn.bytes]
      simp only [List.map_append, List.map_cons, List.flatten_append, List.flatten_cons, List.length_append]
      omega
    have short := torn.short
    constructor
    · intro whole
      by_contra more
      rw [loadFile, torn.items] at whole
      rcases Nat.lt_or_ge (piece.length + 1) (itemText item).length with cut | ended
      · -- The torn line has lost more than its newline.
        have unsaid : item ∉ itemsOf piece := fun said => by
          have length := length_said said
          omega
        refine load_ne_of_lost ok split ?_ ?_ whole
        · rintro name rfl inside
          rcases List.mem_append.mp inside with early | last
          · exact headers_once kf split early
          · exact unsaid last
        · rintro sect key full rfl here inside
          rw [owned_append] at inside
          rcases List.mem_append.mp inside with early | last
          · exact entries_once kf split here full early
          · obtain ⟨_, said, _⟩ := owned_cut torn.cut last
            exact unsaid (by rw [said]; exact List.mem_cons_self)
      · -- There is a line after it.
        cases after with
        | nil =>
          simp only [List.map_nil, List.flatten_nil, List.length_nil] at lengths
          omega
        | cons next others =>
          have behind : listing (parts kf) = (before ++ [item]) ++ next :: others := by rw [split]; simp
          refine load_ne_of_lost ok behind ?_ ?_ whole
          · rintro name rfl inside
            refine headers_once kf behind ?_
            rcases List.mem_append.mp inside with early | last
            · exact List.mem_append_left _ early
            · rw [header_cut torn.cut last]
              simp
          · rintro sect key full rfl here inside
            rw [owned_append] at inside
            rcases List.mem_append.mp inside with early | last
            · refine entries_once kf behind here full ?_
              rw [owned_append]
              exact List.mem_append_left _ early
            · obtain ⟨atItem, _, other, rfl, _⟩ := owned_cut torn.cut last
              refine entries_once kf behind here other ?_
              rw [owned_append, atItem]
              exact List.mem_append_right _ List.mem_cons_self
    · intro almost
      have none : (after.map itemText).flatten = [] := List.length_eq_zero_iff.mp (by omega)
      have last : after = [] := by
        cases after with
        | nil => rfl
        | cons next others =>
          obtain ⟨line, ends⟩ := itemText_ends next
          have length := congrArg List.length none
          simp only [List.map_cons, List.flatten_cons, ends, List.length_append, List.length_singleton, List.length_nil] at length
          omega
      obtain ⟨line, ends⟩ := itemText_ends item
      have part := torn.part
      have size := congrArg List.length ends
      rw [List.length_append, List.length_singleton] at size
      rw [ends] at part
      have inside : piece <+: line := (List.prefix_concat_iff.mp part).resolve_left fun same => by
        rw [same, List.length_append, List.length_singleton] at short
        omega
      have content : piece = line := inside.eq_of_length (by rw [none, List.length_nil] at lengths; omega)
      rw [loadFile, torn.items, itemsOf_unended torn.ok (by rw [ends, content]), ← loadFile_serialise ok, loadFile,
        itemsOf_serialise ok, split, last]

end Mcs.Torn
