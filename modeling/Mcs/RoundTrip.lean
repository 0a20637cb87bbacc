import Mcs.Format

/-!
Saving a store and loading it again. A file carries exactly the representable
stores: every other one comes back changed (`roundTrip_iff`). What a file loads
as is representable, and survives any number of such cycles, unless an entry of
the file hides a marked key behind leading `=` signs (`resaves_iff`).
-/
namespace Mcs.RoundTrip
open Mcs.Dictionary Mcs.Dictionary.Patricia Mcs.Strings Mcs.Sectioned Mcs.KeyfileModel Mcs.Reading Mcs.Format

variable {T : Type → Type} [Patricia CString T]

/-- What `keyfile_open` loads from what `keyfile_write` prints. -/
def resave (kf : Keyfile T) : Option (Keyfile T) := keyfileOpen (some (serialise kf))

theorem map_view_resave (kf : Keyfile T) : (resave kf).map view = some (loadFile (some (serialise kf))) :=
  map_view_keyfileOpen _

/-! ## Loaded stores -/

theorem loaded_section {file : Option Bytes} {name : CString} (present : (loadFile file name).isSome) :
    SectionOk name := by
  cases file with
  | none => simp [loadFile, Store.empty] at present
  | some bytes => exact header_sectionOk ((load_isSome _ _).mp present)

theorem loaded_entry {file : Option Bytes} {name key value : CString}
    (held : (loadFile file).get name key = some value) : Loadable key value := by
  cases file with
  | none => simp [loadFile] at held
  | some bytes =>
    rw [loadFile, load_get] at held
    exact entry_loadable (owner_mem _ _ (firstFor_mem held)).2

theorem loaded_representable {file : Option Bytes}
    (unmarked : ∀ name key value, (loadFile file).get name key = some value → ¬ Marked key) :
    Representable (loadFile file) :=
  ⟨fun _ present => loaded_section present,
    fun name key value held => ⟨loaded_entry held, unmarked name key value held⟩⟩

/-! ## Saved stores -/

theorem loadFile_serialise {kf : Keyfile T} (ok : Representable (view kf)) :
    loadFile (some (serialise kf)) = view kf := by
  rw [loadFile, itemsOf_serialise ok, load_listing (lists_parts kf)]

theorem mem_chunks_flatten {texts : List Bytes} (whole : ∀ text ∈ texts, WholeLines text) {chunk : Bytes}
    (member : chunk ∈ chunks lineRoom texts.flatten) : ∃ text ∈ texts, chunk ∈ chunks lineRoom text := by
  rw [lineRoom_eq] at member ⊢
  induction texts with
  | nil => simp at member
  | cons text rest ih =>
    rw [List.flatten_cons, chunks_append (whole text List.mem_cons_self)] at member
    rcases List.mem_append.mp member with here | later
    · exact ⟨text, List.mem_cons_self, here⟩
    · obtain ⟨found, inRest, inChunks⟩ := ih (fun text inRest => whole text (List.mem_cons_of_mem _ inRest)) later
      exact ⟨found, List.mem_cons_of_mem _ inRest, inChunks⟩

/-- The chunks of a line that fits begin like the line or are its newline. -/
theorem chunk_head {line chunk : Bytes} (plain : newline ∉ line) (fits : line.length ≤ 4095)
    (nonempty : line ≠ []) (member : chunk ∈ chunks lineRoom (line ++ [newline])) :
    chunk.head? = line.head? ∨ chunk = [newline] := by
  obtain ⟨first, more, rfl⟩ := List.exists_cons_of_ne_nil nonempty
  rcases chunks_line plain fits with one | two
  · rw [one, List.mem_singleton] at member
    exact .inl (by rw [member]; rfl)
  · rw [two, List.mem_cons, List.mem_singleton] at member
    rcases member with rfl | rfl
    · exact .inl rfl
    · exact .inr rfl

/-- Where all printed lines fit, no chunk of the file begins with `=`. -/
theorem saved_chunk_head {kf : Keyfile T} (sections : ∀ name, (view kf name).isSome → SectionOk name)
    (entries : ∀ name key value, (view kf).get name key = some value → Loadable key value) {chunk : Bytes}
    (member : chunk ∈ chunks lineRoom (serialise kf)) : chunk.head? ≠ some equals := by
  obtain ⟨text, inTexts, inChunks⟩ := mem_chunks_flatten (wholeLines_texts kf) member
  rw [keyfileTexts_eq] at inTexts
  obtain ⟨part, inParts, inPart⟩ := List.mem_flatMap.mp inTexts
  have lists := lists_parts kf
  rcases List.mem_cons.mp inPart with rfl | inLines
  · have ok := sections part.1 ((lists.sections part.1).mpr ⟨part.2, inParts⟩)
    have fits : (openBracket :: part.1.bytes ++ [closeBracket]).length ≤ 4095 := by
      have short := ok.fits
      simp only [List.length_append, List.length_cons, List.length_nil]
      omega
    rw [headerText_eq] at inChunks
    rcases chunk_head (header_plain ok) fits (by simp) inChunks with head | rfl
    · rw [head]
      show some openBracket ≠ some equals
      decide
    · decide
  · obtain ⟨⟨key, value⟩, line, rfl⟩ := List.mem_map.mp inLines
    have ok := entries part.1 key value ((lists.lines _ _ _).mpr ⟨part.2, inParts, line⟩)
    have fits : (key.bytes ++ equals :: value.bytes).length ≤ 4095 := by
      have short := ok.fits
      simp only [List.length_append, List.length_cons]
      omega
    rcases chunk_head (line_plain ok) fits (by simp) inChunks with head | rfl
    · obtain ⟨first, more, start⟩ := List.exists_cons_of_ne_nil ok.keyNonempty
      have plain := ok.keyNoEquals
      rw [start] at plain
      rw [head, start]
      simp only [List.cons_append, List.head?_cons, ne_eq, Option.some.injEq]
      exact fun same => plain (by simp [same])
    · decide

/-- So the key of an entry begins its chunk, which is no header and no comment. -/
theorem saved_unmarked {kf : Keyfile T} (sections : ∀ name, (view kf name).isSome → SectionOk name)
    (entries : ∀ name key value, (view kf).get name key = some value → Loadable key value)
    {key value : CString} (said : .entry key value ∈ itemsOf (serialise kf)) : ¬ Marked key := by
  obtain ⟨chunk, member, item⟩ := mem_itemsOf said
  have head := saved_chunk_head sections entries member
  obtain ⟨noBracket, noHash, skipped, gap, tail, split, onlyEquals, keyNonempty, _⟩ := itemOf_entry item
  have cut : chunk = (CString.ofBuffer chunk).bytes ++ chunk.dropWhile (· ≠ 0) :=
    (List.takeWhile_append_dropWhile ..).symm
  have start : skipped = [] := by
    cases skipped with
    | nil => rfl
    | cons byte more =>
      rw [split, onlyEquals byte List.mem_cons_self] at cut
      rw [cut] at head
      simp at head
  obtain ⟨first, more, keyStart⟩ := List.exists_cons_of_ne_nil keyNonempty
  have same : (CString.ofBuffer chunk).byteAt 0 = key.byteAt 0 := by
    rw [CString.byteAt, CString.byteAt, split, start, keyStart]
    rfl
  rw [same] at noBracket noHash
  exact fun marked => marked.elim noBracket noHash

/-- A store that comes back is representable. -/
theorem representable_of_reload {kf : Keyfile T} (same : loadFile (some (serialise kf)) = view kf) :
    Representable (view kf) := by
  have sections : ∀ name, (view kf name).isSome → SectionOk name := fun name present =>
    loaded_section (by rw [same]; exact present)
  have entries : ∀ name key value, (view kf).get name key = some value → Loadable key value :=
    fun name key value held => loaded_entry (by rw [same]; exact held)
  refine ⟨sections, fun name key value held => ⟨entries name key value held, ?_⟩⟩
  rw [← same, loadFile, load_get] at held
  exact saved_unmarked sections entries (owner_mem _ _ (firstFor_mem held)).2

/-- Exactly the representable stores come back as they were, in whatever order
    `foreach` prints them. -/
theorem roundTrip_iff (kf : Keyfile T) :
    (resave kf).map view = some (view kf) ↔ Representable (view kf) := by
  rw [map_view_resave, Option.some.injEq]
  exact ⟨representable_of_reload, loadFile_serialise⟩

/-! ## Setting one entry of a representable store -/

theorem empty_representable : Representable (.empty : Store CString CString CString) :=
  ⟨fun _ present => by simp [Store.empty] at present, fun _ _ _ held => by simp at held⟩

theorem addSection_representable {store : Store CString CString CString} (ok : Representable store)
    {sect : CString} (name : SectionOk sect) : Representable (store.addSection sect) := by
  refine ⟨?_, fun other sought found held => ok.entries other sought found (by simpa using held)⟩
  intro other present
  rcases (Store.isSome_addSection _ _ _).mp present with rfl | before
  · exact name
  · exact ok.sections other before

theorem set_representable {store : Store CString CString CString} (ok : Representable store)
    {sect key value : CString} (name : SectionOk sect) (entry : EntryOk key value) :
    Representable (store.set sect key value) :=
  ⟨Store.forall_names_set ok.sections name key value, Store.forall_entries_set ok.entries sect entry⟩

theorem unset_representable {store : Store CString CString CString} (ok : Representable store)
    (sect key : CString) : Representable (store.unset sect key) := by
  refine ⟨fun other present => ok.sections other (by simpa using present), ?_⟩
  intro other sought found held
  rw [Store.get_unset] at held
  split at held
  · cases held
  · exact ok.entries other sought found held

/-- An entry is there again after a save exactly when the format can carry it. -/
theorem reread_iff {kf : Keyfile T} (ok : Representable (view kf)) (sect key value : CString) :
    (loadFile (some (serialise (keyfileSetString kf sect key value).1))).get sect key = some value ↔
      SectionOk sect ∧ EntryOk key value := by
  have store := view_keyfileSetString kf sect key value
  constructor
  · intro back
    have name : SectionOk sect := loaded_section (Store.isSome_of_get back)
    have loadable := loaded_entry back
    refine ⟨name, loadable, ?_⟩
    have oldEntries : ∀ other sought found, (view kf).get other sought = some found → Loadable sought found :=
      fun other sought found held => (ok.entries other sought found held).toLoadable
    rw [loadFile, load_get] at back
    refine saved_unmarked ?_ ?_ (owner_mem _ _ (firstFor_mem back)).2
    · rw [store]
      exact Store.forall_names_set ok.sections name key value
    · rw [store]
      exact Store.forall_entries_set oldEntries sect loadable
  · rintro ⟨name, entry⟩
    have again := set_representable ok name entry
    rw [← store] at again
    rw [loadFile_serialise again, store, Store.get_set, if_pos rfl]

/-! ## Cycles of loading and saving -/

/-- So many cycles of saving and loading. -/
def resaves : Nat → Keyfile T → Option (Keyfile T)
  | 0, kf => some kf
  | count + 1, kf => (resave kf).bind (resaves count)

theorem view_resaves {kf : Keyfile T} (ok : Representable (view kf)) (count : Nat) :
    (resaves count kf).map view = some (view kf) := by
  induction count generalizing kf with
  | zero => rfl
  | succ count ih =>
    have back := map_view_resave kf
    rw [loadFile_serialise ok] at back
    obtain ⟨next, executed, same⟩ := Option.map_eq_some_iff.mp back
    rw [resaves, executed, Option.bind_some, ← same]
    exact ih (by rw [same]; exact ok)

/-- Some entry after the first header has, once its leading `=` signs are
    skipped, a key whose own line begins like a header or a comment. -/
def HidesMark (file : Bytes) : Prop :=
  ∃ before key value after, itemsOf file = before ++ .entry key value :: after ∧
    (∃ name, .header name ∈ before) ∧ Marked key

theorem hidesMark_iff (file : Bytes) :
    HidesMark file ↔ ∃ name key value, (loadFile (some file)).get name key = some value ∧ Marked key := by
  constructor
  · rintro ⟨before, key, value, after, split, opened, marked⟩
    obtain ⟨name, here⟩ := Option.isSome_iff_exists.mp
      ((currentAfter_isSome none before).mpr (.inr opened))
    have member := (mem_owned_iff none _ name key value).mpr ⟨before, after, split, here⟩
    obtain ⟨first, held⟩ := firstFor_of_mem member
    exact ⟨name, key, first, by rw [loadFile, load_get, held], marked⟩
  · rintro ⟨name, key, value, held, marked⟩
    rw [loadFile, load_get] at held
    obtain ⟨before, after, split, here⟩ := (mem_owned_iff none _ _ _ _).mp (firstFor_mem held)
    have opened := (currentAfter_isSome none before).mp (by rw [here]; rfl)
    exact ⟨before, key, value, after, split, opened.resolve_left (by simp), marked⟩

/-- Opening a file and saving it, any number of times, changes no store exactly
    when the file hides no marked key. -/
theorem resaves_iff (file : Bytes) :
    (∀ count, ((keyfileOpen (some file)).bind (resaves (T := T) count)).map view =
      (keyfileOpen (some file) : Option (Keyfile T)).map view) ↔ ¬ HidesMark file := by
  obtain ⟨kf, executed, loaded⟩ := keyfileOpen_total_correct (T := T) (some file)
  rw [executed, hidesMark_iff, ← loaded]
  simp only [Option.bind_some, Option.map_some]
  constructor
  · rintro stable ⟨name, key, value, held, marked⟩
    have once := stable 1
    simp only [resaves] at once
    rw [Option.bind_fun_some, map_view_resave, Option.some.injEq] at once
    exact ((representable_of_reload once).entries name key value held).unmarked marked
  · intro hidden count
    apply view_resaves
    rw [loaded]
    apply loaded_representable
    intro name key value held marked
    exact hidden ⟨name, key, value, by rw [loaded]; exact held, marked⟩

/-- The text of the file `[s]`, `=#a=b`. -/
def hiddenComment : Bytes := [91, 115, 93, 10, 61, 35, 97, 61, 98, 10]

def nameA : CString := ⟨[97], by decide⟩
def nameB : CString := ⟨[98], by decide⟩
def nameS : CString := ⟨[115], by decide⟩
def keyHashA : CString := ⟨[35, 97], by decide⟩

/-- Saved once, the entry is a comment, and gone. -/
theorem hiddenComment_lost : ¬ ∀ file : Bytes,
    ((keyfileOpen (some file) : Option (Keyfile (Assoc false CString))).bind resave).map view =
      (keyfileOpen (some file) : Option (Keyfile (Assoc false CString))).map view := by
  intro stable
  have gets := congrArg (Option.map fun store => store.get nameS keyHashA) (stable hiddenComment)
  simp only [Option.map_map] at gets
  revert gets
  decide

end Mcs.RoundTrip
