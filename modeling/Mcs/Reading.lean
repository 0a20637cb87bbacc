import Mcs.KeyfileModel

/-!
What `keyfile_open` makes of the bytes of a file. Each buffer that `fgets` fills
is a header, an entry or nothing (`itemOf`), the loop reads those items as a
`Sectioned` file (`keyfileOpen_total_correct`), and no buffer can give more than
`SectionOk` and `Loadable` say.
-/
namespace Mcs.Reading
open Mcs.Dictionary Mcs.Dictionary.Patricia Mcs.Strings Mcs.Sectioned Mcs.KeyfileModel

/-- What one buffer says. -/
def itemOf (buffer : CString) : Option (Item CString CString CString) :=
  if buffer.byteAt 0 = openBracket then
    (strchr buffer closeBracket).map fun tmp => .header ((buffer.take tmp).drop 1)
  else if buffer.byteAt 0 = hashSign then none
  else
    match (strtok buffer [equals]).1, (strtok (strtok buffer [equals]).2 [newline]).1 with
    | some key, some value => some (.entry key value)
    | _, _ => none

/-- What one chunk of a file says. -/
def chunkItem (chunk : Bytes) : Option (Item CString CString CString) := itemOf (.ofBuffer chunk)

/-- What the chunks of a file say, in order. -/
def itemsOf (bytes : Bytes) : List (Item CString CString CString) := (chunks lineRoom bytes).filterMap chunkItem

/-- The store that a file loads as. -/
def loadFile : Option Bytes → Store CString CString CString
  | none => .empty
  | some bytes => load (itemsOf bytes)

/-! ## Tokens -/

/-- A token is the text up to the next delimiter, once leading delimiters are skipped. -/
theorem strtok_some {s token : CString} {delim : UInt8} (found : (strtok s [delim]).1 = some token) :
    ∃ skipped left, s.bytes = skipped ++ token.bytes ++ left ∧ (∀ byte ∈ skipped, byte = delim) ∧
      token.bytes ≠ [] ∧ delim ∉ token.bytes ∧ (left = [] ∨ left.head? = some delim) ∧
      (strtok s [delim]).2.bytes = left.drop 1 := by
  by_cases none : s.bytes.dropWhile (· ∈ [delim]) = []
  · rw [strtok_of_nil none] at found
    cases found
  · obtain ⟨first, rest, executed, tokenIs, restIs⟩ := strtok_of_ne_nil none
    rw [executed] at found ⊢
    cases found
    refine ⟨s.bytes.takeWhile (· ∈ [delim]), (s.bytes.dropWhile (· ∈ [delim])).dropWhile (· ∉ [delim]),
      ?_, ?_, ?_, ?_, ?_, restIs⟩
    · rw [tokenIs, List.append_assoc, List.takeWhile_append_dropWhile, List.takeWhile_append_dropWhile]
    · intro byte member
      simpa using List.mem_takeWhile_imp member
    · have stopped := List.head_dropWhile_not (fun byte => decide (byte ∈ [delim])) none
      obtain ⟨byte, more, start⟩ := List.exists_cons_of_ne_nil none
      simp only [start, List.head_cons, decide_eq_false_iff_not] at stopped
      rw [tokenIs, start, List.takeWhile_cons, if_pos (by simpa using stopped)]
      exact List.cons_ne_nil _ _
    · intro member
      rw [tokenIs] at member
      simpa using List.mem_takeWhile_imp member
    · by_cases ended : (s.bytes.dropWhile (· ∈ [delim])).dropWhile (· ∉ [delim]) = []
      · exact .inl ended
      · have stopped := List.head_dropWhile_not (fun byte => decide (byte ∉ [delim])) ended
        rw [List.head?_eq_some_head ended]
        exact .inr (congrArg some (by simpa using stopped))

theorem strtok_none {s : CString} {delim : UInt8} (missing : (strtok s [delim]).1 = none) :
    (strtok s [delim]).2 = .empty := by
  by_cases none : s.bytes.dropWhile (· ∈ [delim]) = []
  · rw [strtok_of_nil none]
  · obtain ⟨first, rest, executed, _⟩ := strtok_of_ne_nil none
    rw [executed] at missing
    cases missing

/-- Only after a first token there can be a second one. -/
theorem strtok_before {s token : CString} {delim : UInt8} {delims : List UInt8}
    (second : (strtok (strtok s [delim]).2 delims).1 = some token) : ∃ first, (strtok s [delim]).1 = some first := by
  cases first : (strtok s [delim]).1 with
  | some found => exact ⟨found, rfl⟩
  | none =>
    rw [strtok_none first, strtok_empty] at second
    cases second

/-- And only behind a delimiter, since without one the first token runs to the end. -/
theorem strchr_before {s token : CString} {delim : UInt8} {delims : List UInt8}
    (second : (strtok (strtok s [delim]).2 delims).1 = some token) : ∃ index, strchr s delim = some index := by
  cases found : strchr s delim with
  | some index => exact ⟨index, rfl⟩
  | none =>
    obtain ⟨first, key⟩ := strtok_before second
    obtain ⟨skipped, left, split, _, _, _, ends, rest⟩ := strtok_some key
    have ended : left = [] := by
      refine ends.resolve_right ?_
      intro head
      have member := List.mem_of_mem_head? (Option.mem_def.mpr head)
      exact absurd (by rw [split]; simp [member]) (strchr_eq_none.mp found)
    have empty : (strtok s [delim]).2 = .empty := by
      ext1
      rw [rest, ended]
      rfl
    rw [empty, strtok_empty] at second
    cases second

/-- A token at the start of a string that ends at a delimiter or with the string. -/
theorem strtok_token {s : CString} {delim : UInt8} {token left : Bytes} (split : s.bytes = token ++ left)
    (nonempty : token ≠ []) (plain : delim ∉ token) (ends : left = [] ∨ left.head? = some delim) :
    ∃ found rest, strtok s [delim] = (some found, rest) ∧ found.bytes = token ∧ rest.bytes = left.drop 1 := by
  obtain ⟨first, more, rfl⟩ := List.exists_cons_of_ne_nil nonempty
  have other : first ≠ delim := fun same => plain (by simp [same])
  have start : s.bytes.dropWhile (· ∈ [delim]) = first :: more ++ left := by simp [split, other]
  have inside : ∀ byte ∈ first :: more, decide (byte ∉ [delim]) = true := by
    intro byte member
    have differ : byte ≠ delim := fun same => plain (same ▸ member)
    simp [differ]
  have stops : left.takeWhile (· ∉ [delim]) = [] ∧ left.dropWhile (· ∉ [delim]) = left := by
    rcases ends with rfl | head
    · simp
    · cases left with
      | nil => simp
      | cons byte rest =>
        simp only [List.head?_cons, Option.some.injEq] at head
        simp [head]
  have some : s.bytes.dropWhile (· ∈ [delim]) ≠ [] := by rw [start]; exact List.cons_ne_nil _ _
  obtain ⟨found, rest, executed, tokenIs, restIs⟩ := strtok_of_ne_nil some
  refine ⟨found, rest, executed, ?_, ?_⟩
  · rw [tokenIs, start, List.takeWhile_append_of_pos inside, stops.1, List.append_nil]
  · rw [restIs, start, List.dropWhile_append_of_pos inside, stops.2]

/-! ## The loop reads items -/

section
variable {T : Type → Type} [Patricia CString T]

/-- The loop's variables as a reader's position. -/
def cursor (st : Loading T) : Cursor CString CString CString := ⟨view st.out, st.sec⟩

private theorem view_firstLine (self : Keyfile T) (sec key value : CString) :
    view (self.onLines sec fun lines =>
      match retrieve lines key with
      | none => add lines key value
      | some _ => lines) = (view self).addLine sec key value := by
  rw [view_onLines _ _ _ (fun lines => Function.update lines key (some ((lines key).getD value)))]
  · rfl
  · intro lines
    cases old : retrieve lines key with
    | none => exact retrieve_add_eq lines key value
    | some val =>
      funext sought
      by_cases same : sought = key
      · simp [same, old]
      · simp [same]

/-- One pass of the loop hands over no null key, and reads what the buffer says. -/
theorem keyfileOpenLine_total_correct (st : Loading T) (buffer : CString) :
    ∃ after, keyfileOpenLine st buffer = some after ∧
      cursor after = (itemOf buffer).elim (cursor st) (cursor st).read := by
  by_cases bracket : buffer.byteAt 0 = openBracket
  · cases close : strchr buffer closeBracket with
    | none => exact ⟨st, by simp [keyfileOpenLine, bracket, close], by simp [itemOf, bracket, close]⟩
    | some tmp =>
      cases held : retrieve st.out.sections ((buffer.take tmp).drop 1) with
      | none =>
        refine ⟨_, by simp [keyfileOpenLine, bracket, close, held]; rfl, ?_⟩
        simp [itemOf, bracket, close, cursor, Cursor.read, view_keyfileCreateSection]
      | some filed =>
        refine ⟨_, by simp [keyfileOpenLine, bracket, close, held]; rfl, ?_⟩
        have present : view st.out ((buffer.take tmp).drop 1) = some fun key => retrieve filed.lines key := by
          simp [view, held]
        simp [itemOf, bracket, close, cursor, Cursor.read, Store.addSection, present]
  · by_cases comment : buffer.byteAt 0 = hashSign
    · exact ⟨st, by rw [keyfileOpenLine, if_neg bracket, if_pos comment],
        by rw [itemOf, if_neg bracket, if_pos comment]; rfl⟩
    · cases current : st.sec with
      | none =>
        refine ⟨st, by simp [keyfileOpenLine, bracket, comment, current], ?_⟩
        cases said : itemOf buffer with
        | none => rfl
        | some item =>
          cases item with
          | header name => simp only [itemOf, bracket, comment, ↓reduceIte] at said; split at said <;> cases said
          | entry key value => simp [cursor, Cursor.read, current]
      | some sec =>
        cases value : (strtok (strtok buffer [equals]).2 [newline]).1 with
        | none =>
          refine ⟨st, ?_, by cases key : (strtok buffer [equals]).1 <;> simp [itemOf, bracket, comment, key, value]⟩
          cases found : strchr buffer equals <;> simp [keyfileOpenLine, bracket, comment, current, found, value]
        | some tmp2 =>
          obtain ⟨_, _, _, _, nonempty, _⟩ := strtok_some value
          have long : 0 < strlen tmp2 := List.length_pos_iff.mpr nonempty
          -- A second token means that the first one was there, and ended at a delimiter.
          obtain ⟨tmp, key⟩ := strtok_before value
          obtain ⟨index, found⟩ := strchr_before value
          refine ⟨_, by simp [keyfileOpenLine, bracket, comment, current, found, value, long, key]; rfl, ?_⟩
          simp only [cursor, current, itemOf, bracket, comment, key, value, ↓reduceIte, Option.elim_some, Cursor.read]
          exact congrArg (fun store => Cursor.mk store (some sec)) (view_firstLine st.out sec tmp tmp2)

theorem keyfileOpenLoop_total_correct (st : Loading T) (buffers : List Bytes) :
    ∃ after, keyfileOpenLoop st buffers = some after ∧
      cursor after = (cursor st).readAll (buffers.filterMap chunkItem) := by
  induction buffers generalizing st with
  | nil => exact ⟨st, rfl, rfl⟩
  | cons buffer rest ih =>
    obtain ⟨next, executed, read⟩ := keyfileOpenLine_total_correct st (.ofBuffer buffer)
    obtain ⟨after, run, correct⟩ := ih next
    refine ⟨after, ?_, ?_⟩
    · simp only [keyfileOpenLoop, List.foldlM_cons, executed] at run ⊢
      exact run
    · rw [correct, read]
      cases said : itemOf (.ofBuffer buffer) with
      | none => simp [chunkItem, said]
      | some item => simp [chunkItem, said, Cursor.readAll]

/-- Opening terminates without a null key on every file, and loads its items. -/
theorem keyfileOpen_total_correct (file : Option Bytes) :
    ∃ kf : Keyfile T, keyfileOpen file = some kf ∧ view kf = loadFile file := by
  cases file with
  | none => exact ⟨keyfileNew, rfl, view_keyfileNew⟩
  | some bytes =>
    obtain ⟨after, executed, read⟩ :=
      keyfileOpenLoop_total_correct (T := T) ⟨keyfileNew, none⟩ (chunks lineRoom bytes)
    refine ⟨after.out, by simp [keyfileOpen, executed], ?_⟩
    have stores := congrArg Cursor.store read
    simpa [cursor, view_keyfileNew, loadFile, load, itemsOf] using stores

theorem map_view_keyfileOpen (file : Option Bytes) :
    (keyfileOpen file : Option (Keyfile T)).map view = some (loadFile file) := by
  obtain ⟨kf, executed, loaded⟩ := keyfileOpen_total_correct (T := T) file
  rw [executed, Option.map_some, loaded]

end

end Mcs.Reading
