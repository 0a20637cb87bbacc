import Mcs.Isolation
import Mcs.Meaning
import Mcs.Sessions

/-!
Sessions on a file that cannot be read. To `keyfile_open` a null pointer from
`fopen` is a missing file and a null pointer from `fgets` the end of the file, so
the handle holds what was read before the error, and its destruction replaces the
file with that. An entry that the session leaves alone is still there afterwards
exactly when it was read before the error (`unread_iff`).
-/
namespace Mcs.Interrupted
open Mcs.Dictionary Mcs.Strings Mcs.Sectioned Mcs.KeyfileModel Mcs.Reading Mcs.Format Mcs.RoundTrip Mcs.Isolation
open Mcs.Files Mcs.Histories Mcs.Backend Mcs.Sessions Mcs.Meaning

variable {T : Type → Type} [Patricia CString T]

/-- How reading a file fails: `fopen` returns null, or `fgets` does, after it has
    filled the buffer so many times. -/
inductive ReadError where
  | fopen
  | fgets (filled : Nat)

/-- `keyfile_open` on a file that it cannot read to its end. -/
def keyfileOpenFailing (error : ReadError) (bytes : Bytes) : Option (Keyfile T) :=
  match error with
  | .fopen => some keyfileNew
  | .fgets filled => (keyfileOpenLoop ⟨keyfileNew, none⟩ ((chunks lineRoom bytes).take filled)).map Loading.out

/-- `mcs_keyfile_new` on a file that is there and cannot be read to its end. -/
def mcsKeyfileNewFailing (error : ReadError) (env : Environment) (domain : CString) (disk : Disk CString) :
    Option (Handle T) :=
  (configPath env domain).bind fun loc =>
    (disk.content loc).bind fun bytes =>
      (keyfileOpenFailing error bytes).map fun kf => ⟨loc, kf⟩

/-- What was read before the error. -/
def ReadError.chunksRead (error : ReadError) (bytes : Bytes) : List Bytes :=
  match error with
  | .fopen => []
  | .fgets filled => (chunks lineRoom bytes).take filled

/-- Every entry of the file that the session neither set nor unset has its old
    value in the next session, which reads the file successfully. -/
def Kept (T : Type → Type) [Patricia CString T] (env : Environment) (domain : CString) (disk : Disk CString)
    (bytes : Bytes) (error : ReadError) (session : Session) : Prop :=
  ∃ self next : Handle T, mcsKeyfileNewFailing error env domain disk = some self ∧
    mcsKeyfileNew env domain (saved (performAll self session.ops).1 session.world disk) = some next ∧
    ∀ sect key value, FirstValue (chunks lineRoom bytes) sect key value →
      (∀ left, ((sect, key), left) ∉ writes session.ops) →
        ∀ old, keyfileGetString next.kf sect key old = (.MCS_OK, some value)

/-! ## What is read before the error -/

theorem chunksRead_readable {error : ReadError} {bytes chunk : Bytes} (member : chunk ∈ error.chunksRead bytes) :
    chunk ∈ chunks lineRoom bytes := by
  cases error with
  | fopen => cases member
  | fgets filled => exact List.mem_of_mem_take member

/-- An error is not told apart: what was read is loaded. -/
theorem keyfileOpenFailing_total_correct (error : ReadError) (bytes : Bytes) :
    ∃ kf : Keyfile T, keyfileOpenFailing error bytes = some kf ∧
      view kf = load ((error.chunksRead bytes).filterMap chunkItem) := by
  cases error with
  | fopen => exact ⟨keyfileNew, rfl, view_keyfileNew⟩
  | fgets filled =>
    obtain ⟨after, executed, read⟩ :=
      keyfileOpenLoop_total_correct (T := T) ⟨keyfileNew, none⟩ ((chunks lineRoom bytes).take filled)
    refine ⟨after.out, by simp [keyfileOpenFailing, executed], ?_⟩
    have stores := congrArg Cursor.store read
    simpa [cursor, view_keyfileNew, load, ReadError.chunksRead] using stores

/-- A file that is not there and one that cannot be opened are the same. -/
theorem keyfileOpenFailing_fopen (bytes : Bytes) :
    (keyfileOpenFailing .fopen bytes : Option (Keyfile T)) = keyfileOpen none := rfl

/-- An error behind the last line is the end of the file. -/
theorem keyfileOpenFailing_late {bytes : Bytes} {filled : Nat} (late : (chunks lineRoom bytes).length ≤ filled) :
    (keyfileOpenFailing (.fgets filled) bytes : Option (Keyfile T)) = keyfileOpen (some bytes) := by
  rw [keyfileOpenFailing, List.take_of_length_le late]
  rfl

/-- An entry that was read has the value that it has in the whole file. -/
theorem firstValue_of_read {error : ReadError} {bytes : Bytes} {sect key value : CString}
    (first : FirstValue (error.chunksRead bytes) sect key value) :
    FirstValue (chunks lineRoom bytes) sect key value := by
  cases error with
  | fopen =>
    obtain ⟨before, chunk, after, split, _⟩ := first
    exact absurd split.symm (by simp [ReadError.chunksRead])
  | fgets filled =>
    obtain ⟨before, chunk, after, split, nearest, entry, alone⟩ := first
    have whole := List.take_append_drop filled (chunks lineRoom bytes)
    refine ⟨before, chunk, after ++ (chunks lineRoom bytes).drop filled, ?_, nearest, entry, alone⟩
    rw [ReadError.chunksRead] at split
    rw [split] at whole
    simpa using whole.symm

theorem firstValue_read_iff (error : ReadError) (bytes : Bytes) (sect key value : CString) :
    FirstValue (error.chunksRead bytes) sect key value ↔
      (load ((error.chunksRead bytes).filterMap chunkItem)).get sect key = some value :=
  firstValue_load_iff (fun _ member => ⟨bytes, chunksRead_readable member⟩) sect key value

/-- A part of a file that the format carries is carried as well. -/
theorem read_representable {bytes : Bytes} (whole : Representable (loadFile (some bytes))) (error : ReadError) :
    Representable (load ((error.chunksRead bytes).filterMap chunkItem)) := by
  constructor
  · intro name present
    obtain ⟨chunk, member, said⟩ := List.mem_filterMap.mp ((load_isSome _ _).mp present)
    exact header_sectionOk (List.mem_filterMap.mpr ⟨chunk, chunksRead_readable member, said⟩)
  · intro name key value held
    rw [← firstValue_read_iff] at held
    exact whole.entries name key value ((firstValue_iff bytes name key value).mp (firstValue_of_read held))

/-! ## What the next session finds -/

/-- The sets of the session print texts that say nothing but what is set. -/
def SetsContained (ops : List Op) : Prop :=
  ∀ op ∈ ops, ∀ sect key value, op.write = some ((sect, key), some value) → Contained sect key value

theorem performAll_tame {ops : List Op} (contained : SetsContained ops) {self : Handle T}
    (tame : Tame (view self.kf)) : Tame (view (performAll self ops).1.kf) := by
  apply performAll_invariant _ tame
  intro op member store held
  cases write : op.write with
  | none => exact held
  | some change =>
    obtain ⟨⟨sect, key⟩, left⟩ := change
    cases left with
    | none => exact tame_unset held sect key
    | some value => exact tame_set held (contained op member sect key value write)

/-- What the session leaves alone is in its file as it was in the handle. -/
theorem saved_get {self : Handle T} (representable : Representable (view self.kf)) {session : Session}
    (contained : SetsContained session.ops) (fine : session.world.Fine) (room : Room self.loc) (disk : Disk CString)
    {sect key : CString} (untouched : ∀ left, ((sect, key), left) ∉ writes session.ops) :
    (loadFile ((saved (performAll self session.ops).1 session.world disk).content self.loc)).get sect key =
      (view self.kf).get sect key := by
  have loc := performAll_loc session.ops self
  have content := saved_content_loc (performAll self session.ops).1 fine
    (by rw [loc]; exact room.tfile_ne _) disk
  rw [loc] at content
  have kept := performAll_get untouched self
  rw [content, ← kept]
  apply get_of_tame (performAll_tame contained (tame_of_representable representable))
  intro value held
  rw [kept] at held
  exact ⟨representable.sections sect (Store.isSome_of_get held), representable.entries sect key value held⟩

/-- Without room for a temporary path the file is gone. -/
theorem saved_none {self : Handle T} (fits : strlen self.loc < pathMax) (full : ¬ Room self.loc) {session : Session}
    (fine : session.world.Fine) (disk : Disk CString) :
    (saved (performAll self session.ops).1 session.world disk).content self.loc = none := by
  have loc := performAll_loc session.ops self
  have same : tfile (performAll self session.ops).1.loc session.world.buffer = (performAll self session.ops).1.loc := by
    rw [loc]
    exact not_not.mp ((tfile_ne_iff fits session.world.buffer).not.mpr full)
  have content := saved_content_self (performAll self session.ops).1 fine same disk
  rwa [loc] at content

variable {env : Environment} {domain loc : CString} {disk : Disk CString} {bytes : Bytes}

/-- What is kept, by what the next session's file loads as. -/
theorem kept_iff_load (path : configPath env domain = some loc) {error : ReadError} (session : Session)
    {self : Handle T} (opened : mcsKeyfileNewFailing error env domain disk = some self) :
    Kept T env domain disk bytes error session ↔ ∀ sect key value, FirstValue (chunks lineRoom bytes) sect key value →
      (∀ left, ((sect, key), left) ∉ writes session.ops) →
        (loadFile ((saved (performAll self session.ops).1 session.world disk).content loc)).get sect key =
          some value := by
  obtain ⟨next, openedNext, _, loaded⟩ := mcsKeyfileNew_total_correct (T := T) path
    (saved (performAll self session.ops).1 session.world disk)
  simp only [← loaded, ← keyfileGetString_found]
  constructor
  · rintro ⟨other, after, openedOther, openedAfter, reads⟩
    rw [opened] at openedOther
    cases openedOther
    rw [openedNext] at openedAfter
    cases openedAfter
    exact reads
  · intro reads
    exact ⟨self, next, opened, openedNext, reads⟩

theorem mcsKeyfileNewFailing_total_correct (path : configPath env domain = some loc)
    (existing : disk.content loc = some bytes) (error : ReadError) :
    ∃ self : Handle T, mcsKeyfileNewFailing error env domain disk = some self ∧ self.loc = loc ∧
      view self.kf = load ((error.chunksRead bytes).filterMap chunkItem) := by
  obtain ⟨kf, executed, loaded⟩ := keyfileOpenFailing_total_correct (T := T) error bytes
  exact ⟨⟨loc, kf⟩, by simp [mcsKeyfileNewFailing, path, existing, executed], rfl, loaded⟩

/-- In a session that cannot read its file, and whose sets say nothing but
    themselves, all that it leaves alone is kept exactly when all of it was read
    before the error, and there is room for a temporary path. -/
theorem unread_iff (path : configPath env domain = some loc) (existing : disk.content loc = some bytes)
    (representable : Representable (loadFile (some bytes))) (error : ReadError) (session : Session)
    (contained : SetsContained session.ops) (fine : session.world.Fine) :
    Kept T env domain disk bytes error session ↔
      ∀ sect key value, FirstValue (chunks lineRoom bytes) sect key value →
        (∀ left, ((sect, key), left) ∉ writes session.ops) →
          Room loc ∧ FirstValue (error.chunksRead bytes) sect key value := by
  obtain ⟨self, opened, rfl, loaded⟩ := mcsKeyfileNewFailing_total_correct (T := T) path existing error
  have read := read_representable representable error
  rw [← loaded] at read
  rw [kept_iff_load path session opened]
  by_cases room : Room self.loc
  · refine forall_congr' fun sect => forall_congr' fun key => forall_congr' fun value => ?_
    refine imp_congr_right fun _ => imp_congr_right fun untouched => ?_
    rw [saved_get read contained fine room disk untouched, loaded, firstValue_read_iff]
    exact (and_iff_right room).symm
  · rw [saved_none (strlen_configPath path) room fine disk]
    simp [loadFile, room]

/-! ### A file with one entry -/

def oneEntry : Keyfile (Assoc false CString) := (keyfileSetString keyfileNew nameA nameA nameB).1

/-- The disk after it was saved. -/
def entryDisk : Disk CString := saved ⟨pathAB, oneEntry⟩ (calm 4096) .empty

theorem entryDisk_content : entryDisk.content pathAB = some (serialise oneEntry) :=
  saved_content_loc ⟨pathAB, oneEntry⟩ (calm_fine 4096) (room_pathAB.tfile_ne _) .empty

theorem view_oneEntry : view oneEntry = Store.set .empty nameA nameA nameB := by
  rw [oneEntry, view_keyfileSetString, view_keyfileNew]

theorem oneEntry_representable : Representable (loadFile (some (serialise oneEntry))) := by
  have ok : Representable (view oneEntry) := by
    rw [view_oneEntry]
    exact set_representable empty_representable sectionOk_nameA entryOk_nameA_nameB
  rw [loadFile_serialise ok]
  exact ok

/-- Where the error comes behind the last line, the old entry is kept beside a new one. -/
theorem unread_iff_late : Kept (Assoc false CString) directoryA nameB entryDisk (serialise oneEntry) (.fgets 2)
    ⟨[.setString nameA nameB nameA], calm 4096⟩ := by
  refine (unread_iff configPath_directoryA entryDisk_content oneEntry_representable (.fgets 2)
    ⟨[.setString nameA nameB nameA], calm 4096⟩ ?_ (calm_fine 4096)).mpr ?_
  · intro op member sect key value writes
    rw [List.mem_singleton] at member
    subst member
    cases writes
    exact contained_of_ok sectionOk_nameA (by decide)
  · intro sect key value first _
    have all : ReadError.chunksRead (.fgets 2) (serialise oneEntry) = chunks lineRoom (serialise oneEntry) := by
      decide
    rw [all]
    exact ⟨room_pathAB, first⟩

/-- A file that cannot be opened is replaced by an empty one. -/
theorem unopened_lost : ¬ ∀ (env : Environment) (domain loc : CString) (disk : Disk CString) (bytes : Bytes)
      (error : ReadError) (session : Session), configPath env domain = some loc → Room loc →
        disk.content loc = some bytes → Representable (loadFile (some bytes)) → SetsContained session.ops →
          session.world.Fine → Kept (Assoc false CString) env domain disk bytes error session := by
  intro always
  have kept := always directoryA nameB pathAB entryDisk (serialise oneEntry) .fopen ⟨[], calm 4096⟩
    configPath_directoryA room_pathAB entryDisk_content oneEntry_representable (fun _ member => by cases member)
    (calm_fine 4096)
  obtain ⟨self, opened, same, loaded⟩ := mcsKeyfileNewFailing_total_correct (T := Assoc false CString)
    configPath_directoryA entryDisk_content .fopen
  rw [kept_iff_load configPath_directoryA _ opened] at kept
  have first : FirstValue (chunks lineRoom (serialise oneEntry)) nameA nameA nameB := by
    rw [firstValue_iff]
    decide
  have found := kept nameA nameA nameB first (fun _ member => by cases member)
  have empty : view self.kf = .empty := loaded
  rw [← same] at found
  have untouched : ∀ left, ((nameA, nameA), left) ∉ writes [] := fun _ member => by cases member
  have room : Room self.loc := by
    rw [same]
    exact room_pathAB
  rw [saved_get (by rw [empty]; exact empty_representable) (fun _ member => by cases member) (calm_fine 4096)
    room entryDisk untouched, empty] at found
  cases found

end Mcs.Interrupted
