import Mcs.BoundedCopy
import Mcs.Reading
import Mcs.Streams

/-!
Handles of the keyfile backend: where their file lies, how it is loaded, and the
calls by which it is saved. `saving_opened` says what those calls do for every
outcome that the environment can give them, and `saved_content` what readers find
after a save in which nothing goes wrong.
-/
namespace Mcs.Backend
open Mcs.Dictionary Mcs.Strings Mcs.BoundedCopy Mcs.KeyfileModel Mcs.Files Mcs.Streams

variable {T : Type → Type} [Patricia CString T]

/-! ## Paths -/

/-- What `getenv` returns for the two variables that the backend reads. -/
structure Environment where
  xdgConfigHome : Option CString
  home : Option CString

def pathMax : Nat := 4096

/-- The texts `/`, `/.config/`, `/config` and `.tmp`. -/
def slash : CString := ⟨[47], by decide⟩
def dotConfig : CString := ⟨[47, 46, 99, 111, 110, 102, 105, 103, 47], by decide⟩
def configName : CString := ⟨[47, 99, 111, 110, 102, 105, 103], by decide⟩
def tmpName : CString := ⟨[46, 116, 109, 112], by decide⟩

/-- What `mcs_keyfile_new` prints into `scratch`; with neither variable set it
    prints a null pointer, which has no defined result. -/
def printedScratch (env : Environment) (domain : CString) : Option CString :=
  match env.xdgConfigHome with
  | some magic => some (snprintf pathMax ((magic.append slash).append domain))
  | none => env.home.map fun home => snprintf pathMax ((home.append dotConfig).append domain)

/-- The path that `mcs_keyfile_new` keeps in `h->loc`. -/
def configPath (env : Environment) (domain : CString) : Option CString :=
  (printedScratch env domain).map fun scratch =>
    stringIn pathMax (after (fun index => scratch.byteAt index) (mcsStrlcat scratch configName pathMax).stores)

/-- The path that `mcs_keyfile_destroy` writes to. Its buffer starts out with
    whatever it held before. -/
def tfile (loc : CString) (buffer : Memory) : CString :=
  let copied := after buffer (mcsStrlcpy loc pathMax).stores
  stringIn pathMax (after copied (mcsStrlcat (stringIn pathMax copied) tmpName pathMax).stores)

/-- Behind the path there is room for a byte of the suffix of its temporary file:
    so it is for every path that is not truncated. -/
def Room (loc : CString) : Prop := strlen loc < pathMax - 1

theorem pathMax_pos : 0 < pathMax := by decide

theorem pathMax_lt : pathMax < sizeRange := by decide

theorem stringIn_byteAt {s : CString} {size : Nat} (inside : strlen s < size) :
    stringIn size (fun index => s.byteAt index) = s := by
  apply stringIn_of_holds _ inside
  refine ⟨fun index _ => by rw [Nat.zero_add]; rfl, ?_⟩
  simp [CString.byteAt]

theorem strlen_printedScratch {env : Environment} {domain scratch : CString}
    (printed : printedScratch env domain = some scratch) : strlen scratch < pathMax := by
  unfold printedScratch at printed
  have bound : ∀ text, strlen (snprintf pathMax text) < pathMax := by
    intro text
    rw [snprintf, strlen_take]
    unfold pathMax
    omega
  split at printed
  · cases printed
    exact bound _
  · obtain ⟨home, _, rfl⟩ := Option.map_eq_some_iff.mp printed
    exact bound _

/-- The configuration path is the text that was meant, cut to fit its buffer. -/
theorem configPath_eq (env : Environment) (domain : CString) :
    configPath env domain = (printedScratch env domain).map fun scratch =>
      (scratch.append configName).take (pathMax - 1) := by
  unfold configPath
  cases printed : printedScratch env domain with
  | none => rw [Option.map_none, Option.map_none]
  | some scratch =>
    have inside := strlen_printedScratch printed
    simp only [Option.map_some, Option.some.injEq]
    exact mcsStrlcat_correct configName (stringIn_byteAt inside) inside pathMax_lt

theorem strlen_configPath {env : Environment} {domain loc : CString} (path : configPath env domain = some loc) :
    strlen loc < pathMax := by
  rw [configPath_eq] at path
  obtain ⟨scratch, _, rfl⟩ := Option.map_eq_some_iff.mp path
  rw [strlen_take]
  unfold pathMax
  omega

theorem tfile_eq (loc : CString) (buffer : Memory) :
    tfile loc buffer = ((loc.take (pathMax - 1)).append tmpName).take (pathMax - 1) := by
  have run : tfile loc buffer = stringIn pathMax (concatenate buffer pathMax loc [tmpName]).1 := by
    simp only [tfile, concatenate, List.foldl_cons, List.foldl_nil]
  rw [run, (truncated_concatenate buffer pathMax_pos pathMax_lt loc [tmpName]).string, take_append_take]
  simp only [List.foldl_cons, List.foldl_nil]

/-- The temporary path of a configuration does not depend on what its buffer held. -/
theorem tfile_congr (loc : CString) (buffer other : Memory) : tfile loc buffer = tfile loc other := by
  rw [tfile_eq, tfile_eq]

/-- A path with no room for even one more byte is its own temporary path. -/
theorem tfile_ne_iff {loc : CString} (fits : strlen loc < pathMax) (buffer : Memory) :
    tfile loc buffer ≠ loc ↔ Room loc := by
  have whole : loc.take (pathMax - 1) = loc := take_of_strlen_le (Nat.le_sub_one_of_lt fits)
  rw [tfile_eq, whole]
  constructor
  · intro differ
    by_contra full
    apply differ
    have length : pathMax - 1 = loc.bytes.length := by simp only [Room, strlen, pathMax] at full fits ⊢; omega
    ext1
    simp only [CString.take, CString.part, CString.append, length]
    exact List.take_left
  · intro short same
    have length := congrArg strlen same
    have suffix : strlen tmpName = 4 := rfl
    rw [strlen_take, strlen_append, suffix] at length
    simp only [Room, pathMax] at length short
    omega

theorem Room.tfile_ne {loc : CString} (room : Room loc) (buffer : Memory) : tfile loc buffer ≠ loc :=
  (tfile_ne_iff (Nat.lt_of_lt_of_le room (Nat.sub_le _ _)) buffer).mpr room

/-! ## Handles -/

/-- `mcs_keyfile_handle_t`. -/
structure Handle (T : Type → Type) [Patricia CString T] where
  loc : CString
  kf : Keyfile T

/-- `mcs_keyfile_new`. The directories that it makes hold no file yet. -/
def mcsKeyfileNew (env : Environment) (domain : CString) (disk : Disk CString) : Option (Handle T) :=
  (configPath env domain).bind fun loc =>
    (keyfileOpen (disk.content loc)).map fun kf => ⟨loc, kf⟩

/-- `keyfile_write`, the calls it makes and its result, with whether `fopen`
    returned a stream. -/
def keyfileWrite (self : Keyfile T) (filename : CString) (opened : Bool) : List (Call CString) × Response :=
  if opened then
    (.fopen filename :: ((keyfileTexts self).map .fprintf ++ [.fsync, .fclose]), .MCS_OK)
  else ([.fopen filename], .MCS_FAIL)

/-- The calls of `mcs_keyfile_destroy`. -/
def mcsKeyfileDestroy (self : Handle T) (buffer : Memory) (opened : Bool) : List (Call CString) :=
  let ret := keyfileWrite self.kf (tfile self.loc buffer) opened
  ret.1 ++ if ret.2 = .MCS_OK then [.unlink self.loc, .rename (tfile self.loc buffer) self.loc] else []

/-- All that lies outside the program while a handle is destroyed: what its path
    buffer holds before, the size of the stream's buffer, and how each call ends. -/
structure World where
  buffer : Memory
  capacity : Nat
  io : Nat → Outcome

/-- No call fails. -/
def World.Fine (world : World) : Prop := ∀ index, (world.io index).Fine

/-- A world without failures, whose streams hold so many bytes. -/
def calm (capacity : Nat) : World := ⟨fun _ => 0, capacity, fun _ => ⟨true, 0, 0, []⟩⟩

theorem calm_fine (capacity : Nat) : (calm capacity).Fine := fun _ => ⟨rfl, rfl⟩

/-- How the calls after the printing end, when a handle is destroyed. -/
def World.fsync (world : World) (self : Handle T) : Outcome := world.io ((keyfileTexts self.kf).length + 1)
def World.fclose (world : World) (self : Handle T) : Outcome := world.io ((keyfileTexts self.kf).length + 2)
def World.unlink (world : World) (self : Handle T) : Outcome := world.io ((keyfileTexts self.kf).length + 3)
def World.rename (world : World) (self : Handle T) : Outcome := world.io ((keyfileTexts self.kf).length + 4)

/-- The system calls of `mcs_keyfile_destroy`. -/
def saving (self : Handle T) (world : World) : List (Sys CString) :=
  issueAll world.capacity world.io [] (mcsKeyfileDestroy self world.buffer (world.io 0).ok)

/-- The disk after `mcs_keyfile_destroy`, where no other process runs. -/
def saved (self : Handle T) (world : World) (disk : Disk CString) : Disk CString :=
  (execAll (saving self world) (disk, none)).1

/-- How many bytes of the serialisation wait in the stream's buffer when `fsync` is
    called, by the lengths of the printed lines and the flushes in between. -/
def waiting (self : Handle T) (world : World) : Nat :=
  unflushed world.capacity (later world.io) 0 ((keyfileTexts self.kf).map List.length)

theorem saving_closed (self : Handle T) {world : World} (closed : (world.io 0).ok = false) :
    saving self world = [] := by
  simp [saving, mcsKeyfileDestroy, keyfileWrite, issueAll, Call.issue, closed]

/-- The system calls of a save whose file opens, for every outcome of the rest.
    What was accepted is written while printing, or is `left` for `fclose`. -/
theorem saving_opened (self : Handle T) {world : World} (opened : (world.io 0).ok = true) :
    ∃ printing left, saving self world = .openTrunc (tfile self.loc world.buffer) :: (printing ++
        ((if (world.fsync self).ok then [.fsync] else []) ++
          (handOver (world.fclose self).cuts (keep (world.fclose self).lost left) ++
            (.close :: ((if (world.unlink self).ok then [.unlink self.loc] else []) ++
              (if (world.rename self).ok then [.rename (tfile self.loc world.buffer) self.loc] else [])))))) ∧
      (∀ call ∈ printing, call.IsWrite) ∧
      written printing ++ left = accepted (later world.io) (keyfileTexts self.kf) ∧
      left.length = waiting self world := by
  obtain ⟨printing, left, run, writes, whole, length⟩ := issueAll_prints world.capacity
    (later world.io) [] (keyfileTexts self.kf)
    [.fsync, .fclose, .unlink self.loc, .rename (tfile self.loc world.buffer) self.loc]
  refine ⟨printing, left, ?_, writes, whole, length⟩
  have calls : mcsKeyfileDestroy self world.buffer true = .fopen (tfile self.loc world.buffer) ::
      ((keyfileTexts self.kf).map .fprintf ++
        [.fsync, .fclose, .unlink self.loc, .rename (tfile self.loc world.buffer) self.loc]) := by
    simp [mcsKeyfileDestroy, keyfileWrite]
  rw [saving, opened, calls, issueAll]
  simp only [Call.issue, opened, ↓reduceIte, run]
  simp only [issueAll, Call.issue, later, List.cons_append, List.nil_append, List.append_nil, List.append_assoc]
  rfl

/-! ## A save in which nothing goes wrong -/

/-- The system calls of a save in which nothing goes wrong. -/
theorem saving_calls (self : Handle T) {world : World} (fine : world.Fine) :
    ∃ printing left, saving self world = .openTrunc (tfile self.loc world.buffer) :: (printing ++
        (.fsync :: (handOver (world.fclose self).cuts left ++
          [.close, .unlink self.loc, .rename (tfile self.loc world.buffer) self.loc]))) ∧
      (∀ call ∈ printing, call.IsWrite) ∧ written printing ++ left = serialise self.kf ∧
      left.length = waiting self world := by
  obtain ⟨printing, left, run, writes, whole, length⟩ := saving_opened self (fine 0).1
  have all : accepted (later world.io) (keyfileTexts self.kf) = (keyfileTexts self.kf).flatten :=
    accepted_flatten fun index _ => (fine (index + 1)).2
  have synced : (world.fsync self).ok = true := (fine _).1
  have unlinks : (world.unlink self).ok = true := (fine _).1
  have renames : (world.rename self).ok = true := (fine _).1
  have passes : (world.fclose self).lost = 0 := (fine _).2
  simp only [synced, unlinks, renames, passes, ↓reduceIte, keep_zero] at run
  exact ⟨printing, left, run, writes, whole.trans all, length⟩

/-- The file is written whole between opening and closing, and then published. -/
theorem saving_fine (self : Handle T) {world : World} (fine : world.Fine) :
    ∃ body, (∀ call ∈ body, call.Quiet) ∧ written body = serialise self.kf ∧
      saving self world = saveSteps (tfile self.loc world.buffer) self.loc body := by
  obtain ⟨printing, left, run, writes, whole, _⟩ := saving_calls self fine
  refine ⟨printing ++ (.fsync :: handOver (world.fclose self).cuts left), ?_, ?_, ?_⟩
  · refine List.forall_mem_append.mpr ⟨fun call member => (writes call member).quiet, ?_⟩
    refine List.forall_mem_cons.mpr ⟨trivial, fun call member => (handOver_writes _ _ call member).quiet⟩
  · rw [written_append, written_fsync, written_handOver, whole]
  · rw [run]
    simp [saveSteps]

/-- Readers find the whole serialisation, and all other files as they were. -/
theorem saved_content (self : Handle T) {world : World} (fine : world.Fine)
    (differ : tfile self.loc world.buffer ≠ self.loc) (disk : Disk CString) (path : CString) :
    (saved self world disk).content path =
      if path = self.loc then some (serialise self.kf)
      else if path = tfile self.loc world.buffer then none else disk.content path := by
  obtain ⟨body, quiet, whole, run⟩ := saving_fine self fine
  obtain ⟨middle, ino, executed, named, data, others⟩ :=
    execAll_writing quiet disk (tfile self.loc world.buffer) none
  obtain ⟨fd, published, contents⟩ := execAll_publish (some ⟨ino, (written body).length, true⟩) named differ
  rw [saved, run, saveSteps, ← List.cons_append, execAll_append, executed, published, contents, data, whole]
  by_cases atTmp : path = tfile self.loc world.buffer
  · rw [if_pos atTmp, if_pos atTmp]
  · rw [if_neg atTmp, if_neg atTmp, others path atTmp]

theorem saved_content_loc (self : Handle T) {world : World} (fine : world.Fine)
    (differ : tfile self.loc world.buffer ≠ self.loc) (disk : Disk CString) :
    (saved self world disk).content self.loc = some (serialise self.kf) := by
  rw [saved_content self fine differ, if_pos rfl]

/-- Where the temporary path is the path itself, the file is gone. -/
theorem saved_content_self (self : Handle T) {world : World} (fine : world.Fine)
    (same : tfile self.loc world.buffer = self.loc) (disk : Disk CString) :
    (saved self world disk).content self.loc = none := by
  obtain ⟨body, quiet, whole, run⟩ := saving_fine self fine
  obtain ⟨middle, ino, executed, _⟩ := execAll_writing quiet disk (tfile self.loc world.buffer) none
  have closed : execAll [.close, .unlink self.loc, .rename self.loc self.loc]
      (middle, some ⟨ino, (written body).length, true⟩) =
        ((middle.unlink self.loc).rename self.loc self.loc, some ⟨ino, (written body).length, false⟩) := rfl
  rw [saved, run, saveSteps, ← List.cons_append, execAll_append, executed, same, closed]
  simp [Disk.content, Disk.rename, Disk.unlink, renamed]

/-! ## Long paths -/

/-- The directory that is meant, whatever its length. -/
def directoryText (env : Environment) (domain : CString) : Option CString :=
  match env.xdgConfigHome with
  | some magic => some ((magic.append slash).append domain)
  | none => env.home.map fun home => (home.append dotConfig).append domain

theorem printedScratch_eq (env : Environment) (domain : CString) :
    printedScratch env domain = (directoryText env domain).map (snprintf pathMax) := by
  unfold printedScratch directoryText
  cases env.xdgConfigHome with
  | some magic => rfl
  | none => cases env.home <;> rfl

theorem configPath_of_directory {env : Environment} {domain text : CString}
    (directory : directoryText env domain = some text) :
    configPath env domain = some (((text.take (pathMax - 1)).append configName).take (pathMax - 1)) := by
  rw [configPath_eq, printedScratch_eq, directory]
  rfl

/-- Behind the name of the file there is room as long as the directory leaves some. -/
theorem room_iff (text : CString) :
    Room (((text.take (pathMax - 1)).append configName).take (pathMax - 1)) ↔ strlen text < pathMax - 8 := by
  have suffix : strlen configName = 7 := rfl
  rw [Room, strlen_take, strlen_append, strlen_take, suffix]
  unfold pathMax
  omega

/-- The file is written under another name than its own, and published by the
    rename, exactly when the directory has fewer than `PATH_MAX - 8` bytes. -/
theorem publishes_iff {env : Environment} {domain text : CString} (directory : directoryText env domain = some text)
    (kf : Keyfile T) {world : World} (fine : world.Fine) (disk : Disk CString) :
    ∃ loc, configPath env domain = some loc ∧
      ((tfile loc world.buffer ≠ loc ∧ (saved ⟨loc, kf⟩ world disk).content loc = some (serialise kf)) ↔
        strlen text < pathMax - 8) := by
  have path := configPath_of_directory directory
  refine ⟨_, path, ?_⟩
  rw [← room_iff text, ← tfile_ne_iff (strlen_configPath path) world.buffer]
  constructor
  · exact And.left
  · intro differ
    exact ⟨differ, saved_content_loc ⟨_, kf⟩ fine differ disk⟩

/-- `XDG_CONFIG_HOME` is `/` and the domain is `.tmp`. -/
theorem publishes_iff_short : ∃ loc, configPath ⟨some slash, none⟩ tmpName = some loc ∧
    tfile loc (calm 4096).buffer ≠ loc ∧
      (saved ⟨loc, (keyfileNew : Keyfile (Assoc false CString))⟩ (calm 4096) .empty).content loc =
        some (serialise (keyfileNew : Keyfile (Assoc false CString))) := by
  have directory : directoryText ⟨some slash, none⟩ tmpName = some ((slash.append slash).append tmpName) := rfl
  obtain ⟨loc, path, published⟩ := publishes_iff directory
    (keyfileNew : Keyfile (Assoc false CString)) (calm_fine 4096) .empty
  exact ⟨loc, path, published.mpr (by decide)⟩

/-- A directory of 4088 bytes: `/` so often that the domain `/` ends there. -/
def longDirectory : CString where
  bytes := List.replicate 4086 47
  noNul := fun nul => absurd (List.eq_of_mem_replicate nul) (by decide)

/-- Its file is its own temporary file. -/
theorem longDirectory_same : ¬ ∀ (env : Environment) (domain loc : CString) (buffer : Memory),
    configPath env domain = some loc → tfile loc buffer ≠ loc := by
  intro always
  have path : configPath ⟨some longDirectory, none⟩ slash = some _ := configPath_of_directory rfl
  have room := (tfile_ne_iff (strlen_configPath path) (fun _ => 0)).mp (always _ _ _ _ path)
  have directory : strlen longDirectory = 4086 := List.length_replicate
  have byte : strlen slash = 1 := rfl
  rw [room_iff, strlen_append, strlen_append, directory, byte] at room
  unfold pathMax at room
  omega

end Mcs.Backend
