import Mcs.Sessions
import Mcs.Snapshots

/-!
Two handles on one configuration, open at the same time. A handle loads the whole
file when it is opened and writes the whole file when it is destroyed, so the two
behave like users of `Snapshots` (`Follows`), and what a handle wrote is lost where
the other one was open before it was saved, and is saved after it
(`overlap_total_correct`).
-/
namespace Mcs.Overlap
open Mcs.Dictionary Mcs.Strings Mcs.Sectioned Mcs.KeyfileModel Mcs.Reading Mcs.Format Mcs.RoundTrip
open Mcs.Files Mcs.Histories Mcs.Backend Mcs.Sessions Mcs.Snapshots

variable {T : Type → Type} [Patricia CString T]

inductive Event where
  | opens (who : Side)
  | performs (who : Side) (op : Op)
  | destroys (who : Side) (world : World)

inductive Phase (T : Type → Type) [Patricia CString T] where
  | unopened
  | opened (self : Handle T)
  | destroyed

structure Handles (T : Type → Type) [Patricia CString T] where
  disk : Disk CString
  phase : Side → Phase T

def Handles.start (T : Type → Type) [Patricia CString T] (disk : Disk CString) : Handles T := ⟨disk, fun _ => .unopened⟩

/-- One whole operation of one handle; each handle is opened once. -/
def step (env : Environment) (domain : CString) (st : Handles T) : Event → Option (Handles T)
  | .opens who =>
    match st.phase who with
    | .unopened => (mcsKeyfileNew env domain st.disk).map fun self =>
        { st with phase := Function.update st.phase who (.opened self) }
    | _ => none
  | .performs who op =>
    match st.phase who with
    | .opened self => some { st with phase := Function.update st.phase who (.opened (op.perform self).1) }
    | _ => none
  | .destroys who world =>
    match st.phase who with
    | .opened self => some ⟨saved self world st.disk, Function.update st.phase who .destroyed⟩
    | _ => none

/-! ## Handles as users of snapshots -/

def Event.act : Event → Act Side Op
  | .opens who => .opens who
  | .performs who op => .changes who op
  | .destroys who _ => .saves who

def acts (events : List Event) : List (Act Side Op) := events.map Event.act

/-- Nothing goes wrong, and the format can carry what is written. -/
def Event.Ok : Event → Prop
  | .opens _ => True
  | .performs _ op => op.Ok
  | .destroys _ world => world.Fine

def change (op : Op) (held : CString × CString → Option CString) : CString × CString → Option CString :=
  replay held (writes [op])

/-- What the file and the copies hold, by the events alone. -/
def expected (held : CString × CString → Option CString) (events : List Event) :
    Shared Side (CString × CString → Option CString) := after change ⟨held, fun _ => held⟩ (acts events)

def Phase.stage : Phase T → Stage
  | .unopened => .unborn
  | .opened _ => .active
  | .destroyed => .gone

/-- A handle holds the copy of its user, and can be saved. -/
def Holds (loc : CString) (shared : Shared Side (CString × CString → Option CString)) (who : Side)
    (self : Handle T) : Prop :=
  self.loc = loc ∧ Representable (view self.kf) ∧ entries (view self.kf) = shared.copy who

/-- The file and the handles hold what is expected, and can be saved. -/
structure Follows (loc : CString) (held : CString × CString → Option CString) (past : List Event)
    (st : Handles T) : Prop where
  fileOk : Representable (loadFile (st.disk.content loc))
  file : entries (loadFile (st.disk.content loc)) = (expected held past).common
  handle : ∀ who self, st.phase who = .opened self → Holds loc (expected held past) who self
  stage : ∀ who, Reached who (acts past) (st.phase who).stage

theorem expected_append (held : CString × CString → Option CString) (past : List Event) (event : Event) :
    expected held (past ++ [event]) = (expected held past).step change event.act := by
  rw [expected, acts, List.map_append, after_append]
  show after change (expected held past) [event.act] = _
  rfl

theorem acts_append (past : List Event) (event : Event) : acts (past ++ [event]) = acts past ++ [event.act] :=
  List.map_append

/-- Stages after an event of one side. -/
theorem stages_update {past : List Event} {phase : Side → Phase T} {who : Side} {event : Event} {next : Phase T}
    (before : ∀ side, Reached side (acts past) (phase side).stage) (owner : event.act.who = who)
    (reached : Reached who (acts past ++ [event.act]) next.stage) (side : Side) :
    Reached side (acts (past ++ [event])) (Function.update phase who next side).stage := by
  rw [acts_append]
  by_cases same : side = who
  · subst same
    rw [Function.update_self]
    exact reached
  · rw [Function.update_of_ne same]
    exact reached_other (before side) (by rw [owner]; exact Ne.symm same)

variable {env : Environment} {domain loc : CString}

/-! ### Steps -/

theorem step_opens {st next : Handles T} {who : Side} (executed : step env domain st (.opens who) = some next) :
    st.phase who = .unopened ∧ ∃ self, mcsKeyfileNew env domain st.disk = some self ∧
      next = { st with phase := Function.update st.phase who (.opened self) } := by
  cases phase : st.phase who with
  | opened self => simp [step, phase] at executed
  | destroyed => simp [step, phase] at executed
  | unopened =>
    simp only [step, phase, Option.map_eq_some_iff] at executed
    obtain ⟨self, opened, rfl⟩ := executed
    exact ⟨rfl, self, opened, rfl⟩

theorem step_performs {st next : Handles T} {who : Side} {op : Op}
    (executed : step env domain st (.performs who op) = some next) :
    ∃ self, st.phase who = .opened self ∧
      next = { st with phase := Function.update st.phase who (.opened (op.perform self).1) } := by
  cases phase : st.phase who with
  | unopened => simp [step, phase] at executed
  | destroyed => simp [step, phase] at executed
  | opened self =>
    simp only [step, phase, Option.some.injEq] at executed
    exact ⟨self, rfl, executed.symm⟩

theorem step_destroys {st next : Handles T} {who : Side} {world : World}
    (executed : step env domain st (.destroys who world) = some next) :
    ∃ self, st.phase who = .opened self ∧
      next = ⟨saved self world st.disk, Function.update st.phase who .destroyed⟩ := by
  cases phase : st.phase who with
  | unopened => simp [step, phase] at executed
  | destroyed => simp [step, phase] at executed
  | opened self =>
    simp only [step, phase, Option.some.injEq] at executed
    exact ⟨self, rfl, executed.symm⟩

/-- Handles after an event of one side, which leaves the other side's copy as it is. -/
theorem holds_update {before after : Shared Side (CString × CString → Option CString)} {phase : Side → Phase T}
    {who : Side} {next : Phase T} (held : ∀ side self, phase side = .opened self → Holds loc before side self)
    (others : ∀ side ≠ who, after.copy side = before.copy side)
    (mine : ∀ self, next = .opened self → Holds loc after who self) (side : Side) (self : Handle T)
    (opened : Function.update phase who next side = .opened self) : Holds loc after side self := by
  by_cases same : side = who
  · subst same
    rw [Function.update_self] at opened
    exact mine self opened
  · rw [Function.update_of_ne same] at opened
    obtain ⟨atLoc, representable, copy⟩ := held side self opened
    exact ⟨atLoc, representable, by rw [copy, others side same]⟩

theorem step_follows (path : configPath env domain = some loc) (room : Room loc)
    {held : CString × CString → Option CString} {past : List Event} {st next : Handles T} {event : Event}
    (ok : event.Ok) (follows : Follows loc held past st) (executed : step env domain st event = some next) :
    Follows loc held (past ++ [event]) next := by
  cases event with
  | opens who =>
    obtain ⟨phase, self, opened, rfl⟩ := step_opens executed
    obtain ⟨other, openedOther, atLoc, loaded⟩ := mcsKeyfileNew_total_correct (T := T) path st.disk
    have stage := follows.stage who
    rw [opened, Option.some.injEq] at openedOther
    rw [phase] at stage
    refine ⟨follows.fileOk, ?_, ?_, stages_update follows.stage rfl (reached_opens stage)⟩
    · rw [expected_append]
      exact follows.file
    · rw [expected_append]
      refine holds_update follows.handle (fun side differ => Function.update_of_ne differ _ _) ?_
      rintro _ ⟨⟩
      rw [openedOther]
      refine ⟨atLoc, by rw [loaded]; exact follows.fileOk, ?_⟩
      rw [loaded, follows.file]
      simp [Event.act, Shared.step]
  | performs who op =>
    obtain ⟨self, phase, rfl⟩ := step_performs executed
    obtain ⟨atLoc, representable, copy⟩ := follows.handle who self phase
    have stage := follows.stage who
    rw [phase] at stage
    refine ⟨follows.fileOk, ?_, ?_, stages_update follows.stage rfl (reached_changes stage op)⟩
    · rw [expected_append]
      exact follows.file
    · rw [expected_append]
      refine holds_update follows.handle (fun side differ => Function.update_of_ne differ _ _) ?_
      rintro _ ⟨⟩
      refine ⟨(perform_loc op self).trans atLoc, perform_representable ok representable, ?_⟩
      rw [entries_perform, copy]
      simp [Event.act, Shared.step, change]
  | destroys who world =>
    obtain ⟨self, phase, rfl⟩ := step_destroys executed
    obtain ⟨rfl, representable, copy⟩ := follows.handle who self phase
    have content := saved_content_loc self ok (room.tfile_ne _) st.disk
    have stage := follows.stage who
    rw [phase] at stage
    refine ⟨?_, ?_, ?_, stages_update follows.stage rfl (reached_saves stage)⟩
    · rw [content, loadFile_serialise representable]
      exact representable
    · rw [content, loadFile_serialise representable, copy, expected_append]
      show _ = ((expected held past).step change (.saves who)).common
      rfl
    · rw [expected_append]
      exact holds_update follows.handle (fun _ _ => rfl) (fun _ destroyed => by cases destroyed)

theorem run_follows (path : configPath env domain = some loc) (room : Room loc) {disk : Disk CString}
    (representable : Representable (loadFile (disk.content loc))) {events : List Event}
    (ok : ∀ event ∈ events, event.Ok) {finish : Handles T}
    (executed : run (step env domain) (Handles.start T disk) events = some finish) :
    Follows loc (entries (loadFile (disk.content loc))) events finish := by
  refine run_invariant (Follows loc (entries (loadFile (disk.content loc)))) ?_
    (fun past st event member next follows => step_follows path room (ok event member) follows) executed
  refine ⟨representable, rfl, ?_, ?_⟩
  · intro who self opened
    cases opened
  · intro who act member
    exact absurd member List.not_mem_nil

/-! ## What a new handle reads -/

/-- What the handle of one side wrote. -/
def writesOf (who : Side) (events : List Event) : List ((CString × CString) × Option CString) :=
  writes (changesOf who (acts events))

/-- Reading the pair gives what is held there. -/
def Reads (self : Handle T) (pair : CString × CString) (held : Option CString) : Prop :=
  ∀ value, keyfileGetString self.kf pair.1 pair.2 value =
    match held with
    | some found => (.MCS_OK, some found)
    | none => (.MCS_FAIL, value)

theorem reads_iff (self : Handle T) (pair : CString × CString) (held : Option CString) :
    Reads self pair held ↔ entries (view self.kf) pair = held := by
  cases held with
  | none => exact keyfileGetString_missing self.kf pair.1 pair.2
  | some found => exact keyfileGetString_found self.kf pair.1 pair.2 found

theorem applyAll_change (ops : List Op) (held : CString × CString → Option CString) :
    applyAll change ops held = replay held (writes ops) := by
  induction ops generalizing held with
  | nil => rfl
  | cons op rest ih =>
    have whole : writes (op :: rest) = writes [op] ++ writes rest := writes_append [op] rest
    rw [whole, replay_append]
    exact ih (change op held)

theorem acts_only (who : Side) (events : List Event) :
    ∀ act ∈ acts events, act.who = who ∨ act.who = who.other := by
  intro act _
  exact Side.eq_or who act.who

/-- The three orders in which the handles can be saved, and what is in the file
    after each of them. -/
theorem read_after (path : configPath env domain = some loc) (room : Room loc) {disk : Disk CString}
    (representable : Representable (loadFile (disk.content loc))) {events : List Event}
    (ok : ∀ event ∈ events, event.Ok) {finish : Handles T}
    (executed : run (step env domain) (Handles.start T disk) events = some finish)
    (closed : ∀ who, finish.phase who = .destroyed) :
    ∃ self : Handle T, mcsKeyfileNew env domain finish.disk = some self ∧
      ∀ who pair left, latest pair (writesOf who events) = some left →
        latest pair (writesOf who.other events) = none →
          (SavedLast who (acts events) ∧ Reads self pair left) ∨
          (SavedBefore who who.other (acts events) ∧ Reads self pair left) ∨
          (¬ SavedLast who (acts events) ∧ ¬ SavedBefore who who.other (acts events) ∧
            Reads self pair (entries (loadFile (disk.content loc)) pair)) := by
  have follows := run_follows path room representable ok executed
  obtain ⟨self, opened, _, loaded⟩ := mcsKeyfileNew_total_correct (T := T) path finish.disk
  refine ⟨self, opened, ?_⟩
  intro who pair left touched untouched
  have course : ∀ side, ∃ before middle last, Course side (acts events) before middle last := by
    intro side
    have stage := follows.stage side
    rw [closed side] at stage
    exact stage
  obtain ⟨before, middle, last, mine⟩ := course who
  obtain ⟨beforeOther, middleOther, lastOther, others⟩ := course who.other
  simp only [reads_iff, loaded, follows.file]
  rcases common_of_two change (acts_only who events) mine others
    ⟨entries (loadFile (disk.content loc)), fun _ => entries (loadFile (disk.content loc))⟩ with
    ⟨saved, found, common⟩ | ⟨saved, common⟩ | ⟨notLast, notBefore, common⟩
  · refine .inl ⟨saved, ?_⟩
    rw [expected, common, applyAll_change, replay_eq]
    exact congrArg (·.getD (found pair)) touched
  · refine .inr (.inl ⟨saved, ?_⟩)
    rw [expected, common, applyAll_change, applyAll_change, replay_eq]
    refine (congrArg (Option.getD · _) untouched).trans ?_
    rw [Option.getD_none, replay_eq]
    exact congrArg (Option.getD · _) touched
  · refine .inr (.inr ⟨notLast, notBefore, ?_⟩)
    rw [expected, common, applyAll_change, replay_eq]
    exact congrArg (Option.getD · _) untouched

/-- An entry that only one handle wrote reads as that handle left it when the handle
    is saved last, or was saved before the other one was opened. Otherwise it
    reads as in the file that both started from. -/
theorem overlap_total_correct (path : configPath env domain = some loc) (room : Room loc) {disk : Disk CString}
    (representable : Representable (loadFile (disk.content loc))) {events : List Event}
    (ok : ∀ event ∈ events, event.Ok) {finish : Handles T}
    (executed : run (step env domain) (Handles.start T disk) events = some finish)
    (closed : ∀ who, finish.phase who = .destroyed) :
    ∃ self : Handle T, mcsKeyfileNew env domain finish.disk = some self ∧
      ∀ who pair left, latest pair (writesOf who events) = some left →
        latest pair (writesOf who.other events) = none →
          (SavedLast who (acts events) ∨ SavedBefore who who.other (acts events) → Reads self pair left) ∧
          (¬ (SavedLast who (acts events) ∨ SavedBefore who who.other (acts events)) →
            Reads self pair ((loadFile (disk.content loc)).get pair.1 pair.2)) := by
  obtain ⟨self, opened, reads⟩ := read_after path room representable ok executed closed
  refine ⟨self, opened, ?_⟩
  intro who pair left touched untouched
  rcases reads who pair left touched untouched with ⟨last, here⟩ | ⟨before, here⟩ | ⟨notLast, notBefore, initial⟩
  · exact ⟨fun _ => here, fun neither => absurd (.inl last) neither⟩
  · exact ⟨fun _ => here, fun neither => absurd (.inr before) neither⟩
  · exact ⟨fun either => either.elim (fun last => absurd last notLast) fun before => absurd before notBefore,
      fun _ => initial⟩

/-! ### Two handles on a new file -/

/-- Both handles are opened, one sets an entry, and the given sides save in turn. -/
def twoHandles (first second : Side) : List Event :=
  [.opens .left, .opens .right, .performs .left (.setString nameA nameA nameB),
    .destroys first (calm 4096), .destroys second (calm 4096)]

theorem twoHandles_ok (first second : Side) : ∀ event ∈ twoHandles first second, event.Ok := by
  intro event member
  simp only [twoHandles, List.mem_cons, List.not_mem_nil, or_false] at member
  rcases member with rfl | rfl | rfl | rfl | rfl
  · trivial
  · trivial
  · intro sect key value writes
    cases writes
    exact ⟨sectionOk_nameA, entryOk_nameA_nameB⟩
  · exact calm_fine 4096
  · exact calm_fine 4096

theorem twoHandles_run (first second : Side) (differ : first ≠ second) :
    ∃ finish, run (step directoryA nameB) (Handles.start (Assoc false CString) .empty) (twoHandles first second) =
      some finish ∧ ∀ who, finish.phase who = .destroyed := by
  have opened : mcsKeyfileNew directoryA nameB .empty = some (⟨pathAB, keyfileNew⟩ : Handle (Assoc false CString)) := by
    rw [mcsKeyfileNew, configPath_directoryA]
    rfl
  cases first with
  | left =>
    cases second with
    | left => exact absurd rfl differ
    | right =>
      refine ⟨_, by simp only [run, twoHandles, List.foldlM, step, Handles.start, opened]; rfl, ?_⟩
      intro who
      cases who <;> rfl
  | right =>
    cases second with
    | left =>
      refine ⟨_, by simp only [run, twoHandles, List.foldlM, step, Handles.start, opened]; rfl, ?_⟩
      intro who
      cases who <;> rfl
    | right => exact absurd rfl differ

theorem newFile_representable : Representable (loadFile ((.empty : Disk CString).content pathAB)) := empty_representable

/-- The handle that wrote the entry is saved last. -/
theorem overlap_written_last :
    ∃ finish, run (step directoryA nameB) (Handles.start (Assoc false CString) .empty) (twoHandles .right .left) =
        some finish ∧
      ∃ self : Handle (Assoc false CString), mcsKeyfileNew directoryA nameB finish.disk = some self ∧
        Reads self (nameA, nameA) (some nameB) := by
  obtain ⟨finish, executed, closed⟩ := twoHandles_run .right .left (by decide)
  obtain ⟨self, opened, reads⟩ := overlap_total_correct configPath_directoryA room_pathAB newFile_representable
    (twoHandles_ok .right .left) executed closed
  refine ⟨finish, executed, self, opened, (reads .left (nameA, nameA) (some nameB) rfl rfl).1 (.inl ?_)⟩
  exact ⟨acts (twoHandles .right .left).dropLast, [], rfl, by simp⟩

/-- Saved first, it loses the entry. -/
theorem overlap_loses :
    ¬ ∀ (env : Environment) (domain loc : CString) (disk : Disk CString) (events : List Event)
      (finish : Handles (Assoc false CString)), configPath env domain = some loc → Room loc →
        Representable (loadFile (disk.content loc)) → (∀ event ∈ events, event.Ok) →
        run (step env domain) (Handles.start _ disk) events = some finish → (∀ who, finish.phase who = .destroyed) →
        ∃ self : Handle (Assoc false CString), mcsKeyfileNew env domain finish.disk = some self ∧
          ∀ who pair left, latest pair (writesOf who events) = some left →
            latest pair (writesOf who.other events) = none → Reads self pair left := by
  intro always
  obtain ⟨finish, executed, closed⟩ := twoHandles_run .left .right (by decide)
  obtain ⟨self, opened, reads⟩ := always directoryA nameB pathAB .empty (twoHandles .left .right) finish
    configPath_directoryA room_pathAB newFile_representable (twoHandles_ok .left .right) executed closed
  have follows := run_follows configPath_directoryA room_pathAB newFile_representable (twoHandles_ok .left .right) executed
  obtain ⟨other, openedOther, _, loaded⟩ :=
    mcsKeyfileNew_total_correct (T := Assoc false CString) configPath_directoryA finish.disk
  have read := (reads_iff self _ _).mp (reads .left (nameA, nameA) (some nameB) rfl rfl)
  rw [opened, Option.some.injEq] at openedOther
  rw [openedOther, loaded, follows.file] at read
  revert read
  decide

end Mcs.Overlap
