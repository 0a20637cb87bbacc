import Mcs.Crashes
import Mcs.Races

/-!
Two processes that destroy their handles on one configuration at the same time.
Nothing keeps them apart: they share the temporary file, and each unlinks the
configuration before it renames. `concurrent_saves` says when the configuration is
there afterwards, and in which orders it is the whole store of one of them.
-/
namespace Mcs.Concurrent
open Mcs.Dictionary Mcs.Strings Mcs.KeyfileModel Mcs.RoundTrip Mcs.Files Mcs.Histories Mcs.Races
open Mcs.Backend Mcs.Sessions Mcs.Crashes

variable {T : Type → Type} [Patricia CString T]

/-- A process that saves a store. Its serialisation reaches the file in pieces of any
    length. -/
structure Saver (T : Type → Type) [Patricia CString T] where
  kf : Keyfile T
  body : List (Sys CString)
  quiet : ∀ call ∈ body, call.Quiet
  whole : written body = serialise kf

def tmpPath (loc : CString) : CString := tfile loc fun _ => 0

/-- What `mcs_keyfile_destroy` does is what such a process does. -/
theorem exists_saver (self : Handle T) {world : World} (fine : world.Fine) :
    ∃ saver : Saver T, saver.kf = self.kf ∧ saving self world = saveSteps (tmpPath self.loc) self.loc saver.body := by
  obtain ⟨body, quiet, whole, run⟩ := saving_fine self fine
  exact ⟨⟨self.kf, body, quiet, whole⟩, rfl, by rw [run, tmpPath, tfile_congr]⟩

/-- Both processes, before their first call. -/
def rivals (loc : CString) (savers : Side → Saver T) (disk : Disk CString) : Race CString :=
  Race.start disk fun who => saveSteps (tmpPath loc) loc (savers who).body

/-- However their calls are ordered, the configuration is there in the end unless one
    of the two unlinks the file that it wrote itself. -/
theorem configuration_present_iff {loc : CString} (room : Room loc) (savers : Side → Saver T) (disk : Disk CString)
    {schedule : List Side} {finish : Race CString}
    (executed : run Race.step (rivals loc savers disk) schedule = some finish) (finished : finish.Finished) :
    (finish.disk.content loc).isSome ↔ ¬ Happens (Race.Withdraws loc) (rivals loc savers disk) schedule :=
  present_iff (room.tfile_ne _) (fun who => (savers who).quiet) executed finished

/-- Where neither unlinks its own file, and neither opens the temporary file while the
    other one writes it, the configuration is the whole store of one of them. -/
theorem concurrent_saves {loc : CString} (room : Room loc) (savers : Side → Saver T) (disk : Disk CString)
    {schedule : List Side} {finish : Race CString}
    (executed : run Race.step (rivals loc savers disk) schedule = some finish) (finished : finish.Finished)
    (stays : ¬ Happens (Race.Withdraws loc) (rivals loc savers disk) schedule)
    (apart : ¬ Happens (Race.Intrudes (tmpPath loc)) (rivals loc savers disk) schedule) :
    finish.disk.content loc = some (serialise (savers .left).kf) ∨
      finish.disk.content loc = some (serialise (savers .right).kf) := by
  obtain ⟨who, content⟩ := content_of_undisturbed (room.tfile_ne _) (fun who => (savers who).quiet) executed finished
    stays apart
  rw [(savers who).whole] at content
  cases who with
  | left => exact .inl content
  | right => exact .inr content

/-! ### Two savers of a small store -/

/-- The path `a/b/config.tmp`. -/
def pathABTmp : CString := ⟨[97, 47, 98, 47, 99, 111, 110, 102, 105, 103, 46, 116, 109, 112], by decide⟩

theorem tmpPath_pathAB : tmpPath pathAB = pathABTmp := by
  rw [tmpPath, tfile_eq]
  rfl

def oneSaver : Saver (Assoc false CString) where
  kf := oneSection
  body := [.write [91, 97, 93, 10]]
  quiet := by
    intro call member
    rw [List.mem_singleton.mp member]
    trivial
  whole := by decide

def nameAB : CString := ⟨[97, 98], by decide⟩

def otherSaver : Saver (Assoc false CString) where
  kf := keyfileCreateSection keyfileNew nameAB
  body := [.write [91, 97, 98, 93, 10]]
  quiet := by
    intro call member
    rw [List.mem_singleton.mp member]
    trivial
  whole := by decide

def twoSavers : Side → Saver (Assoc false CString)
  | .left => oneSaver
  | .right => otherSaver

theorem rivals_pathAB : rivals pathAB twoSavers .empty =
    Race.start .empty fun who => saveSteps pathABTmp pathAB (twoSavers who).body := by
  rw [rivals, tmpPath_pathAB]

/-- The right process writes the file anew before the left one renames it. -/
def overlapping : List Side := [.left, .left, .left, .left, .right, .right, .right, .right, .left, .right]

theorem concurrent_saves_overlapping :
    ∃ finish, run Race.step (rivals pathAB twoSavers .empty) overlapping = some finish ∧
      (finish.disk.content pathAB = some (serialise oneSaver.kf) ∨
        finish.disk.content pathAB = some (serialise otherSaver.kf)) := by
  obtain ⟨finish, executed, finished⟩ : ∃ finish,
      run Race.step (rivals pathAB twoSavers .empty) overlapping = some finish ∧ finish.Finished := by
    rw [rivals_pathAB]
    refine ⟨_, rfl, ?_⟩
    intro who
    cases who <;> rfl
  refine ⟨finish, executed, concurrent_saves room_pathAB twoSavers .empty executed finished ?_ ?_⟩
  · rw [rivals_pathAB]
    decide
  · rw [rivals_pathAB, tmpPath_pathAB]
    decide

/-- The right process opens the file of the left one, and both write it. -/
def entangled : List Side := [.left, .right, .right, .left, .left, .left, .right, .right, .left, .right]

/-- The file is then neither store: it is `[a]` with a line too much. -/
theorem concurrent_mixes :
    ¬ ∀ (loc : CString) (savers : Side → Saver (Assoc false CString)) (disk : Disk CString) (schedule : List Side)
      (finish : Race CString), Room loc → run Race.step (rivals loc savers disk) schedule = some finish →
        finish.Finished → finish.disk.content loc = some (serialise (savers .left).kf) ∨
          finish.disk.content loc = some (serialise (savers .right).kf) := by
  intro always
  obtain ⟨finish, executed, finished, mixed⟩ : ∃ finish,
      run Race.step (rivals pathAB twoSavers .empty) entangled = some finish ∧ finish.Finished ∧
        finish.disk.content pathAB = some [91, 97, 93, 10, 10] := by
    rw [rivals_pathAB]
    refine ⟨_, rfl, ?_, rfl⟩
    intro who
    cases who <;> rfl
  have kept := always pathAB twoSavers .empty entangled finish room_pathAB executed finished
  rw [mixed] at kept
  revert kept
  decide

end Mcs.Concurrent
