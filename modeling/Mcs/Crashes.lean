import Mcs.Sessions

/-!
A save that is cut short. The process may be killed between any two system calls:
the configuration is then the old one or the new one, except between the calls
that unlink the old file and rename the new one (`crash_iff`). The power may be
lost once the new file is in place: it is durable only as far as the buffer of
its stream was empty at the call of `fsync` (`synced_iff`).
-/
namespace Mcs.Crashes
open Mcs.Dictionary Mcs.Strings Mcs.Sectioned Mcs.KeyfileModel Mcs.Reading Mcs.Format Mcs.RoundTrip
open Mcs.Files Mcs.Streams Mcs.Backend Mcs.Sessions

variable {T : Type → Type} [Patricia CString T]

/-! ## Killed processes -/

/-- The disk that a save leaves when its process is killed after so many system calls. -/
def killed (self : Handle T) (world : World) (disk : Disk CString) (count : Nat) : Disk CString :=
  (execAll ((saving self world).take count) (disk, none)).1

/-- The file holds the old store or the new one, whole, and loads as that store. -/
def Intact (T : Type → Type) [Patricia CString T] (old new : Keyfile T) (file : Option Bytes) : Prop :=
  (file = some (serialise old) ∨ file = some (serialise new)) ∧
    ((keyfileOpen file : Option (Keyfile T)).map view = some (view old) ∨
      (keyfileOpen file : Option (Keyfile T)).map view = some (view new))

/-- What lies at the path after so many calls. -/
theorem content_killed (self : Handle T) {world : World} (fine : world.Fine)
    (differ : tfile self.loc world.buffer ≠ self.loc) (disk : Disk CString) (count : Nat) :
    (killed self world disk count).content self.loc =
      if count + 1 < (saving self world).length then disk.content self.loc
      else if count + 1 = (saving self world).length then none else some (serialise self.kf) := by
  obtain ⟨body, quiet, whole, run⟩ := saving_fine self fine
  rw [killed, run, content_saveSteps differ quiet, whole, saveSteps_length]
  rcases Nat.lt_trichotomy count (body.length + 3) with before | at_ | behind
  · rw [if_pos before, if_pos (by omega)]
  · rw [if_neg (by omega), if_pos at_, if_neg (by omega), if_pos (by omega)]
  · rw [if_neg (by omega), if_neg (by omega), if_neg (by omega), if_neg (by omega)]

theorem intact_old {old new : Keyfile T} (ok : Representable (view old)) :
    Intact T old new (some (serialise old)) := by
  refine ⟨.inl rfl, .inl ?_⟩
  rw [map_view_keyfileOpen, loadFile_serialise ok]

theorem intact_new {old new : Keyfile T} (ok : Representable (view new)) :
    Intact T old new (some (serialise new)) := by
  refine ⟨.inr rfl, .inr ?_⟩
  rw [map_view_keyfileOpen, loadFile_serialise ok]

theorem not_intact_none (old new : Keyfile T) : ¬ Intact T old new none := by
  rintro ⟨same | same, _⟩ <;> cases same

/-- Killed anywhere but right before its last call, a save leaves the old store or
    the new one; there it leaves no file. -/
theorem crash_iff (self : Handle T) {world : World} (fine : world.Fine) (room : Room self.loc)
    {disk : Disk CString} {old : Keyfile T} (before : disk.content self.loc = some (serialise old))
    (oldOk : Representable (view old)) (newOk : Representable (view self.kf)) (count : Nat) :
    Intact T old self.kf ((killed self world disk count).content self.loc) ↔
      count + 1 ≠ (saving self world).length := by
  rw [content_killed self fine (room.tfile_ne _)]
  rcases Nat.lt_trichotomy (count + 1) (saving self world).length with early | last | beyond
  · rw [if_pos early, before]
    exact ⟨fun _ => Nat.ne_of_lt early, fun _ => intact_old oldOk⟩
  · rw [if_neg (Nat.not_lt.mpr (Nat.le_of_eq last.symm)), if_pos last]
    exact ⟨fun intact => (not_intact_none _ _ intact).elim, fun other => absurd last other⟩
  · rw [if_neg (Nat.lt_asymm beyond), if_neg (Nat.ne_of_gt beyond)]
    exact ⟨fun _ => Nat.ne_of_gt beyond, fun _ => intact_new newOk⟩

/-! ### A store with one section -/

def oneSection : Keyfile (Assoc false CString) := keyfileCreateSection keyfileNew nameA

def oneHandle : Handle (Assoc false CString) := ⟨pathAB, oneSection⟩

/-- The disk after it was saved. -/
def oneDisk : Disk CString := saved oneHandle (calm 4096) .empty

theorem oneSection_representable : Representable (view oneSection) := by
  rw [oneSection, view_keyfileCreateSection, view_keyfileNew]
  exact addSection_representable empty_representable sectionOk_nameA

theorem oneDisk_content : oneDisk.content pathAB = some (serialise oneSection) :=
  saved_content_loc oneHandle (calm_fine 4096) (room_pathAB.tfile_ne _) .empty

/-- A store with one entry. -/
def holding (value : CString) : Keyfile (Assoc false CString) := (keyfileSetString keyfileNew nameA nameA value).1

theorem holding_representable {value : CString} (ok : EntryOk nameA value) : Representable (view (holding value)) := by
  rw [holding, view_keyfileSetString, view_keyfileNew]
  exact set_representable empty_representable sectionOk_nameA ok

/-- The disk after it was saved with the value `a`. -/
def holdingDisk : Disk CString := saved ⟨pathAB, holding nameA⟩ (calm 0) .empty

theorem holdingDisk_content : holdingDisk.content pathAB = some (serialise (holding nameA)) :=
  saved_content_loc ⟨pathAB, holding nameA⟩ (calm_fine 0) (room_pathAB.tfile_ne _) .empty

/-- The value becomes `b`, and the save is killed when it has written the section without
    the entry, or after the rename. -/
theorem crash_iff_replaced :
    Intact (Assoc false CString) (holding nameA) (holding nameB)
        ((killed ⟨pathAB, holding nameB⟩ (calm 0) holdingDisk 2).content pathAB) ∧
      Intact (Assoc false CString) (holding nameA) (holding nameB)
        ((killed ⟨pathAB, holding nameB⟩ (calm 0) holdingDisk 8).content pathAB) := by
  have length : (saving ⟨pathAB, holding nameB⟩ (calm 0)).length = 8 := by decide
  have oldOk := holding_representable (by decide : EntryOk nameA nameA)
  have newOk := holding_representable entryOk_nameA_nameB
  have intact := crash_iff ⟨pathAB, holding nameB⟩ (calm_fine 0) room_pathAB holdingDisk_content oldOk newOk
  rw [length] at intact
  exact ⟨(intact 2).mpr (by decide), (intact 8).mpr (by decide)⟩

/-- Killed after the unlink, it leaves neither. -/
theorem crash_loses :
    ¬ ∀ (self : Handle (Assoc false CString)) (world : World) (disk : Disk CString)
      (old : Keyfile (Assoc false CString)) (count : Nat), world.Fine → Room self.loc →
        disk.content self.loc = some (serialise old) → Representable (view old) → Representable (view self.kf) →
          Intact (Assoc false CString) old self.kf ((killed self world disk count).content self.loc) := by
  intro always
  obtain ⟨body, _, _, run⟩ := saving_fine oneHandle (calm_fine 4096)
  have intact := always oneHandle (calm 4096) oneDisk oneSection (body.length + 3) (calm_fine 4096)
    room_pathAB oneDisk_content oneSection_representable oneSection_representable
  rw [content_killed oneHandle (calm_fine 4096) (room_pathAB.tfile_ne _), run, saveSteps_length,
    if_neg (by omega), if_pos (by omega)] at intact
  exact not_intact_none _ _ intact

/-! ## Lost power -/

/-- When the old file is unlinked, all of the new one is durable, and it still is
    once it has the old one's name. -/
def Synced (self : Handle T) (world : World) (disk : Disk CString) : Prop :=
  ∃ before, saving self world =
      before ++ [.unlink self.loc, .rename (tfile self.loc world.buffer) self.loc] ∧
    (execAll before (disk, none)).1.durableContent (tfile self.loc world.buffer) = some (serialise self.kf) ∧
    (Room self.loc → (saved self world disk).durableContent self.loc = some (serialise self.kf))

/-- What is durable of the new file is what was written before `fsync`. -/
theorem durable_saving (self : Handle T) {world : World} (fine : world.Fine) (disk : Disk CString) :
    ∃ before synced left, saving self world =
        before ++ [.unlink self.loc, .rename (tfile self.loc world.buffer) self.loc] ∧
      synced ++ left = serialise self.kf ∧ left.length = waiting self world ∧
      (execAll before (disk, none)).1.durableContent (tfile self.loc world.buffer) = some synced ∧
      (Room self.loc → (saved self world disk).durableContent self.loc = some synced) := by
  obtain ⟨printing, left, run, writes, whole, length⟩ := saving_calls self fine
  obtain ⟨after, ino, fd, stop, named, durable⟩ := execAll_synced writes
    (handOver_writes (world.fclose self).cuts left) disk (tfile self.loc world.buffer) none
  have calls : saving self world = (.openTrunc (tfile self.loc world.buffer) :: printing ++
      (.fsync :: (handOver (world.fclose self).cuts left ++ [.close]))) ++
        [.unlink self.loc, .rename (tfile self.loc world.buffer) self.loc] := by
    rw [run]
    simp
  have content : after.durableContent (tfile self.loc world.buffer) = some (written printing) := by
    rw [Disk.durableContent, named, Option.map_some, durable]
  refine ⟨_, written printing, left, calls, whole, length, ?_, ?_⟩
  · rw [stop, content]
  · intro room
    rw [saved, calls, execAll_append, stop, ← content]
    exact durableContent_publish named (room.tfile_ne _)

theorem synced_iff_waiting (self : Handle T) {world : World} (fine : world.Fine) (disk : Disk CString) :
    Synced self world disk ↔ waiting self world = 0 := by
  obtain ⟨before, synced, left, run, whole, length, content, inPlace⟩ := durable_saving self fine disk
  rw [← length, List.length_eq_zero_iff]
  constructor
  · rintro ⟨other, runOther, all, _⟩
    rw [run] at runOther
    rw [← List.append_cancel_right runOther, content, Option.some.injEq, ← whole] at all
    exact List.self_eq_append_right.mp all
  · rintro rfl
    rw [List.append_nil] at whole
    exact ⟨before, run, by rw [content, whole], fun room => by rw [inPlace room, whole]⟩

/-- Of a stream with a buffer, some flushing leaves bytes behind at `fsync`. -/
theorem waiting_calm {self : Handle T} (sections : view self.kf ≠ .empty) {capacity : Nat} (buffered : 0 < capacity) :
    waiting self (calm capacity) ≠ 0 := by
  refine Nat.ne_of_gt (unflushed_pos buffered (fun _ => ⟨rfl, rfl⟩) ?_ (.inr ?_))
  · intro length member
    obtain ⟨text, printed, rfl⟩ := List.mem_map.mp member
    exact List.length_pos_iff.mpr (texts_nonempty printed)
  · intro silent
    exact sections ((texts_eq_nil_iff self.kf).mp (List.map_eq_nil_iff.mp silent))

/-- All of the new file is durable in time exactly when no byte waits in the buffer
    at `fsync`. However the buffer is flushed, that is so only for a stream without
    a buffer, or a store without sections. -/
theorem synced_iff (self : Handle T) (disk : Disk CString) :
    (∀ world, world.Fine → (Synced self world disk ↔ waiting self world = 0)) ∧
      ∀ capacity, (∀ world, world.Fine → world.capacity = capacity → Synced self world disk) ↔
        capacity = 0 ∨ view self.kf = .empty := by
  refine ⟨fun world fine => synced_iff_waiting self fine disk, fun capacity => ⟨?_, ?_⟩⟩
  · intro always
    by_contra neither
    obtain ⟨buffered, sections⟩ := not_or.mp neither
    have synced := always (calm capacity) (calm_fine capacity) rfl
    rw [synced_iff_waiting self (calm_fine capacity)] at synced
    exact waiting_calm sections (Nat.pos_of_ne_zero buffered) synced
  · rintro (rfl | empty) world fine capacity
    · rw [synced_iff_waiting self fine, waiting, capacity]
      exact unflushed_unbuffered _ _
    · rw [synced_iff_waiting self fine, waiting, (texts_eq_nil_iff self.kf).mpr empty]
      rfl

/-- Of a store with one section and a buffer of the usual size, nothing is durable in time. -/
theorem buffered_not_synced :
    ¬ ∀ (self : Handle (Assoc false CString)) (world : World) (disk : Disk CString), world.Fine →
      Synced self world disk := by
  intro always
  have synced := always oneHandle (calm 4096) oneDisk (calm_fine 4096)
  rw [synced_iff_waiting oneHandle (calm_fine 4096)] at synced
  revert synced
  decide

end Mcs.Crashes
