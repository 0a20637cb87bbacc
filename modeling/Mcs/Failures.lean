import Mcs.Crashes

/-!
Saves in which calls fail. `mcs_keyfile_destroy` acts on the results of `fopen`
and `rename` only, so what lies at the path afterwards follows from a few of the
outcomes (`saved_content_opened`), and `kept_iff` says for which of them it is the
old file or the whole new one. Another file can end up whole by chance, if it holds
what reaches the new one; `kept_always_iff` leaves that out.
-/
namespace Mcs.Failures
open Mcs.Dictionary Mcs.Strings Mcs.KeyfileModel Mcs.RoundTrip
open Mcs.Files Mcs.Streams Mcs.Backend Mcs.Sessions Mcs.Crashes

variable {T : Type → Type} [Patricia CString T]

/-- The bytes that reach the temporary file: what the buffer was given of each text,
    without what `fclose` could not pass on of the last of it. -/
def reaching (self : Handle T) (world : World) : Bytes :=
  keep (min (world.fclose self).lost (waiting self world)) (accepted (later world.io) (keyfileTexts self.kf))

/-- Every text is printed whole, and `fclose` passes on all that waits. -/
def Lossless (self : Handle T) (world : World) : Prop :=
  (∀ index < (keyfileTexts self.kf).length, (world.io (index + 1)).lost = 0) ∧
    ((world.fclose self).lost = 0 ∨ waiting self world = 0)

/-- The path holds what it held before, or the whole serialisation. -/
def Kept (self : Handle T) (world : World) (disk : Disk CString) : Prop :=
  (saved self world disk).content self.loc = disk.content self.loc ∨
    (saved self world disk).content self.loc = some (serialise self.kf)

theorem keep_append (lost : Nat) (before left : Bytes) :
    before ++ keep lost left = keep (min lost left.length) (before ++ left) := by
  have whole : (before ++ left).length - min lost left.length = before.length + (left.length - lost) := by
    rw [List.length_append]
    omega
  rw [keep, keep, whole, List.take_length_add_append]

/-- The calls of a save whose file opens: it is written, closed, and then the old
    one is replaced as far as `unlink` and `rename` work. -/
theorem saving_body (self : Handle T) {world : World} (opened : (world.io 0).ok = true) :
    ∃ body, (∀ call ∈ body, call.Quiet) ∧ written body = reaching self world ∧
      saving self world = (.openTrunc (tfile self.loc world.buffer) :: body) ++
        (.close :: ((if (world.unlink self).ok then [.unlink self.loc] else []) ++
          (if (world.rename self).ok then [.rename (tfile self.loc world.buffer) self.loc] else []))) := by
  obtain ⟨printing, left, run, writes, whole, length⟩ := saving_opened self opened
  have syncs : ∀ ok : Bool, (∀ call ∈ (if ok then [.fsync] else [] : List (Sys CString)), call.Quiet) ∧
      written (if ok then [.fsync] else [] : List (Sys CString)) = [] := by
    intro ok
    cases ok with
    | false => exact ⟨fun call member => absurd member List.not_mem_nil, rfl⟩
    | true => exact ⟨fun call member => by rw [List.mem_singleton.mp member]; trivial, rfl⟩
  refine ⟨printing ++ ((if (world.fsync self).ok then [.fsync] else []) ++
    handOver (world.fclose self).cuts (keep (world.fclose self).lost left)), ?_, ?_, ?_⟩
  · refine List.forall_mem_append.mpr ⟨fun call member => (writes call member).quiet, ?_⟩
    refine List.forall_mem_append.mpr ⟨(syncs _).1, fun call member => (handOver_writes _ _ call member).quiet⟩
  · rw [written_append, written_append, written_handOver, (syncs _).2, List.nil_append, keep_append, whole, length]
    show _ = keep (min (world.fclose self).lost (waiting self world)) _
    rfl
  · rw [run]
    simp only [List.cons_append, List.append_assoc]

/-- What lies at the path after a save, for every way its calls can end. -/
theorem saved_content_opened (self : Handle T) {world : World} (opened : (world.io 0).ok = true)
    (differ : tfile self.loc world.buffer ≠ self.loc) (disk : Disk CString) :
    (saved self world disk).content self.loc =
      if (world.rename self).ok then some (reaching self world)
      else if (world.unlink self).ok then none else disk.content self.loc := by
  obtain ⟨body, quiet, bytes, run⟩ := saving_body self opened
  obtain ⟨middle, ino, executed, named, data, others⟩ :=
    execAll_writing quiet disk (tfile self.loc world.buffer) none
  have file : middle.content (tfile self.loc world.buffer) = some (reaching self world) := by
    rw [Disk.content, named, Option.map_some, data, bytes]
  rw [saved, run, execAll_append, executed, execAll_cons]
  refine (content_replace named differ _ _ _).trans ?_
  rw [file, others self.loc (Ne.symm differ)]

/-- The whole serialisation reaches the file only when nothing is lost on the way. -/
theorem reaching_eq_iff (self : Handle T) (world : World) :
    reaching self world = serialise self.kf ↔ Lossless self world := by
  constructor
  · intro whole
    have bound := accepted_length_le (later world.io) (keyfileTexts self.kf)
    have length := congrArg List.length whole
    rw [reaching, keep_length, serialise] at length
    have full : (accepted (later world.io) (keyfileTexts self.kf)).length = (keyfileTexts self.kf).flatten.length := by
      omega
    have waits : waiting self world ≤ (accepted (later world.io) (keyfileTexts self.kf)).length :=
      unflushed_le _ _ _
    exact ⟨accepted_whole (fun text printed => texts_nonempty printed) full, by omega⟩
  · rintro ⟨texts, last⟩
    have all : accepted (later world.io) (keyfileTexts self.kf) = serialise self.kf := accepted_flatten texts
    have none : min (world.fclose self).lost (waiting self world) = 0 := by omega
    rw [reaching, none, keep_zero, all]

/-- Exactly when a save keeps the old file or writes the whole new one. -/
theorem kept_iff (self : Handle T) (world : World) (room : Room self.loc) (disk : Disk CString) :
    Kept self world disk ↔ (world.io 0).ok = false ∨
      ((world.rename self).ok = true ∧ (Lossless self world ∨ disk.content self.loc = some (reaching self world))) ∨
      ((world.rename self).ok = false ∧ ((world.unlink self).ok = false ∨ disk.content self.loc = none)) := by
  rw [← reaching_eq_iff]
  cases opened : (world.io 0).ok with
  | false =>
    have same : saved self world disk = disk := by rw [saved, saving_closed self opened]; rfl
    rw [Kept, same]
    simp
  | true =>
    rw [Kept, saved_content_opened self opened (room.tfile_ne _)]
    cases renames : (world.rename self).ok with
    | true =>
      simp only [↓reduceIte, reduceCtorEq, Option.some.injEq, true_and, false_and, false_or, or_false]
      exact ⟨fun kept => kept.elim (fun old => .inr old.symm) .inl, fun kept => kept.elim .inr fun old => .inl old.symm⟩
    | false =>
      cases unlinks : (world.unlink self).ok with
      | true =>
        simp only [Bool.false_eq_true, ↓reduceIte, reduceCtorEq, true_and, false_and, false_or, or_false]
        exact eq_comm
      | false => simp

/-- There is a disk on which the path holds other bytes. -/
theorem exists_other {loc : CString} (room : Room loc) (bytes : Bytes) :
    ∃ disk : Disk CString, disk.content loc ≠ none ∧ disk.content loc ≠ some bytes := by
  have content : ∀ value, (saved ⟨loc, holding value⟩ (calm 0) .empty).content loc = some (serialise (holding value)) :=
    fun value => saved_content_loc ⟨loc, holding value⟩ (calm_fine 0) (room.tfile_ne _) .empty
  have differ : serialise (holding nameA) ≠ serialise (holding nameB) := by decide
  by_cases same : serialise (holding nameA) = bytes
  · refine ⟨_, by rw [content nameB]; exact nofun, ?_⟩
    rw [content nameB, ← same, Ne, Option.some.injEq]
    exact differ.symm
  · refine ⟨_, by rw [content nameA]; exact nofun, ?_⟩
    rw [content nameA, Ne, Option.some.injEq]
    exact same

/-- Whatever was there before: exactly the outcomes with which a save keeps the old file
    or writes the whole new one. -/
theorem kept_always_iff (self : Handle T) (world : World) (room : Room self.loc) :
    (∀ disk, Kept self world disk) ↔ (world.io 0).ok = false ∨
      ((world.rename self).ok = true ∧ Lossless self world) ∨
      ((world.rename self).ok = false ∧ (world.unlink self).ok = false) := by
  constructor
  · intro always
    obtain ⟨disk, present, other⟩ := exists_other room (reaching self world)
    rcases (kept_iff self world room disk).mp (always disk) with
      closed | ⟨renames, whole | same⟩ | ⟨fails, stays | absent⟩
    · exact .inl closed
    · exact .inr (.inl ⟨renames, whole⟩)
    · exact absurd same other
    · exact .inr (.inr ⟨fails, stays⟩)
    · exact absurd absent present
  · intro outcomes disk
    refine (kept_iff self world room disk).mpr ?_
    rcases outcomes with closed | ⟨renames, whole⟩ | ⟨fails, stays⟩
    · exact .inl closed
    · exact .inr (.inl ⟨renames, .inl whole⟩)
    · exact .inr (.inr ⟨fails, .inl stays⟩)

/-! ### Failures of a small save -/

/-- The directory takes no more changes once the file is open: of the save of two texts,
    `unlink` and `rename` fail. -/
def locked : World := ⟨fun _ => 0, 4096, fun index => ⟨decide (index < 5), 0, 0, []⟩⟩

/-- The file of the value `a` stays when `b` cannot be published. -/
theorem kept_iff_locked : Kept ⟨pathAB, holding nameB⟩ locked holdingDisk :=
  (kept_iff ⟨pathAB, holding nameB⟩ locked room_pathAB holdingDisk).mpr (.inr (.inr ⟨rfl, .inl rfl⟩))

/-- The first `fprintf` loses a byte. -/
def fullDisk : World := ⟨fun _ => 0, 4096, fun index => ⟨true, if index = 1 then 1 else 0, 0, []⟩⟩

/-- A full disk leaves neither the old file nor the new one. -/
theorem fullDisk_loses : ¬ ∀ (self : Handle (Assoc false CString)) (world : World) (disk : Disk CString),
    Room self.loc → Kept self world disk := by
  intro always
  have content : (saved oneHandle fullDisk oneDisk).content pathAB = some (reaching oneHandle fullDisk) :=
    (saved_content_opened oneHandle rfl (room_pathAB.tfile_ne _) oneDisk).trans (if_pos rfl)
  have whole : some (reaching oneHandle fullDisk) = some (serialise oneSection) := by
    rcases always oneHandle fullDisk oneDisk room_pathAB with old | new
    · exact content.symm.trans (old.trans oneDisk_content)
    · exact content.symm.trans new
  revert whole
  decide

end Mcs.Failures
