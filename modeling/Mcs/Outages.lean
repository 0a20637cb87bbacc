import Mcs.Torn
import Mcs.Transactions

/-!
Losing power between and during sessions. What `fsync` had not seen can be lost then, so
that the file of an earlier save is found torn; and as nothing syncs the directory, its
names can be those of any moment since the power was last lost, so that an older file is
found, or none (`outage_iff`). Still nothing is read but what had been published at such a
moment, of which a value can lack its end, but has no other bytes (`outages_safe`).
-/
namespace Mcs.Outages
open Mcs.Dictionary Mcs.Strings Mcs.Sectioned Mcs.KeyfileModel Mcs.Reading Mcs.Format Mcs.RoundTrip
open Mcs.Files Mcs.Streams Mcs.Histories Mcs.Backend Mcs.Sessions Mcs.Crashes Mcs.Failures Mcs.Transactions Mcs.Torn

variable {T : Type → Type} [Patricia CString T]

/-! ## Disks -/

/-- What a loss of power leaves: the names of an earlier moment, and of each file what was
    durable, with as much of what was added to it as happened to be written back. A file
    that was changed otherwise can hold anything. -/
structure Lost (moment disk left : Disk CString) : Prop where
  dir : left.dir = moment.dir
  data : ∀ ino, disk.durable ino <+: disk.data ino →
    disk.durable ino <+: left.data ino ∧ left.data ino <+: disk.data ino
  durable : left.durable = left.data

/-- The least that can be left. -/
def powerLoss (moment disk : Disk CString) : Disk CString :=
  { moment with data := disk.durable, durable := disk.durable }

theorem lost_powerLoss (moment disk : Disk CString) : Lost moment disk (powerLoss moment disk) :=
  ⟨rfl, fun _ front => ⟨List.prefix_rfl, front⟩, rfl⟩

/-- What is done with one open file changes no other, and no names. -/
theorem execAll_onFile {calls : List (Sys CString)} (onFile : ∀ call ∈ calls, OnFile call) (disk : Disk CString)
    (fd : Fd) : ∃ after fd', execAll calls (disk, some fd) = (after, some fd') ∧ after.dir = disk.dir ∧
      after.next = disk.next ∧
      ∀ ino ≠ fd.ino, after.durable ino = disk.durable ino ∧ after.data ino = disk.data ino := by
  induction calls generalizing disk fd with
  | nil => exact ⟨disk, fd, rfl, rfl, rfl, fun _ _ => ⟨rfl, rfl⟩⟩
  | cons call rest ih =>
    have one : ∃ after fd', call.exec disk (some fd) = (after, some fd') ∧ fd'.ino = fd.ino ∧ after.dir = disk.dir ∧
        after.next = disk.next ∧
        ∀ ino ≠ fd.ino, after.durable ino = disk.durable ino ∧ after.data ino = disk.data ino := by
      obtain ⟨ino, offset, isOpen⟩ := fd
      cases call with
      | write bytes =>
        cases isOpen with
        | false => exact ⟨_, _, rfl, rfl, rfl, rfl, fun _ _ => ⟨rfl, rfl⟩⟩
        | true => exact ⟨_, _, rfl, rfl, rfl, rfl, fun other differ => ⟨rfl, by simp [Disk.writeAt, differ]⟩⟩
      | fsync =>
        cases isOpen with
        | false => exact ⟨_, _, rfl, rfl, rfl, rfl, fun _ _ => ⟨rfl, rfl⟩⟩
        | true => exact ⟨_, _, rfl, rfl, rfl, rfl, fun other differ => ⟨by simp [Disk.sync, differ], rfl⟩⟩
      | close => exact ⟨_, _, rfl, rfl, rfl, rfl, fun _ _ => ⟨rfl, rfl⟩⟩
      | openTrunc path => exact (onFile _ List.mem_cons_self).elim False.elim fun same => by cases same
      | unlink path => exact (onFile _ List.mem_cons_self).elim False.elim fun same => by cases same
      | rename old new => exact (onFile _ List.mem_cons_self).elim False.elim fun same => by cases same
    obtain ⟨middle, fd', step, sameFile, dir, next, kept⟩ := one
    obtain ⟨after, last, executed, dirAfter, nextAfter, keptAfter⟩ :=
      ih (fun call member => onFile call (List.mem_cons_of_mem _ member)) middle fd'
    refine ⟨after, last, ?_, dirAfter.trans dir, nextAfter.trans next, ?_⟩
    · rw [execAll_cons, step, executed]
    · intro ino differ
      obtain ⟨durable, data⟩ := keptAfter ino (by rw [sameFile]; exact differ)
      exact ⟨durable.trans (kept ino differ).1, data.trans (kept ino differ).2⟩

theorem openTrunc_of_none {disk : Disk CString} {path : CString} (absent : disk.dir path = none) :
    (disk.openTrunc path).2 = disk.next := by
  unfold Disk.openTrunc
  split
  · rename_i found held
    rw [absent] at held
    cases held
  · rfl

/-- A known file away from a name is not the one that is opened under it. -/
theorem ne_openTrunc_of_away {disk : Disk CString} {tmp : CString} {ino : Nat} (away : disk.dir tmp ≠ some ino)
    (known : ino < disk.next) : ino ≠ (disk.openTrunc tmp).2 := by
  cases held : disk.dir tmp with
  | some found =>
    rw [(openTrunc_of_some held).1]
    rintro rfl
    exact away held
  | none => rw [openTrunc_of_none held]; exact Nat.ne_of_lt known

theorem ne_openTrunc {disk : Disk CString} {path tmp : CString} {ino : Nat} (held : disk.dir path = some ino)
    (differ : tmp ≠ path) : ino ≠ (disk.openTrunc tmp).2 :=
  ne_openTrunc_of_away (dir_ne held differ) (disk.known path ino held)

/-- A file that is opened under its name and written: the other files and names stay. -/
structure Wrote (tmp : CString) (disk after : Disk CString) : Prop where
  named : after.dir tmp = some (disk.openTrunc tmp).2
  names : ∀ path ≠ tmp, after.dir path = disk.dir path
  files : ∀ ino ≠ (disk.openTrunc tmp).2, after.durable ino = disk.durable ino ∧ after.data ino = disk.data ino
  next : disk.next ≤ after.next

theorem wrote_openTrunc (disk : Disk CString) (tmp : CString) : Wrote tmp disk (disk.openTrunc tmp).1 := by
  obtain ⟨named, _, names, data⟩ := openTrunc_spec disk tmp
  refine ⟨named, names, fun ino differ => ⟨?_, data ino differ⟩, ?_⟩
  · unfold Disk.openTrunc at differ ⊢
    split
    · rfl
    · rename_i absent
      split at differ
      · rename_i found held
        rw [absent] at held
        cases held
      · exact Function.update_of_ne differ _ _
  · unfold Disk.openTrunc
    split
    · exact Nat.le_refl _
    · exact Nat.le_succ _

theorem wrote_calls {calls : List (Sys CString)} (onFile : ∀ call ∈ calls, OnFile call) (disk : Disk CString)
    (tmp : CString) : Wrote tmp disk (execAll (.openTrunc tmp :: calls) (disk, none)).1 := by
  have opened := wrote_openTrunc disk tmp
  obtain ⟨after, fd', executed, dir, next, kept⟩ :=
    execAll_onFile onFile (disk.openTrunc tmp).1 ⟨(disk.openTrunc tmp).2, 0, true⟩
  rw [execAll_cons]
  show Wrote tmp disk (execAll calls ((disk.openTrunc tmp).1, some ⟨(disk.openTrunc tmp).2, 0, true⟩)).1
  rw [executed]
  refine ⟨by rw [dir]; exact opened.named, fun path differ => by rw [dir]; exact opened.names path differ, ?_, ?_⟩
  · intro ino differ
    obtain ⟨durable, data⟩ := kept ino differ
    exact ⟨durable.trans (opened.files ino differ).1, data.trans (opened.files ino differ).2⟩
  · rw [next]
    exact opened.next

theorem Wrote.replaced {tmp loc : CString} {disk after : Disk CString} (wrote : Wrote tmp disk after)
    (differ : tmp ≠ loc) : ((after.unlink loc).rename tmp loc).dir loc = some (disk.openTrunc tmp).2 ∧
      ((after.unlink loc).rename tmp loc).dir tmp = none ∧ disk.next ≤ ((after.unlink loc).rename tmp loc).next := by
  have still : (after.unlink loc).dir tmp = some (disk.openTrunc tmp).2 := by
    simp only [Disk.unlink, Function.update_of_ne differ, wrote.named]
  have moved := renamed_apply still differ
  exact ⟨(moved loc).trans (if_pos rfl), (moved tmp).trans ((if_neg differ).trans (if_pos rfl)), wrote.next⟩

/-! ## Saves -/

/-- What a save that was killed, or not, has done to the names and the files. -/
structure Stopped (h : Handle T) (world : World) (disk : Disk CString) (count : Nat) : Prop where
  loc : (killed h world disk count).dir h.loc =
    if published h world count then some (disk.openTrunc (tfile h.loc world.buffer)).2
    else if unlinked h world count then none else disk.dir h.loc
  tmp : ∀ ino, (killed h world disk count).dir (tfile h.loc world.buffer) = some ino →
    ino = (disk.openTrunc (tfile h.loc world.buffer)).2 ∧ published h world count = false
  files : ∀ ino ≠ (disk.openTrunc (tfile h.loc world.buffer)).2,
    (killed h world disk count).durable ino = disk.durable ino ∧ (killed h world disk count).data ino = disk.data ino
  next : disk.next ≤ (killed h world disk count).next
  whole : published h world count = true → killed h world disk count = saved h world disk

theorem killed_length (self : Handle T) (world : World) (disk : Disk CString) :
    killed self world disk (saving self world).length = saved self world disk := by
  rw [killed, List.take_length, saved]

theorem published_length (self : Handle T) {world : World} (fine : world.Fine) :
    published self world (saving self world).length = true := by
  obtain ⟨before, _, _, calls, _⟩ := durable_saving self fine .empty
  rw [published, performed, List.take_length, calls]
  simp [isRename]

/-- The file that was written is at the path, with what was synced of it. -/
theorem saved_file (self : Handle T) {world : World} (fine : world.Fine) (room : Room self.loc) (disk : Disk CString) :
    ∃ ino, (saved self world disk).dir self.loc = some ino ∧
      (saved self world disk).durable ino <+: (saved self world disk).data ino ∧
      (saved self world disk).data ino = serialise self.kf ∧
      ((saved self world disk).durable ino).length + waiting self world = (serialise self.kf).length := by
  obtain ⟨_, synced, left, _, whole, length, _, durable⟩ := durable_saving self fine disk
  have durable := durable room
  have content := saved_content_loc self fine (room.tfile_ne world.buffer) disk
  rw [Disk.durableContent, Option.map_eq_some_iff] at durable
  rw [Disk.content] at content
  obtain ⟨ino, held, rfl⟩ := durable
  rw [held, Option.map_some, Option.some.injEq] at content
  refine ⟨ino, held, ?_, content, ?_⟩
  · rw [content]
    exact ⟨left, whole⟩
  · rw [← whole, List.length_append, length]

section
variable {self : Handle T} {world : World} {disk : Disk CString} {count : Nat} {body : List (Sys CString)}
  (wrote : Wrote (tfile self.loc world.buffer) disk (execAll body (disk, none)).1)
  (differ : tfile self.loc world.buffer ≠ self.loc)
include wrote differ

/-- Killed while it is written, or before the unlink. -/
theorem stopped_writing (calls : (saving self world).take count = body) (noUnlink : body.any isUnlink = false)
    (noRename : body.any isRename = false) : Stopped self world disk count := by
  have notYet : published self world count = false := by rw [published, performed, calls, noRename]
  have notEven : unlinked self world count = false := by rw [unlinked, performed, calls, noUnlink]
  have state : killed self world disk count = (execAll body (disk, none)).1 := by rw [killed, calls]
  rw [← state] at wrote
  refine ⟨?_, fun ino held => ⟨?_, notYet⟩, wrote.files, wrote.next, fun yet => by rw [notYet] at yet; cases yet⟩
  · rw [notYet, notEven]
    exact wrote.names self.loc differ.symm
  · rw [wrote.named] at held
    exact (Option.some.inj held).symm

/-- Killed between the last two calls. -/
theorem stopped_unlinked (calls : (saving self world).take count = body ++ [.unlink self.loc])
    (noRename : body.any isRename = false) : Stopped self world disk count := by
  have gone : unlinked self world count = true := by simp [unlinked, performed, calls, isUnlink]
  have notYet : published self world count = false := by simp [published, performed, calls, noRename, isRename]
  have state : killed self world disk count = (execAll body (disk, none)).1.unlink self.loc := by
    rw [killed, calls, execAll_append, execAll_cons]
    generalize execAll body (disk, none) = written
    rfl
  refine ⟨?_, fun ino held => ⟨?_, notYet⟩, ?_, ?_, fun yet => by rw [notYet] at yet; cases yet⟩
  · rw [notYet, gone, state]
    simp [Disk.unlink]
  · rw [state] at held
    simp only [Disk.unlink, Function.update_of_ne differ, wrote.named, Option.some.injEq] at held
    exact held.symm
  · rw [state]
    exact wrote.files
  · rw [state]
    exact wrote.next

/-- Killed after the last call. -/
theorem stopped_renamed (calls : (saving self world).take count =
      body ++ [.unlink self.loc, .rename (tfile self.loc world.buffer) self.loc])
    (all : (saving self world).take count = saving self world) : Stopped self world disk count := by
  have done : published self world count = true := by simp [published, performed, calls, isRename]
  have state : killed self world disk count =
      ((execAll body (disk, none)).1.unlink self.loc).rename (tfile self.loc world.buffer) self.loc := by
    rw [killed, calls, execAll_append, execAll_cons, execAll_cons]
    generalize execAll body (disk, none) = written
    rfl
  obtain ⟨moved, gone, next⟩ := wrote.replaced differ
  refine ⟨?_, fun ino held => ?_, ?_, ?_, fun _ => ?_⟩
  · rw [done, state, if_pos rfl, moved]
  · rw [state, gone] at held
    cases held
  · rw [state]
    exact wrote.files
  · rw [state]
    exact next
  · rw [killed, all, saved]

end

theorem stopped (self : Handle T) {world : World} (fine : world.Fine) (room : Room self.loc) (disk : Disk CString)
    (count : Nat) : Stopped self world disk count := by
  obtain ⟨printing, left, run, writes, whole, _⟩ := saving_calls self fine
  have differ := room.tfile_ne world.buffer
  let body := printing ++ (Sys.fsync :: (handOver (world.fclose self).cuts left ++ [Sys.close]))
  have onFile : ∀ call ∈ body, OnFile call := by
    refine List.forall_mem_append.mpr ⟨fun call member => .inl (writes call member).quiet, ?_⟩
    refine List.forall_mem_cons.mpr ⟨.inl trivial, List.forall_mem_append.mpr ⟨?_, ?_⟩⟩
    · exact fun call member => .inl (handOver_writes _ _ call member).quiet
    · exact fun call member => .inr (List.mem_singleton.mp member)
  have calls : saving self world = (.openTrunc (tfile self.loc world.buffer) :: body) ++
      [.unlink self.loc, .rename (tfile self.loc world.buffer) self.loc] := by
    rw [run]
    simp [body]
  rcases Nat.lt_or_ge (body.length + 1) count with late | early
  · have wrote := wrote_calls onFile disk (tfile self.loc world.buffer)
    have noRename := (onFile_others onFile (tfile self.loc world.buffer)).2
    obtain ⟨rest, rfl⟩ : ∃ rest, count = (Sys.openTrunc (tfile self.loc world.buffer) :: body).length + (rest + 1) :=
      ⟨count - (body.length + 2), by simp only [List.length_cons]; omega⟩
    have first : (saving self world).take ((Sys.openTrunc (tfile self.loc world.buffer) :: body).length + (rest + 1)) =
        (.openTrunc (tfile self.loc world.buffer) :: body) ++
          [Sys.unlink self.loc, .rename (tfile self.loc world.buffer) self.loc].take (rest + 1) := by
      rw [calls, List.take_length_add_append]
    rcases Nat.eq_zero_or_pos rest with rfl | more
    · exact stopped_unlinked wrote differ first noRename
    · have both : [Sys.unlink self.loc, .rename (tfile self.loc world.buffer) self.loc].take (rest + 1) =
          [.unlink self.loc, .rename (tfile self.loc world.buffer) self.loc] :=
        List.take_of_length_le (by simp only [List.length_cons, List.length_nil]; omega)
      rw [both] at first
      exact stopped_renamed wrote differ first (by rw [first, calls])
  · cases count with
    | zero =>
      exact ⟨rfl, fun ino held => ⟨(openTrunc_of_some held).1.symm, rfl⟩, fun _ _ => ⟨rfl, rfl⟩, Nat.le_refl _, nofun⟩
    | succ count =>
      have taken : ∀ call ∈ body.take count, OnFile call := fun call member => onFile call (List.mem_of_mem_take member)
      have wrote := wrote_calls taken disk (tfile self.loc world.buffer)
      obtain ⟨noUnlink, noRename⟩ := onFile_others taken (tfile self.loc world.buffer)
      refine stopped_writing wrote differ ?_ noUnlink noRename
      rw [calls, List.take_append_of_le_length early, List.take_succ_cons]

/-- At most one entry is not as it was. -/
def OneLess (found whole : Store CString CString CString) : Prop :=
  ∀ sect key value sect' key' value', found.get sect key = some value → found.get sect' key' = some value' →
    whole.get sect key ≠ some value → whole.get sect' key' ≠ some value' → sect = sect' ∧ key = key'

/-- What the power leaves of a file that was saved: its front, with all that was synced. -/
theorem left_saved {self : Handle T} {world : World} (fine : world.Fine) (room : Room self.loc)
    {disk left : Disk CString} {count : Nat} (done : published self world count = true)
    (lost : Lost (killed self world disk count) (saved self world disk) left) :
    ∃ front, left.content self.loc = some front ∧ front <+: serialise self.kf ∧
      (serialise self.kf).length ≤ front.length + waiting self world := by
  obtain ⟨ino, held, synced, data, length⟩ := saved_file self fine room disk
  obtain ⟨more, front⟩ := lost.data ino synced
  have named : left.dir self.loc = some ino := by rw [lost.dir, (stopped self fine room disk count).whole done, held]
  refine ⟨left.data ino, by rw [Disk.content, named, Option.map_some], ?_, ?_⟩
  · rw [← data]
    exact front
  · have atLeast := more.length_le
    omega

/-- What the power leaves where a save had not changed the name: the old file. -/
theorem left_old {self : Handle T} {world : World} (fine : world.Fine) (room : Room self.loc) {disk left : Disk CString}
    {count : Nat} (notYet : published self world count = false) (still : unlinked self world count = false)
    (lost : Lost (killed self world disk count) (saved self world disk) left)
    (durable : disk.durableContent self.loc = disk.content self.loc) :
    left.content self.loc = disk.content self.loc := by
  have names := (stopped self fine room disk count).loc
  rw [notYet, still, ← lost.dir] at names
  have names : left.dir self.loc = disk.dir self.loc := names
  rw [Disk.content, names]
  cases held : disk.dir self.loc with
  | none => rw [Disk.content, held]; rfl
  | some ino =>
    have apart := ne_openTrunc held (room.tfile_ne world.buffer)
    have kept := (stopped self fine room disk (saving self world).length).files ino apart
    rw [killed_length] at kept
    have same : disk.durable ino = disk.data ino := by
      rw [Disk.durableContent, Disk.content, held] at durable
      exact Option.some.inj durable
    obtain ⟨more, front⟩ := lost.data ino ⟨[], by rw [List.append_nil, kept.1, kept.2, same]⟩
    rw [kept.1, same] at more
    rw [kept.2] at front
    have whole := front.eq_of_length (Nat.le_antisymm front.length_le more.length_le)
    rw [Disk.content, held, Option.map_some, Option.map_some, whole]

section
variable {env : Environment} {domain : CString} {self : Handle T} (path : configPath env domain = some self.loc)
  (room : Room self.loc) (held : Representable (view self.kf)) {world : World} (fine : world.Fine) {disk : Disk CString}
include path room held fine

/-- What the next handle finds after a loss of power. -/
theorem next_left {count : Nat} {left : Disk CString}
    (lost : Lost (killed self world disk count) (saved self world disk) left) :
    ∃ next : Handle T, mcsKeyfileNew env domain left = some next ∧
      if published self world count then Below (view next.kf) (view self.kf) ∧ OneLess (view next.kf) (view self.kf)
      else if unlinked self world count then view next.kf = .empty
      else disk.durableContent self.loc = disk.content self.loc → view next.kf = loadFile (disk.content self.loc) := by
  obtain ⟨next, opened, _, loaded⟩ := mcsKeyfileNew_total_correct (T := T) path left
  refine ⟨next, opened, ?_⟩
  cases done : published self world count with
  | true =>
    obtain ⟨front, content, torn, _⟩ := left_saved fine room done lost
    rw [loaded, content]
    refine ⟨torn_below held torn, fun sect key value sect' key' value' read read' less less' => ?_⟩
    obtain ⟨name, sameKey, _⟩ := torn_one held torn read read' less less'
    exact ⟨name, sameKey⟩
  | false =>
    cases gone : unlinked self world count with
    | true =>
      have names := (stopped self fine room disk count).loc
      rw [done, gone, ← lost.dir] at names
      have names : left.dir self.loc = none := names
      show view next.kf = .empty
      rw [loaded, Disk.content, names]
      rfl
    | false =>
      intro durable
      rw [loaded, left_old fine room done gone lost durable]

/-- The least that can be left lacks all that waited. -/
theorem waiting_of_whole
    (whole : ∃ next : Handle T,
      mcsKeyfileNew env domain (powerLoss (saved self world disk) (saved self world disk)) = some next ∧
        view next.kf = view self.kf) : waiting self world ≤ 1 := by
  obtain ⟨next, opened, same⟩ := whole
  obtain ⟨ino, named, synced, data, length⟩ := saved_file self fine room disk
  obtain ⟨other, again, _, loaded⟩ := mcsKeyfileNew_total_correct (T := T) path
    (powerLoss (saved self world disk) (saved self world disk))
  rw [opened, Option.some.injEq] at again
  have content : (powerLoss (saved self world disk) (saved self world disk)).content self.loc =
      some ((saved self world disk).durable ino) := congrArg (Option.map (saved self world disk).durable) named
  rw [← again, same, content] at loaded
  rw [data] at synced
  have most := (torn_whole_iff held synced).mp loaded.symm
  omega

theorem whole_of_waiting (few : waiting self world ≤ 1) {left : Disk CString}
    (lost : Lost (saved self world disk) (saved self world disk) left) :
    ∃ next : Handle T, mcsKeyfileNew env domain left = some next ∧ view next.kf = view self.kf := by
  have after : Lost (killed self world disk (saving self world).length) (saved self world disk) left := by
    rw [killed_length]
    exact lost
  obtain ⟨next, opened, _, loaded⟩ := mcsKeyfileNew_total_correct (T := T) path left
  obtain ⟨front, content, torn, length⟩ := left_saved fine room (published_length self fine) after
  refine ⟨next, opened, ?_⟩
  rw [loaded, content]
  exact (torn_whole_iff held torn).mpr (by omega)

end

/-- A save in which nothing fails, a loss of power, and the next handle. Where the names
    are those after the save, each entry that it has is one that was saved, and at most one
    of them lacks the end of its value; where they are those between the last two calls, it
    has none; else it has the old ones. With the names after the save, it has all that was
    saved whatever is left of the file exactly when at most one byte, the last newline,
    waited in the stream's buffer when `fsync` was called. -/
theorem outage_iff {env : Environment} {domain : CString} (self : Handle T)
    (path : configPath env domain = some self.loc) (room : Room self.loc) (held : Representable (view self.kf))
    {world : World} (fine : world.Fine) (disk : Disk CString) :
    (∀ count left, Lost (killed self world disk count) (saved self world disk) left →
      ∃ next : Handle T, mcsKeyfileNew env domain left = some next ∧
        if published self world count then Below (view next.kf) (view self.kf) ∧ OneLess (view next.kf) (view self.kf)
        else if unlinked self world count then view next.kf = .empty
        else disk.durableContent self.loc = disk.content self.loc → view next.kf = loadFile (disk.content self.loc)) ∧
    ((∀ left, Lost (saved self world disk) (saved self world disk) left →
      ∃ next : Handle T, mcsKeyfileNew env domain left = some next ∧ view next.kf = view self.kf) ↔
      waiting self world ≤ 1) := by
  refine ⟨fun count left lost => next_left path room held fine lost, ?_, ?_⟩
  · exact fun whole => waiting_of_whole path room held fine (whole _ (lost_powerLoss _ _))
  · exact fun few left lost => whole_of_waiting path room held fine few lost

/-- All of a file is in the stream's buffer when `fsync` is called, and can be lost. -/
theorem outage_iff_torn :
    (∃ next : Handle (Assoc false CString),
      mcsKeyfileNew directoryA nameB (powerLoss (saved ⟨pathAB, holding nameB⟩ (calm 4096) holdingDisk)
        (saved ⟨pathAB, holding nameB⟩ (calm 4096) holdingDisk)) = some next ∧
        Below (view next.kf) (view (holding nameB)) ∧ OneLess (view next.kf) (view (holding nameB))) ∧
    ¬ ∀ left, Lost (saved ⟨pathAB, holding nameB⟩ (calm 4096) holdingDisk)
        (saved ⟨pathAB, holding nameB⟩ (calm 4096) holdingDisk) left →
      ∃ next : Handle (Assoc false CString), mcsKeyfileNew directoryA nameB left = some next ∧
        view next.kf = view (holding nameB) := by
  obtain ⟨torn, whole⟩ := outage_iff ⟨pathAB, holding nameB⟩ configPath_directoryA room_pathAB
    (holding_representable entryOk_nameA_nameB) (calm_fine 4096) holdingDisk
  refine ⟨?_, fun all => absurd (whole.mp all) (by decide)⟩
  have published := published_length (⟨pathAB, holding nameB⟩ : Handle (Assoc false CString)) (calm_fine 4096)
  obtain ⟨next, opened, less⟩ := torn (saving ⟨pathAB, holding nameB⟩ (calm 4096)).length _
    (by rw [killed_length]; exact lost_powerLoss _ _)
  rw [published, if_pos rfl] at less
  exact ⟨next, opened, less⟩

/-! ## What a file may hold -/

/-- Every entry was set last to the value that it has, or to one that begins with it. -/
def Faithful (past : List Op) (store : Store CString CString CString) : Prop :=
  ∀ sect key value, store.get sect key = some value →
    ∃ full, setting past sect key = some full ∧ value.bytes <+: full.bytes

/-- A faithful store that can be saved. -/
structure Held (past : List Op) (store : Store CString CString CString) : Prop where
  faithful : Faithful past store
  representable : Representable store

theorem held_empty (past : List Op) : Held past .empty :=
  ⟨fun _ _ _ held => by simp at held, empty_representable⟩

theorem setting_append (past ops : List Op) (sect key : CString) :
    setting (past ++ ops) sect key = ((latest (sect, key) (writes ops)).or (latest (sect, key) (writes past))).join := by
  rw [setting, writes_append, latest_append]

/-- The entries after some operations: what they wrote, and what was there before. -/
theorem get_performAll (ops : List Op) (self : Handle T) (sect key : CString) :
    (view (performAll self ops).1.kf).get sect key =
      (latest (sect, key) (writes ops)).getD ((view self.kf).get sect key) := by
  have same := congrFun (entries_performAll ops self) (sect, key)
  rw [replay_eq] at same
  exact same

theorem held_performAll {past ops : List Op} (ok : ∀ op ∈ ops, op.Ok) {self : Handle T}
    (held : Held past (view self.kf)) : Held (past ++ ops) (view (performAll self ops).1.kf) := by
  refine ⟨fun sect key value found => ?_, performAll_representable ok held.representable⟩
  rw [get_performAll] at found
  rw [setting_append]
  cases wrote : latest (sect, key) (writes ops) with
  | none =>
    rw [wrote] at found
    exact held.faithful sect key value found
  | some left =>
    rw [wrote, Option.getD_some] at found
    exact ⟨value, by rw [found]; rfl, List.prefix_rfl⟩

/-- The front of a saved file is as faithful as the store. -/
theorem held_torn {past : List Op} {kf : Keyfile T} (held : Held past (view kf)) {front : Bytes}
    (torn : front <+: serialise kf) : Held past (loadFile (some front)) := by
  refine ⟨fun sect key value found => ?_, torn_representable held.representable torn⟩
  obtain ⟨whole, present, front⟩ := (torn_below held.representable torn).entries sect key value found
  obtain ⟨full, set, more⟩ := held.faithful sect key whole present
  exact ⟨full, set, front.trans more⟩

/-- A moment since the power was last lost: what had been published, and the disk. -/
abbrev Moment := List Op × Disk CString

/-- A file of which an outage can only leave what is faithful to some operations. It stays
    away from the temporary name, where it would be written again. -/
structure Sound (tmp : CString) (past : List Op) (disk : Disk CString) (ino : Nat) : Prop where
  away : disk.dir tmp ≠ some ino
  known : ino < disk.next
  synced : disk.durable ino <+: disk.data ino
  faithful : ∀ front, disk.durable ino <+: front → front <+: disk.data ino → Held past (loadFile (some front))

/-- Now is one of the moments, and the file that the path named at each of them is sound
    for what had been published then. -/
structure Safe (loc tmp : CString) (moments : List Moment) (past : List Op) (disk : Disk CString) : Prop where
  here : (past, disk) ∈ moments
  files : ∀ moment ∈ moments, ∀ ino, moment.2.dir loc = some ino → Sound tmp moment.1 disk ino

/-- What is read now is faithful to all that has been published. -/
theorem Safe.now {loc tmp : CString} {moments : List Moment} {past : List Op} {disk : Disk CString}
    (safe : Safe loc tmp moments past disk) : Held past (loadFile (disk.content loc)) := by
  cases held : disk.dir loc with
  | none =>
    rw [Disk.content, held]
    exact held_empty past
  | some ino =>
    have sound := safe.files _ safe.here ino held
    rw [Disk.content, held]
    exact sound.faithful _ sound.synced List.prefix_rfl

/-- An outage goes back to the moment whose names it leaves. -/
theorem safe_lost {loc tmp : CString} (differ : tmp ≠ loc) {moments : List Moment} {past base : List Op}
    {disk moment left : Disk CString} (safe : Safe loc tmp moments past disk) (member : (base, moment) ∈ moments)
    (lost : Lost moment disk left) : Safe loc tmp [(base, left)] base left := by
  refine ⟨List.mem_singleton_self _, ?_⟩
  intro mark inMarks ino named
  cases List.mem_singleton.mp inMarks
  have before : moment.dir loc = some ino := by rw [← lost.dir]; exact named
  have sound := safe.files _ member ino before
  obtain ⟨more, front⟩ := lost.data ino sound.synced
  refine ⟨dir_ne named differ, left.known loc ino named, ⟨[], by rw [List.append_nil, lost.durable]⟩, ?_⟩
  intro found above below
  rw [lost.durable] at above
  rw [below.eq_of_length (Nat.le_antisymm below.length_le above.length_le)]
  exact sound.faithful _ more front

section
variable {self : Handle T} {world : World} (fine : world.Fine) (room : Room self.loc) {past : List Op}
  {disk : Disk CString}
include fine room

/-- A save writes a file of its own. -/
theorem sound_killed {ino : Nat} (sound : Sound (tfile self.loc world.buffer) past disk ino) (count : Nat) :
    Sound (tfile self.loc world.buffer) past (killed self world disk count) ino := by
  have now := stopped self fine room disk count
  have apart := ne_openTrunc_of_away sound.away sound.known
  obtain ⟨durable, data⟩ := now.files ino apart
  refine ⟨fun held => apart (now.tmp ino held).1, Nat.lt_of_lt_of_le sound.known now.next, ?_, ?_⟩
  · rw [durable, data]
    exact sound.synced
  · rw [durable, data]
    exact sound.faithful

theorem sound_saved (held : Held past (view self.kf)) {ino : Nat}
    (named : (saved self world disk).dir self.loc = some ino) :
    Sound (tfile self.loc world.buffer) past (saved self world disk) ino := by
  obtain ⟨found, there, synced, data, _⟩ := saved_file self fine room disk
  rw [there, Option.some.injEq] at named
  subst named
  refine ⟨dir_ne there (room.tfile_ne world.buffer), (saved self world disk).known _ _ there, synced, ?_⟩
  intro front _ below
  rw [data] at below
  exact held_torn held below

end

/-- The moments of a save: before and after each of its calls. -/
def marks (self : Handle T) (world : World) (past ops : List Op) (disk : Disk CString) (count : Nat) : List Moment :=
  (List.range (count + 1)).map fun calls =>
    (committed past ops (published self world calls), killed self world disk calls)

/-- A published save has made all its calls. -/
theorem published_mono {self : Handle T} {world : World} {calls count : Nat} (le : calls ≤ count)
    (done : published self world calls = true) : published self world count = true := by
  obtain ⟨call, member, renames⟩ := List.any_eq_true.mp done
  exact List.any_eq_true.mpr ⟨call, List.take_subset_take_left _ le member, renames⟩

/-- The file at the path is sound at each moment of a save: it is the old one, or the
    one that was written, to which nothing is done after the rename. -/
theorem sound_mark {self : Handle T} {world : World} (fine : world.Fine) (room : Room self.loc) {past ops : List Op}
    {disk : Disk CString} (held : Held (past ++ ops) (view self.kf))
    (before : ∀ ino, disk.dir self.loc = some ino → Sound (tfile self.loc world.buffer) past disk ino)
    {calls count : Nat} (le : calls ≤ count) {ino : Nat}
    (named : (killed self world disk calls).dir self.loc = some ino) :
    Sound (tfile self.loc world.buffer) (committed past ops (published self world calls))
      (killed self world disk count) ino := by
  have stop := stopped self fine room disk calls
  cases done : published self world calls with
  | true =>
    rw [stop.whole done] at named
    rw [(stopped self fine room disk count).whole (published_mono le done)]
    exact sound_saved fine room held named
  | false =>
    have names := stop.loc
    rw [done, named] at names
    cases gone : unlinked self world calls with
    | true =>
      rw [gone] at names
      cases names
    | false =>
      rw [gone] at names
      exact sound_killed fine room (before ino names.symm) count

/-- A save keeps the path safe, wherever its process is killed. -/
theorem safe_killed {past ops : List Op} {self : Handle T} {world : World} (fine : world.Fine) (room : Room self.loc)
    (ok : ∀ op ∈ ops, op.Ok) {moments : List Moment} {disk : Disk CString}
    (safe : Safe self.loc (tfile self.loc world.buffer) moments past disk)
    (opened : view self.kf = loadFile (disk.content self.loc)) (count : Nat) :
    Safe self.loc (tfile self.loc world.buffer)
      (moments ++ marks (performAll self ops).1 world past ops disk count)
      (committed past ops (published (performAll self ops).1 world count))
      (killed (performAll self ops).1 world disk count) := by
  have same := performAll_loc ops self
  have used : Held (past ++ ops) (view (performAll self ops).1.kf) :=
    held_performAll ok (by rw [opened]; exact safe.now)
  revert used
  generalize (performAll self ops).1 = changed at same
  intro used
  rw [← same] at room safe ⊢
  refine ⟨?_, fun moment member ino named => ?_⟩
  · exact List.mem_append_right _ (List.mem_map.mpr ⟨count, List.self_mem_range_succ, rfl⟩)
  · rcases List.mem_append.mp member with old | new
    · exact sound_killed fine room (safe.files moment old ino named) count
    · obtain ⟨calls, inRange, rfl⟩ := List.mem_map.mp new
      have le : calls ≤ count := Nat.lt_succ_iff.mp (List.mem_range.mp inRange)
      exact sound_mark fine room used (safe.files _ safe.here) le named

/-! ## Replies -/

/-- The reply to a read is exact where the session has written the entry; otherwise
    the entry may be gone, or lack the end of its value. -/
def Fits (past session : List Op) (reply : Reply) : Op → Prop
  | .getString sect key value =>
    match latest (sect, key) (writes session) with
    | some (some held) => reply = ⟨.MCS_OK, some held⟩
    | some none => reply = ⟨.MCS_FAIL, value⟩
    | none => reply = ⟨.MCS_FAIL, value⟩ ∨ ∃ found full, reply = ⟨.MCS_OK, some found⟩ ∧
        setting past sect key = some full ∧ found.bytes <+: full.bytes
  | _ => reply = ⟨.MCS_OK, none⟩

/-- The replies of a session. -/
def AllFit (past session : List Op) : List Op → List Reply → Prop
  | [], [] => True
  | op :: rest, reply :: others => Fits past session reply op ∧ AllFit past (session ++ [op]) rest others
  | _, _ => False

theorem perform_fits {past session : List Op} {start : Store CString CString CString} (faithful : Faithful past start)
    {self : Handle T} (held : entries (view self.kf) = replay (entries start) (writes session)) (op : Op) :
    Fits past session (op.perform self).2 op := by
  cases op with
  | getString sect key value =>
    have found : (view self.kf).get sect key = (latest (sect, key) (writes session)).getD (start.get sect key) := by
      have same := congrFun held (sect, key)
      rw [replay_eq] at same
      exact same
    simp only [Fits, Op.perform, keyfileGetString_eq, found]
    cases latest (sect, key) (writes session) with
    | some left => cases left <;> rfl
    | none =>
      cases before : start.get sect key with
      | none => exact .inl rfl
      | some old =>
        obtain ⟨full, set, front⟩ := faithful sect key old before
        exact .inr ⟨old, full, rfl, set, front⟩
  | setString sect key value => rfl
  | setInt sect key value => rfl
  | setBool sect key value =>
    simp only [Fits, Op.perform, keyfileSetBool]
    split <;> rfl
  | unsetKey sect key =>
    simp only [Fits, Op.perform, keyfileUnsetKey]
    split <;> rfl

theorem performAll_fits {past session : List Op} {start : Store CString CString CString} (faithful : Faithful past start)
    (ops : List Op) {self : Handle T} (held : entries (view self.kf) = replay (entries start) (writes session)) :
    AllFit past session ops (performAll self ops).2 := by
  induction ops generalizing session self with
  | nil => trivial
  | cons op rest ih =>
    refine ⟨perform_fits faithful held op, ih ?_⟩
    rw [entries_perform, held, writes_append, replay_append]

/-! ## Runs -/

/-- What becomes of the disk after a session: it stays as it is, or the power is lost, and
    one of the moments is all that there was. -/
inductive Onward (moments : List Moment) (past : List Op) (disk : Disk CString) :
    List Moment → List Op → Disk CString → Prop
  | stays : Onward moments past disk moments past disk
  | loses {base : List Op} {moment left : Disk CString} (member : (base, moment) ∈ moments)
      (lost : Lost moment disk left) : Onward moments past disk [(base, left)] base left

/-- What a session finds: what had been published when it was opened, its operations and
    their replies. -/
structure Found where
  past : List Op
  ops : List Op
  replies : List Reply

/-- Sessions in turn, each of them killed anywhere in its save, or not at all. -/
inductive Runs (T : Type → Type) [Patricia CString T] (env : Environment) (domain : CString) :
    List Moment → List Op → Disk CString → List Transaction → List Found → Prop
  | done {moments : List Moment} {past : List Op} {disk : Disk CString} : Runs T env domain moments past disk [] []
  | session {moments moments' : List Moment} {past past' : List Op} {disk disk' : Disk CString}
      {transaction : Transaction} {rest : List Transaction} {others : List Found} {self : Handle T}
      (opened : mcsKeyfileNew env domain disk = some self)
      (onward : Onward
        (moments ++
          marks (performAll self transaction.ops).1 transaction.world past transaction.ops disk transaction.count)
        (committed past transaction.ops
          (published (performAll self transaction.ops).1 transaction.world transaction.count))
        (killed (performAll self transaction.ops).1 transaction.world disk transaction.count) moments' past' disk')
      (later : Runs T env domain moments' past' disk' rest others) :
      Runs T env domain moments past disk (transaction :: rest)
        (⟨past, transaction.ops, (performAll self transaction.ops).2⟩ :: others)

variable {env : Environment} {domain loc : CString}

/-- Every list of sessions has a run. -/
theorem runs_exist (path : configPath env domain = some loc) (transactions : List Transaction)
    (moments : List Moment) (past : List Op) (disk : Disk CString) :
    ∃ found, Runs T env domain moments past disk transactions found := by
  induction transactions generalizing moments past disk with
  | nil => exact ⟨[], .done⟩
  | cons transaction rest ih =>
    obtain ⟨self, opened, _⟩ := mcsKeyfileNew_total_correct (T := T) path disk
    obtain ⟨others, later⟩ := ih _ _ _
    exact ⟨_, .session opened .stays later⟩

theorem safe_onward {tmp : CString} (differ : tmp ≠ loc) {moments moments' : List Moment} {past past' : List Op}
    {disk disk' : Disk CString} (safe : Safe loc tmp moments past disk)
    (onward : Onward moments past disk moments' past' disk') : Safe loc tmp moments' past' disk' := by
  cases onward with
  | stays => exact safe
  | loses member lost => exact safe_lost differ safe member lost

theorem runs_fit (path : configPath env domain = some loc) (room : Room loc) {moments : List Moment} {past : List Op}
    {disk : Disk CString} {transactions : List Transaction} {found : List Found}
    (fine : ∀ transaction ∈ transactions, transaction.world.Fine)
    (ok : ∀ transaction ∈ transactions, ∀ op ∈ transaction.ops, op.Ok)
    (safe : ∀ buffer, Safe loc (tfile loc buffer) moments past disk)
    (runs : Runs T env domain moments past disk transactions found) :
    ∀ one ∈ found, AllFit one.past [] one.ops one.replies := by
  induction runs with
  | done => exact fun _ member => absurd member List.not_mem_nil
  | @session moments moments' past past' disk disk' transaction rest others self opened onward later ih =>
    obtain ⟨same, again, located, loaded⟩ := mcsKeyfileNew_total_correct (T := T) path disk
    rw [opened, Option.some.injEq] at again
    subst again
    subst located
    have ended := safe_killed (fine transaction List.mem_cons_self) room (ok transaction List.mem_cons_self)
      (safe transaction.world.buffer) loaded transaction.count
    have onwards := safe_onward (room.tfile_ne transaction.world.buffer) ended onward
    refine List.forall_mem_cons.mpr ⟨?_, ?_⟩
    · have faithful : Faithful past (view self.kf) := by
        rw [loaded]
        exact (safe transaction.world.buffer).now.faithful
      exact performAll_fits faithful transaction.ops rfl
    · refine ih (fun other member => fine other (List.mem_cons_of_mem _ member))
        (fun other member => ok other (List.mem_cons_of_mem _ member)) fun buffer => ?_
      rw [tfile_congr _ buffer transaction.world.buffer]
      exact onwards

/-- Over any number of sessions, with processes killed anywhere in their saves and power
    lost after any of them, which takes the names back to any moment since it was last
    lost: a read finds what its session has written; else it fails, or it finds what was
    set last in the sessions published at that moment, which may lack its end. -/
theorem outages_safe (path : configPath env domain = some loc) (room : Room loc) (disk : Disk CString)
    (absent : disk.content loc = none) (transactions : List Transaction)
    (fine : ∀ transaction ∈ transactions, transaction.world.Fine)
    (ok : ∀ transaction ∈ transactions, ∀ op ∈ transaction.ops, op.Ok) :
    (∃ found, Runs T env domain [([], disk)] [] disk transactions found) ∧
      ∀ found, Runs T env domain [([], disk)] [] disk transactions found →
        ∀ one ∈ found, AllFit one.past [] one.ops one.replies := by
  refine ⟨runs_exist path transactions _ _ _, fun found runs => ?_⟩
  refine runs_fit path room fine ok (fun buffer => ⟨List.mem_singleton_self _, ?_⟩) runs
  intro moment member ino named
  cases List.mem_singleton.mp member
  rw [Disk.content, Option.map_eq_none_iff] at absent
  rw [absent] at named
  cases named

/-- One session sets an entry, and the loss of power after it takes the names back to the
    start; another one reads the entry. -/
def twice : List Transaction :=
  [⟨⟨[.setString nameA nameA nameB], calm 4096⟩, 100⟩, ⟨⟨[.getString nameA nameA none], calm 4096⟩, 100⟩]

theorem outages_safe_back : ∃ first second,
    Runs (Assoc false CString) directoryA nameB [([], .empty)] [] .empty twice [first, second] ∧ second.past = [] ∧
      AllFit first.past [] first.ops first.replies ∧ AllFit second.past [] second.ops second.replies := by
  obtain ⟨self, opened, _⟩ := mcsKeyfileNew_total_correct (T := Assoc false CString) configPath_directoryA .empty
  obtain ⟨next, again, _⟩ := mcsKeyfileNew_total_correct (T := Assoc false CString) configPath_directoryA
    (powerLoss .empty (killed (performAll self [.setString nameA nameA nameB]).1 (calm 4096) .empty 100))
  have runs : Runs (Assoc false CString) directoryA nameB [([], .empty)] [] .empty twice [⟨[], _, _⟩, ⟨[], _, _⟩] :=
    .session opened
      (.loses (List.mem_append_left _ (List.mem_singleton_self ([], Disk.empty))) (lost_powerLoss _ _))
      (.session again .stays .done)
  obtain ⟨_, fit⟩ := outages_safe configPath_directoryA room_pathAB .empty rfl twice (T := Assoc false CString) (by
      intro transaction member
      simp only [twice, List.mem_cons, List.not_mem_nil, or_false] at member
      rcases member with rfl | rfl <;> exact calm_fine 4096) (by
      intro transaction member op inSession sect key value writes
      simp only [twice, List.mem_cons, List.not_mem_nil, or_false] at member
      rcases member with rfl | rfl
      · simp only [List.mem_cons, List.not_mem_nil, or_false] at inSession
        subst inSession
        cases writes
        exact ⟨sectionOk_nameA, entryOk_nameA_nameB⟩
      · simp only [List.mem_cons, List.not_mem_nil, or_false] at inSession
        subst inSession
        cases writes)
  have each := fit _ runs
  exact ⟨_, _, runs, rfl, each _ List.mem_cons_self, each _ (List.mem_cons_of_mem _ List.mem_cons_self)⟩

end Mcs.Outages
