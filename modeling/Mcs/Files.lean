import Mcs.Strings

/-!
A file system as a saving program sees it: names that lead to files, the bytes
the kernel holds for each file and the bytes that would survive a loss of power,
and the system calls that change them. Nothing here links one file under two
names, so a `Disk` carries that as a field.
-/
namespace Mcs.Files
open Mcs.Strings (Bytes)

variable {Path : Type}

/-- Names, the files they lead to, and the contents of the files by number.
    Numbers from `next` on are unused. -/
structure Disk (Path : Type) where
  dir : Path → Option Nat
  data : Nat → Bytes
  durable : Nat → Bytes
  next : Nat
  known : ∀ path ino, dir path = some ino → ino < next
  single : ∀ path other ino, dir path = some ino → dir other = some ino → path = other

def Disk.empty : Disk Path := ⟨fun _ => none, fun _ => [], fun _ => [], 0, by simp, by simp⟩

/-- What a reader of a name finds. -/
def Disk.content (disk : Disk Path) (path : Path) : Option Bytes := (disk.dir path).map disk.data

/-- What a reader of a name finds after the power was lost. -/
def Disk.durableContent (disk : Disk Path) (path : Path) : Option Bytes := (disk.dir path).map disk.durable

theorem dir_ne {disk : Disk Path} {path other : Path} {ino : Nat} (named : disk.dir path = some ino)
    (differ : other ≠ path) : disk.dir other ≠ some ino := fun same => differ (disk.single other path ino same named)

/-- An open file of one process. -/
structure Fd where
  ino : Nat
  offset : Nat
  isOpen : Bool
  deriving DecidableEq

/-- Writing at an offset of a file; a gap before it reads as zeros. -/
def overwrite (old : Bytes) (offset : Nat) (bytes : Bytes) : Bytes :=
  if bytes = [] then old
  else old.take offset ++ List.replicate (offset - old.length) 0 ++ bytes ++ old.drop (offset + bytes.length)

theorem overwrite_end (old bytes : Bytes) : overwrite old old.length bytes = old ++ bytes := by
  by_cases none : bytes = []
  · simp [overwrite, none]
  · simp [overwrite, none]

/-! ## System calls -/

/-- The system calls of a process that saves a file. -/
inductive Sys (Path : Type) where
  | openTrunc (path : Path)
  | write (bytes : Bytes)
  | fsync
  | close
  | unlink (path : Path)
  | rename (old new : Path)
  deriving DecidableEq

/-- Calls that only add to the open file or sync it. -/
def Sys.Quiet : Sys Path → Prop
  | .write _ => True
  | .fsync => True
  | _ => False

def Sys.IsWrite : Sys Path → Prop
  | .write _ => True
  | _ => False

theorem Sys.IsWrite.quiet {call : Sys Path} (writes : call.IsWrite) : call.Quiet := by
  cases call <;> trivial

/-- The bytes that the calls write. -/
def written (calls : List (Sys Path)) : Bytes :=
  calls.flatMap fun call => match call with
    | .write bytes => bytes
    | _ => []

@[simp] theorem written_nil : written ([] : List (Sys Path)) = [] := rfl

@[simp] theorem written_write (bytes : Bytes) (rest : List (Sys Path)) :
    written (.write bytes :: rest) = bytes ++ written rest := rfl

@[simp] theorem written_fsync (rest : List (Sys Path)) : written (.fsync :: rest) = written rest := rfl

theorem written_append (before after : List (Sys Path)) :
    written (before ++ after) = written before ++ written after := List.flatMap_append

/-- A program that writes a new file under another name, removes the old one and
    renames the new one to it. -/
def saveSteps (tmp loc : Path) (body : List (Sys Path)) : List (Sys Path) :=
  .openTrunc tmp :: (body ++ [.close, .unlink loc, .rename tmp loc])

@[simp] theorem saveSteps_length (tmp loc : Path) (body : List (Sys Path)) :
    (saveSteps tmp loc body).length = body.length + 4 := by simp [saveSteps]

variable [DecidableEq Path]

/-- `open` with `O_CREAT | O_TRUNC`: the file under a name, emptied, or a new one. -/
def Disk.openTrunc (disk : Disk Path) (path : Path) : Disk Path × Nat :=
  match held : disk.dir path with
  | some ino => ({ disk with data := Function.update disk.data ino [] }, ino)
  | none =>
    ({ dir := Function.update disk.dir path (some disk.next)
       data := Function.update disk.data disk.next []
       durable := Function.update disk.durable disk.next []
       next := disk.next + 1
       known := by
         intro other ino named
         by_cases same : other = path
         · subst same
           simp only [Function.update_self, Option.some.injEq] at named
           omega
         · rw [Function.update_of_ne same] at named
           exact Nat.lt_succ_of_lt (disk.known other ino named)
       single := by
         intro left right ino atLeft atRight
         by_cases sameLeft : left = path
         · by_cases sameRight : right = path
           · rw [sameLeft, sameRight]
           · rw [sameLeft, Function.update_self] at atLeft
             rw [Function.update_of_ne sameRight] at atRight
             cases atLeft
             exact absurd (disk.known _ _ atRight) (Nat.lt_irrefl _)
         · rw [Function.update_of_ne sameLeft] at atLeft
           by_cases sameRight : right = path
           · rw [sameRight, Function.update_self] at atRight
             cases atRight
             exact absurd (disk.known _ _ atLeft) (Nat.lt_irrefl _)
           · rw [Function.update_of_ne sameRight] at atRight
             exact disk.single left right ino atLeft atRight }, disk.next)

def Disk.writeAt (disk : Disk Path) (ino offset : Nat) (bytes : Bytes) : Disk Path :=
  { disk with data := Function.update disk.data ino (overwrite (disk.data ino) offset bytes) }

def Disk.sync (disk : Disk Path) (ino : Nat) : Disk Path :=
  { disk with durable := Function.update disk.durable ino (disk.data ino) }

def Disk.unlink (disk : Disk Path) (path : Path) : Disk Path :=
  { disk with
    dir := Function.update disk.dir path none
    known := by
      intro other ino named
      by_cases same : other = path
      · simp [same] at named
      · rw [Function.update_of_ne same] at named
        exact disk.known other ino named
    single := by
      intro left right ino atLeft atRight
      by_cases sameLeft : left = path
      · simp [sameLeft] at atLeft
      · by_cases sameRight : right = path
        · simp [sameRight] at atRight
        · rw [Function.update_of_ne sameLeft] at atLeft
          rw [Function.update_of_ne sameRight] at atRight
          exact disk.single left right ino atLeft atRight }

/-- The directory after `rename`: unchanged when there is nothing to rename. -/
def renamed (dir : Path → Option Nat) (old new : Path) : Path → Option Nat :=
  match dir old with
  | none => dir
  | some ino => if old = new then dir else Function.update (Function.update dir new (some ino)) old none

theorem renamed_apply {dir : Path → Option Nat} {old new : Path} {ino : Nat} (held : dir old = some ino)
    (differ : old ≠ new) (path : Path) : renamed dir old new path =
      if path = new then some ino else if path = old then none else dir path := by
  simp only [renamed, held, if_neg differ]
  by_cases atOld : path = old
  · subst atOld
    simp [differ]
  · by_cases atNew : path = new
    · subst atNew
      simp [Ne.symm differ]
    · simp [atOld, atNew]

theorem renamed_of_none {dir : Path → Option Nat} {old : Path} (absent : dir old = none) (new : Path) :
    renamed dir old new = dir := by simp only [renamed, absent]

theorem renamed_eq_some {dir : Path → Option Nat} {old new path : Path} {ino : Nat}
    (named : renamed dir old new path = some ino) : dir path = some ino ∨ (path = new ∧ dir old = some ino) := by
  cases held : dir old with
  | none => exact .inl (by simpa [renamed, held] using named)
  | some found =>
    by_cases same : old = new
    · simp only [renamed, held, if_pos same] at named
      exact .inl named
    · rw [renamed_apply held same] at named
      split at named
      · rename_i atNew
        exact .inr ⟨atNew, named⟩
      · split at named
        · cases named
        · exact .inl named

def Disk.rename (disk : Disk Path) (old new : Path) : Disk Path :=
  { disk with
    dir := renamed disk.dir old new
    known := by
      intro path ino named
      rcases renamed_eq_some named with before | ⟨_, before⟩
      · exact disk.known path ino before
      · exact disk.known old ino before
    single := by
      intro left right ino atLeft atRight
      cases held : disk.dir old with
      | none =>
        simp only [renamed, held] at atLeft atRight
        exact disk.single left right ino atLeft atRight
      | some found =>
        by_cases same : old = new
        · simp only [renamed, held, if_pos same] at atLeft atRight
          exact disk.single left right ino atLeft atRight
        · rw [renamed_apply held same] at atLeft atRight
          -- The new name is the only one for the renamed file, since the old one is gone.
          have moved : ∀ path, path ≠ old → disk.dir path ≠ some found := fun path other named =>
            other (disk.single path old found named held)
          split at atLeft <;> split at atRight
          · simp_all
          · split at atRight
            · cases atRight
            · cases atLeft
              exact absurd atRight (moved right (by assumption))
          · split at atLeft
            · cases atLeft
            · cases atRight
              exact absurd atLeft (moved left (by assumption))
          · split at atLeft
            · cases atLeft
            · split at atRight
              · cases atRight
              · exact disk.single left right ino atLeft atRight }

/-- What a call does to the disk and to the file its process has open. -/
def Sys.exec (call : Sys Path) (disk : Disk Path) (fd : Option Fd) : Disk Path × Option Fd :=
  match call, fd with
  | .openTrunc path, _ => ((disk.openTrunc path).1, some ⟨(disk.openTrunc path).2, 0, true⟩)
  | .write bytes, some ⟨ino, offset, true⟩ => (disk.writeAt ino offset bytes, some ⟨ino, offset + bytes.length, true⟩)
  | .fsync, some ⟨ino, offset, true⟩ => (disk.sync ino, some ⟨ino, offset, true⟩)
  | .close, some ⟨ino, offset, _⟩ => (disk, some ⟨ino, offset, false⟩)
  | .unlink path, _ => (disk.unlink path, fd)
  | .rename old new, _ => (disk.rename old new, fd)
  | _, _ => (disk, fd)

/-- The calls of one process, nothing else running. -/
def execAll (calls : List (Sys Path)) (start : Disk Path × Option Fd) : Disk Path × Option Fd :=
  calls.foldl (fun st call => call.exec st.1 st.2) start

@[simp] theorem execAll_nil (start : Disk Path × Option Fd) : execAll [] start = start := rfl

@[simp] theorem execAll_cons (call : Sys Path) (rest : List (Sys Path)) (start : Disk Path × Option Fd) :
    execAll (call :: rest) start = execAll rest (call.exec start.1 start.2) := rfl

theorem execAll_append (before after : List (Sys Path)) (start : Disk Path × Option Fd) :
    execAll (before ++ after) start = execAll after (execAll before start) := List.foldl_append

/-! ## What readers find after a call -/

/-- Opening a name empties it, gives it a file of its own, and changes no other. -/
theorem openTrunc_spec (disk : Disk Path) (path : Path) :
    (disk.openTrunc path).1.dir path = some (disk.openTrunc path).2 ∧
      (disk.openTrunc path).1.data (disk.openTrunc path).2 = [] ∧
      (∀ other ≠ path, (disk.openTrunc path).1.dir other = disk.dir other) ∧
      (∀ ino ≠ (disk.openTrunc path).2, (disk.openTrunc path).1.data ino = disk.data ino) := by
  unfold Disk.openTrunc
  split
  · rename_i ino held
    refine ⟨held, by simp, fun _ _ => rfl, ?_⟩
    intro other differ
    simp [differ]
  · refine ⟨by simp, by simp, ?_, ?_⟩
    · intro other differ
      simp [differ]
    · intro other differ
      simp [differ]

/-- A name that leads to a file keeps it when it is opened. -/
theorem openTrunc_of_some {disk : Disk Path} {path : Path} {ino : Nat} (held : disk.dir path = some ino) :
    (disk.openTrunc path).2 = ino ∧ (disk.openTrunc path).1.dir = disk.dir := by
  unfold Disk.openTrunc
  split
  · rename_i found same
    rw [held, Option.some.injEq] at same
    exact ⟨same.symm, rfl⟩
  · rename_i absent
    rw [held] at absent
    cases absent

theorem content_unlink (disk : Disk Path) (path other : Path) :
    (disk.unlink path).content other = if other = path then none else disk.content other := by
  by_cases same : other = path
  · simp [Disk.content, Disk.unlink, same]
  · simp [Disk.content, Disk.unlink, same]

theorem content_rename {disk : Disk Path} {old new : Path} {ino : Nat} (held : disk.dir old = some ino)
    (differ : old ≠ new) (path : Path) : (disk.rename old new).content path =
      if path = new then disk.content old else if path = old then none else disk.content path := by
  simp only [Disk.content, Disk.rename, renamed_apply held differ, held]
  split
  · rfl
  · split <;> rfl

/-! ## Writing a file from its beginning -/

/-- At the end of its file, a process adds what it writes and changes nothing else. -/
theorem execAll_quiet {calls : List (Sys Path)} (quiet : ∀ call ∈ calls, call.Quiet) (disk : Disk Path) (ino : Nat) :
    ∃ after, execAll calls (disk, some ⟨ino, (disk.data ino).length, true⟩) =
        (after, some ⟨ino, (after.data ino).length, true⟩) ∧
      after.dir = disk.dir ∧ after.data = Function.update disk.data ino (disk.data ino ++ written calls) := by
  induction calls generalizing disk with
  | nil => exact ⟨disk, rfl, rfl, by simp⟩
  | cons call rest ih =>
    have later : ∀ call ∈ rest, call.Quiet := fun call member => quiet call (List.mem_cons_of_mem _ member)
    cases call with
    | write bytes =>
      obtain ⟨after, run, dir, data⟩ := ih later (disk.writeAt ino (disk.data ino).length bytes)
      have grown : (disk.writeAt ino (disk.data ino).length bytes).data ino = disk.data ino ++ bytes := by
        simp [Disk.writeAt, overwrite_end]
      rw [grown, List.length_append] at run
      refine ⟨after, run, dir, ?_⟩
      rw [data, grown]
      simp [Disk.writeAt, written]
    | fsync =>
      obtain ⟨after, run, dir, data⟩ := ih later (disk.sync ino)
      exact ⟨after, run, dir, data⟩
    | openTrunc path => exact (quiet _ List.mem_cons_self).elim
    | close => exact (quiet _ List.mem_cons_self).elim
    | unlink path => exact (quiet _ List.mem_cons_self).elim
    | rename old new => exact (quiet _ List.mem_cons_self).elim

/-- A name opened and written: it reads as what was written, and every other name
    as before. -/
theorem execAll_writing {calls : List (Sys Path)} (quiet : ∀ call ∈ calls, call.Quiet) (disk : Disk Path)
    (path : Path) (fd : Option Fd) :
    ∃ after ino, execAll (.openTrunc path :: calls) (disk, fd) = (after, some ⟨ino, (written calls).length, true⟩) ∧
      after.dir path = some ino ∧ after.data ino = written calls ∧
      ∀ other ≠ path, after.content other = disk.content other := by
  obtain ⟨named, empty, others, kept⟩ := openTrunc_spec disk path
  obtain ⟨after, run, dir, data⟩ := execAll_quiet quiet (disk.openTrunc path).1 (disk.openTrunc path).2
  have whole : after.data (disk.openTrunc path).2 = written calls := by rw [data, empty]; simp
  rw [empty, List.length_nil, whole] at run
  refine ⟨after, _, run, by rw [dir, named], whole, ?_⟩
  intro other differ
  simp only [Disk.content, dir, others other differ]
  cases held : disk.dir other with
  | none => rfl
  | some ino =>
    have apart : ino ≠ (disk.openTrunc path).2 := fun same =>
      dir_ne named differ (by rw [others other differ, held, same])
    simp [data, apart, kept ino apart]

/-- The file is closed, the target unlinked and the new file renamed to it. -/
theorem execAll_publish {disk : Disk Path} (fd : Option Fd) {old new : Path} {ino : Nat}
    (held : disk.dir old = some ino) (differ : old ≠ new) :
    ∃ fd', execAll [.close, .unlink new, .rename old new] (disk, fd) = ((disk.unlink new).rename old new, fd') ∧
      ∀ path, ((disk.unlink new).rename old new).content path =
        if path = new then some (disk.data ino) else if path = old then none else disk.content path := by
  have still : (disk.unlink new).dir old = some ino := by simp [Disk.unlink, differ, held]
  refine ⟨(Sys.close.exec disk fd).2, ?_, ?_⟩
  · cases fd <;> rfl
  · intro path
    rw [content_rename still differ, content_unlink, content_unlink, if_neg differ]
    by_cases atNew : path = new
    · simp [atNew, Disk.content, held]
    · simp [atNew]

/-! ## Replacing a file -/

/-- What readers of a name find when it is unlinked, or not, and another file is
    renamed to it, or not. -/
theorem content_replace {disk : Disk Path} {tmp loc : Path} {ino : Nat} (named : disk.dir tmp = some ino)
    (differ : tmp ≠ loc) (fd : Option Fd) (unlinks renames : Bool) :
    (execAll ((if unlinks then [.unlink loc] else []) ++ (if renames then [.rename tmp loc] else []))
        (disk, fd)).1.content loc =
      if renames then disk.content tmp else if unlinks then none else disk.content loc := by
  have still : (disk.unlink loc).dir tmp = some ino := by simp [Disk.unlink, differ, named]
  cases unlinks with
  | false =>
    cases renames with
    | false => rfl
    | true => exact (content_rename named differ loc).trans (if_pos rfl)
  | true =>
    cases renames with
    | false => exact (content_unlink disk loc loc).trans (if_pos rfl)
    | true =>
      refine ((content_rename still differ loc).trans (if_pos rfl)).trans ?_
      exact (content_unlink disk loc tmp).trans (if_neg differ)

/-- What readers of the target find after the first calls of the program. -/
theorem content_saveSteps {tmp loc : Path} (differ : tmp ≠ loc) {body : List (Sys Path)}
    (quiet : ∀ call ∈ body, call.Quiet) (disk : Disk Path) (fd : Option Fd) (count : Nat) :
    (execAll ((saveSteps tmp loc body).take count) (disk, fd)).1.content loc =
      if count < body.length + 3 then disk.content loc
      else if count = body.length + 3 then none else some (written body) := by
  rcases Nat.lt_or_ge count (body.length + 2) with early | late
  · -- The target keeps its name and its file while the new file is written.
    rw [if_pos (by omega)]
    cases count with
    | zero => rfl
    | succ count =>
      have quietTaken : ∀ call ∈ body.take count, call.Quiet := fun call member => quiet call (List.mem_of_mem_take member)
      obtain ⟨middle, ino, executed, _, _, others⟩ := execAll_writing quietTaken disk tmp fd
      rw [saveSteps, List.take_succ_cons, List.take_append_of_le_length (by omega), executed]
      exact others loc (Ne.symm differ)
  · obtain ⟨rest, rfl⟩ : ∃ rest, count = (.openTrunc tmp :: body).length + rest :=
      ⟨count - (body.length + 1), by simp only [List.length_cons]; omega⟩
    obtain ⟨middle, ino, executed, named, data, others⟩ := execAll_writing quiet disk tmp fd
    have kept := others loc (Ne.symm differ)
    have first : saveSteps tmp loc body = (.openTrunc tmp :: body) ++ [.close, .unlink loc, .rename tmp loc] := rfl
    rw [first, List.take_length_add_append, execAll_append, executed]
    simp only [List.length_cons] at late ⊢
    match rest with
    | 0 => omega
    | 1 =>
      rw [if_pos (by omega)]
      exact kept
    | 2 =>
      rw [if_neg (by omega), if_pos (by omega)]
      exact (content_unlink middle loc loc).trans (if_pos rfl)
    | rest + 3 =>
      rw [if_neg (by omega), if_neg (by omega), List.take_of_length_le (by simp)]
      obtain ⟨fd', published, contents⟩ := execAll_publish (some ⟨ino, (written body).length, true⟩) named differ
      rw [published, contents, if_pos rfl, data]

/-- Writing alone makes nothing durable. -/
theorem execAll_writes_durable {calls : List (Sys Path)} (writes : ∀ call ∈ calls, call.IsWrite)
    (start : Disk Path × Option Fd) : (execAll calls start).1.durable = start.1.durable := by
  induction calls generalizing start with
  | nil => rfl
  | cons call rest ih =>
    rw [execAll_cons, ih fun call member => writes call (List.mem_cons_of_mem _ member)]
    cases call with
    | write bytes =>
      obtain ⟨disk, fd⟩ := start
      match fd with
      | none => rfl
      | some ⟨ino, offset, true⟩ => rfl
      | some ⟨ino, offset, false⟩ => rfl
    | _ => exact (writes _ List.mem_cons_self).elim

/-- A name opened, written, synced, written on and closed: what was written before
    the sync is durable, and nothing else. -/
theorem execAll_synced {printing last : List (Sys Path)} (printingWrites : ∀ call ∈ printing, call.IsWrite)
    (lastWrites : ∀ call ∈ last, call.IsWrite) (disk : Disk Path) (path : Path) (fd : Option Fd) :
    ∃ after ino fd', execAll (.openTrunc path :: printing ++ (.fsync :: (last ++ [.close]))) (disk, fd) = (after, fd') ∧
      after.dir path = some ino ∧ after.durable ino = written printing := by
  obtain ⟨middle, ino, executed, named, data, _⟩ :=
    execAll_writing (fun call member => (printingWrites call member).quiet) disk path fd
  have synced : (middle.sync ino).durable ino = written printing := by simp [Disk.sync, data]
  have offset : (written printing).length = ((middle.sync ino).data ino).length := by rw [← data]; rfl
  obtain ⟨after, flushed, dir, _⟩ := execAll_quiet (fun call member => (lastWrites call member).quiet)
    (middle.sync ino) ino
  have durable : after.durable = (middle.sync ino).durable := by
    have kept := execAll_writes_durable lastWrites
      (middle.sync ino, some ⟨ino, ((middle.sync ino).data ino).length, true⟩)
    rwa [flushed] at kept
  refine ⟨after, ino, some ⟨ino, (after.data ino).length, false⟩, ?_, by rw [dir]; exact named, by rw [durable, synced]⟩
  rw [execAll_append, executed, execAll_cons]
  simp only [Sys.exec]
  rw [offset, execAll_append, flushed]
  show execAll [.close] (after, some ⟨ino, (after.data ino).length, true⟩) = _
  rfl

/-- Where the target is replaced, the new file brings along what was durable of it. -/
theorem durableContent_publish {disk : Disk Path} {tmp loc : Path} {ino : Nat} (named : disk.dir tmp = some ino)
    (differ : tmp ≠ loc) :
    ((disk.unlink loc).rename tmp loc).durableContent loc = disk.durableContent tmp := by
  have still : (disk.unlink loc).dir tmp = some ino := by simp [Disk.unlink, differ, named]
  have moved := renamed_apply still differ loc
  rw [if_pos rfl] at moved
  simp only [Disk.durableContent, Disk.rename, moved, named]
  rfl

end Mcs.Files
