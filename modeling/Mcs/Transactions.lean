import Mcs.Failures

/-!
Sessions as transactions. The process may be killed while it saves, and any call of
the save may fail (`content_killed`). The file is the new one where the save got to its
rename, and the old one otherwise, exactly when nothing was lost in the first case, and
the old file was not unlinked in the second (`killed_iff`). As long as that is so, a
session whose save got to its rename is there for all later sessions, and any other is
as if it had written nothing (`transactions_refine`).
-/
namespace Mcs.Transactions
open Mcs.Dictionary Mcs.Strings Mcs.Sectioned Mcs.KeyfileModel Mcs.Reading Mcs.Format Mcs.RoundTrip
open Mcs.Files Mcs.Streams Mcs.Histories Mcs.Backend Mcs.Sessions Mcs.Crashes Mcs.Failures

variable {T : Type → Type} [Patricia CString T]

/-! ## One save -/

def isUnlink : Sys CString → Bool
  | .unlink _ => true
  | _ => false

def isRename : Sys CString → Bool
  | .rename _ _ => true
  | _ => false

/-- The system calls that are made of a save, where the process is killed after so many. -/
def performed (self : Handle T) (world : World) (count : Nat) : List (Sys CString) := (saving self world).take count

def unlinked (self : Handle T) (world : World) (count : Nat) : Bool := (performed self world count).any isUnlink

def published (self : Handle T) (world : World) (count : Nat) : Bool := (performed self world count).any isRename

/-- A save that gets to its rename has lost nothing, and one that does not has not
    unlinked the old file. -/
def Atomic (self : Handle T) (world : World) (disk : Disk CString) (count : Nat) : Prop :=
  if published self world count then Lossless self world
  else unlinked self world count = false ∨ disk.content self.loc = none

/-- Calls on an open file, which change no name. -/
def OnFile (call : Sys CString) : Prop := call.Quiet ∨ call = .close

theorem onFile_others {calls : List (Sys CString)} (onFile : ∀ call ∈ calls, OnFile call) (tmp : CString) :
    (Sys.openTrunc tmp :: calls).any isUnlink = false ∧ (Sys.openTrunc tmp :: calls).any isRename = false := by
  simp only [List.any_cons, isUnlink, isRename, Bool.false_or, List.any_eq_false]
  constructor <;>
  · intro call member
    rcases onFile call member with still | rfl
    · cases call with
      | write bytes => exact Bool.false_ne_true
      | fsync => exact Bool.false_ne_true
      | openTrunc path => exact still.elim
      | close => exact still.elim
      | unlink path => exact still.elim
      | rename old new => exact still.elim
    · exact Bool.false_ne_true

/-- The calls that close the file and replace the old one, cut short or not: each of
    the last two is made or not. -/
theorem take_closing (tmp loc : CString) (unlinks renames : Bool) (count : Nat) :
    ∃ (closing : List (Sys CString)) (unlink rename : Bool), (Sys.close :: ((if unlinks then [Sys.unlink loc] else []) ++
        (if renames then [Sys.rename tmp loc] else []))).take count =
      closing ++ ((if unlink then [Sys.unlink loc] else []) ++ (if rename then [Sys.rename tmp loc] else [])) ∧
      (closing = [] ∨ closing = [Sys.close]) := by
  match count with
  | 0 => exact ⟨[], false, false, rfl, .inl rfl⟩
  | 1 => exact ⟨[.close], false, false, by cases unlinks <;> cases renames <;> rfl, .inr rfl⟩
  | 2 =>
    cases unlinks with
    | false => exact ⟨[.close], false, renames, by cases renames <;> rfl, .inr rfl⟩
    | true => exact ⟨[.close], true, false, by cases renames <;> rfl, .inr rfl⟩
  | count + 3 =>
    refine ⟨[.close], unlinks, renames, List.take_of_length_le ?_, .inr rfl⟩
    cases unlinks <;> cases renames <;> simp

/-- What lies at the path after a save, for every way its calls can end, where the
    process is killed after any of them. -/
theorem content_killed (self : Handle T) (world : World) (differ : tfile self.loc world.buffer ≠ self.loc)
    (disk : Disk CString) (count : Nat) : (killed self world disk count).content self.loc =
      if published self world count then some (reaching self world)
      else if unlinked self world count then none else disk.content self.loc := by
  unfold killed published unlinked performed
  cases opened : (world.io 0).ok with
  | false =>
    rw [saving_closed self opened, List.take_nil]
    rfl
  | true =>
    obtain ⟨body, quiet, bytes, run⟩ := saving_body self opened
    rw [run]
    rcases Nat.lt_or_ge count (body.length + 1) with early | late
    · -- The target keeps its file while the new one is written.
      rw [List.take_append_of_le_length (Nat.le_of_lt early)]
      cases count with
      | zero => rfl
      | succ count =>
        have taken : ∀ call ∈ body.take count, call.Quiet := fun call member => quiet call (List.mem_of_mem_take member)
        obtain ⟨noUnlink, noRename⟩ :=
          onFile_others (fun call member => .inl (taken call member)) (tfile self.loc world.buffer)
        obtain ⟨middle, ino, executed, _, _, others⟩ :=
          execAll_writing taken disk (tfile self.loc world.buffer) none
        rw [List.take_succ_cons, executed, noUnlink, noRename]
        exact others self.loc (Ne.symm differ)
    · obtain ⟨rest, rfl⟩ : ∃ rest, count = (Sys.openTrunc (tfile self.loc world.buffer) :: body).length + rest :=
        ⟨count - (body.length + 1), by simp only [List.length_cons]; omega⟩
      obtain ⟨middle, ino, executed, named, data, others⟩ :=
        execAll_writing quiet disk (tfile self.loc world.buffer) none
      obtain ⟨noUnlink, noRename⟩ :=
        onFile_others (fun call member => .inl (quiet call member)) (tfile self.loc world.buffer)
      obtain ⟨closing, unlinks, renames, cut, closes⟩ :=
        take_closing (tfile self.loc world.buffer) self.loc (world.unlink self).ok (world.rename self).ok rest
      have file : middle.content (tfile self.loc world.buffer) = some (reaching self world) := by
        rw [Disk.content, named, Option.map_some, data, bytes]
      have closed : ∃ fd, execAll closing (middle, some ⟨ino, (written body).length, true⟩) = (middle, fd) ∧
          closing.any isUnlink = false ∧ closing.any isRename = false := by
        rcases closes with rfl | rfl <;> exact ⟨_, rfl, rfl, rfl⟩
      obtain ⟨fd, shut, stillUnlink, stillRename⟩ := closed
      rw [List.take_length_add_append, cut, execAll_append, executed, execAll_append, shut,
        content_replace named differ, file, others self.loc (Ne.symm differ)]
      simp only [List.any_append, noUnlink, noRename, stillUnlink, stillRename, Bool.false_or]
      cases unlinks <;> cases renames <;> rfl

/-- The path holds the whole new file where the save got to its rename, and the old
    one otherwise, exactly when the save is atomic. -/
theorem killed_iff (self : Handle T) (world : World) (room : Room self.loc) (disk : Disk CString) (count : Nat) :
    (killed self world disk count).content self.loc =
        (if published self world count then some (serialise self.kf) else disk.content self.loc) ↔
      Atomic self world disk count := by
  rw [content_killed self world (room.tfile_ne _), Atomic]
  cases published self world count with
  | true =>
    simp only [↓reduceIte, Option.some.injEq]
    exact reaching_eq_iff self world
  | false =>
    cases unlinked self world count with
    | true => simp only [Bool.false_eq_true, ↓reduceIte, Bool.true_eq_false, false_or]; exact eq_comm
    | false => simp

/-! ## Runs -/

/-- A session, the world in which it is saved, and the number of system calls after
    which its process is killed; a save that makes fewer ends by itself. -/
structure Transaction extends Session where
  count : Nat

/-- The disk after a session, the replies in it, and whether its save got to its rename. -/
def Transaction.run (T : Type → Type) [Patricia CString T] (env : Environment) (domain : CString)
    (transaction : Transaction) (disk : Disk CString) : Option (Disk CString × List Reply × Bool) :=
  (mcsKeyfileNew env domain disk).map fun (self : Handle T) =>
    (killed (performAll self transaction.ops).1 transaction.world disk transaction.count,
      (performAll self transaction.ops).2,
      published (performAll self transaction.ops).1 transaction.world transaction.count)

def runTransactions (T : Type → Type) [Patricia CString T] (env : Environment) (domain : CString) :
    List Transaction → Disk CString → Option (Disk CString × List (List Reply × Bool))
  | [], disk => some (disk, [])
  | transaction :: rest, disk =>
    (transaction.run T env domain disk).bind fun done =>
      (runTransactions T env domain rest done.1).map fun last => (last.1, done.2 :: last.2)

/-- Every save is atomic where it happens, and the format can carry what is published. -/
def Sound (T : Type → Type) [Patricia CString T] (env : Environment) (domain : CString) :
    List Transaction → Disk CString → Prop
  | [], _ => True
  | transaction :: rest, disk => ∀ self : Handle T, mcsKeyfileNew env domain disk = some self →
      Atomic (performAll self transaction.ops).1 transaction.world disk transaction.count ∧
        (published (performAll self transaction.ops).1 transaction.world transaction.count →
          ∀ op ∈ transaction.ops, op.Ok) ∧
        Sound T env domain rest (killed (performAll self transaction.ops).1 transaction.world disk transaction.count)

/-! ## Transactions -/

/-- What has been done for the sessions to come: what the published sessions did. -/
def committed (past : List Op) (ops : List Op) (published : Bool) : List Op := if published then past ++ ops else past

/-- What has been done after some sessions, of which some were published. -/
def committedAll (past : List Op) : List Transaction → List Bool → List Op
  | transaction :: rest, published :: others => committedAll (committed past transaction.ops published) rest others
  | _, _ => past

/-- The replies that are due in sessions of which some are published: in each, those
    due after what was published before it. -/
def serial (past : List Op) : List Transaction → List Bool → List (List Reply)
  | transaction :: rest, published :: others =>
    answers past transaction.ops :: serial (committed past transaction.ops published) rest others
  | _, _ => []

/-- The setting of an entry, after what has been done. -/
def setting (past : List Op) (sect key : CString) : Option CString := (latest (sect, key) (writes past)).join

theorem get_setting {past : List Op} {store : Store CString CString CString}
    (held : entries store = replay (fun _ => none) (writes past)) (sect key : CString) :
    store.get sect key = setting past sect key := by
  have same := congrFun held (sect, key)
  rw [replay_eq] at same
  refine same.trans ?_
  rw [setting]
  cases latest (sect, key) (writes past) <;> rfl

/-- The replies do not depend on what the format can carry. -/
theorem performAll_replies {past : List Op} (ops : List Op) {self : Handle T}
    (held : entries (view self.kf) = replay (fun _ => none) (writes past)) :
    (performAll self ops).2 = answers past ops := by
  induction ops generalizing past self with
  | nil => rfl
  | cons op rest ih =>
    have next : entries (view (op.perform self).1.kf) = replay (fun _ => none) (writes (past ++ [op])) := by
      rw [entries_perform, held, writes_append, replay_append]
    rw [performAll, answers, ih next, perform_reply op held]

variable {env : Environment} {domain loc : CString}

theorem performAll_representable {ops : List Op} (ok : ∀ op ∈ ops, op.Ok) {self : Handle T}
    (held : Representable (view self.kf)) : Representable (view (performAll self ops).1.kf) := by
  refine performAll_invariant (fun op member store before => ?_) held
  cases write : op.write with
  | none => exact before
  | some change =>
    obtain ⟨⟨sect, key⟩, left⟩ := change
    cases left with
    | none => exact unset_representable before sect key
    | some value =>
      obtain ⟨name, entry⟩ := ok op member sect key value write
      exact set_representable before name entry

/-- What the file loads as after an atomic save. -/
theorem killed_load {ops : List Op} {self : Handle T} (room : Room self.loc) {world : World} {disk : Disk CString}
    {count : Nat} (opened : view self.kf = loadFile (disk.content self.loc)) (held : Representable (view self.kf))
    (atomic : Atomic (performAll self ops).1 world disk count)
    (ok : published (performAll self ops).1 world count → ∀ op ∈ ops, op.Ok) :
    loadFile ((killed (performAll self ops).1 world disk count).content self.loc) =
      if published (performAll self ops).1 world count then view (performAll self ops).1.kf else view self.kf := by
  have same := performAll_loc ops self
  have content := (killed_iff _ world (by rw [same]; exact room) disk count).mpr atomic
  rw [same] at content
  rw [content]
  cases outcome : published (performAll self ops).1 world count with
  | false => exact opened.symm
  | true => exact loadFile_serialise (performAll_representable (ok outcome) held)

/-- After an atomic save the file holds what was published, whether or not this
    session was. -/
theorem killed_current {past ops : List Op} {self : Handle T} (room : Room self.loc) {world : World}
    {disk : Disk CString} {count : Nat} (current : Current past (view self.kf))
    (opened : view self.kf = loadFile (disk.content self.loc))
    (atomic : Atomic (performAll self ops).1 world disk count)
    (ok : published (performAll self ops).1 world count → ∀ op ∈ ops, op.Ok) :
    Current (committed past ops (published (performAll self ops).1 world count))
      (loadFile ((killed (performAll self ops).1 world disk count).content self.loc)) := by
  rw [killed_load room opened current.representable atomic ok, committed]
  cases outcome : published (performAll self ops).1 world count with
  | false => exact current
  | true =>
    refine ⟨?_, performAll_representable (ok outcome) current.representable⟩
    simp only [↓reduceIte]
    rw [entries_performAll, current.entries, writes_append, replay_append]

theorem runTransactions_total_correct (path : configPath env domain = some loc) (room : Room loc) {past : List Op}
    {transactions : List Transaction} {disk : Disk CString} (sound : Sound T env domain transactions disk)
    (current : Current past (loadFile (disk.content loc))) :
    ∃ after done, runTransactions T env domain transactions disk = some (after, done) ∧
      done.map Prod.fst = serial past transactions (done.map Prod.snd) ∧
      Current (committedAll past transactions (done.map Prod.snd)) (loadFile (after.content loc)) := by
  induction transactions generalizing past disk with
  | nil => exact ⟨disk, [], rfl, rfl, current⟩
  | cons transaction rest ih =>
    obtain ⟨self, opened, rfl, loaded⟩ := mcsKeyfileNew_total_correct (T := T) path disk
    obtain ⟨atomic, ok, soundRest⟩ := sound self opened
    rw [← loaded] at current
    have replies := performAll_replies transaction.ops current.entries
    obtain ⟨after, done, executed, due, last⟩ := ih soundRest (killed_current room current loaded atomic ok)
    refine ⟨after, (answers past transaction.ops,
      published (performAll self transaction.ops).1 transaction.world transaction.count) :: done, ?_, ?_, last⟩
    · rw [runTransactions, Transaction.run, opened, Option.map_some, Option.bind_some, executed, Option.map_some, replies]
    · rw [List.map_cons, due]
      rfl

/-- Over any number of sessions, with any calls of their saves failing and their
    processes killed anywhere in them, as long as each save is atomic: the replies are
    those of sessions that were published whole or have never been, one after the other,
    and that is what the file holds in the end. A save is atomic exactly where the file
    has all that was published, and what it had before where nothing was. -/
theorem transactions_refine (path : configPath env domain = some loc) (room : Room loc) (disk : Disk CString)
    (absent : disk.content loc = none) (transactions : List Transaction)
    (sound : Sound T env domain transactions disk) :
    ∃ after done, runTransactions T env domain transactions disk = some (after, done) ∧
      done.map Prod.fst = serial [] transactions (done.map Prod.snd) ∧
      entries (loadFile (after.content loc)) = replay (fun _ => none)
        (writes (committedAll [] transactions (done.map Prod.snd))) ∧
      ∀ (self : Handle T) (world : World) (before : Disk CString) (count : Nat), self.loc = loc →
        ((killed self world before count).content loc =
            (if published self world count then some (serialise self.kf) else before.content loc) ↔
          Atomic self world before count) := by
  have start : Current [] (loadFile (disk.content loc)) := by
    rw [absent]
    exact current_empty
  obtain ⟨after, done, executed, due, last⟩ := runTransactions_total_correct path room sound start
  refine ⟨after, done, executed, due, last.entries, ?_⟩
  rintro self world before count rfl
  exact killed_iff self world room before count

/-- A session that sets an entry, one that sets it again and is killed before it is
    saved, and one that reads it. -/
def threeTransactions : List Transaction :=
  [⟨⟨[.setString nameA nameA nameB], calm 4096⟩, 100⟩, ⟨⟨[.setString nameA nameA nameA], calm 4096⟩, 0⟩,
    ⟨⟨[.getString nameA nameA none], calm 4096⟩, 0⟩]

theorem threeTransactions_sound : Sound (Assoc false CString) directoryA nameB threeTransactions .empty := by
  intro first opened
  refine ⟨?_, ?_, fun second _ => ⟨.inl rfl, ?_, fun third _ => ⟨.inl rfl, ?_, trivial⟩⟩⟩
  · rw [mcsKeyfileNew, configPath_directoryA] at opened
    cases opened
    exact ⟨fun _ _ => rfl, .inl rfl⟩
  · intro _ op member sect key value writes
    rw [List.mem_singleton] at member
    subst member
    cases writes
    exact ⟨sectionOk_nameA, entryOk_nameA_nameB⟩
  · intro never
    cases never
  · intro never
    cases never

/-- The last session reads what the first one set. -/
theorem transactions_refine_three :
    ∃ after done, runTransactions (Assoc false CString) directoryA nameB threeTransactions .empty = some (after, done) ∧
      done.map Prod.fst = serial [] threeTransactions (done.map Prod.snd) ∧
      entries (loadFile (after.content pathAB)) = replay (fun _ => none)
        (writes (committedAll [] threeTransactions (done.map Prod.snd))) := by
  obtain ⟨after, done, executed, due, holds, _⟩ :=
    transactions_refine configPath_directoryA room_pathAB .empty rfl threeTransactions threeTransactions_sound
  exact ⟨after, done, executed, due, holds⟩

end Mcs.Transactions
