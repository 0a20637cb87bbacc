import Mcs.Backend
import Mcs.Histories
import Mcs.RoundTrip

/-!
Sessions on one configuration: a handle is opened, used and destroyed. Over any
number of them, each read finds what the last write to its entry left
(`sessions_refine`), as long as the format can carry what is written. A write
that it cannot carry reports success all the same (`durable_iff`), and a file that
hides a marked key changes when a handle is opened and destroyed (`idle_sessions_iff`).
-/
namespace Mcs.Sessions
open Mcs.Dictionary Mcs.Strings Mcs.Sectioned Mcs.KeyfileModel Mcs.Reading Mcs.Format Mcs.RoundTrip
open Mcs.Files Mcs.Streams Mcs.Histories Mcs.Backend

variable {T : Type → Type} [Patricia CString T]

/-- What a program can do with an open handle. A read carries what the caller's
    `*value` holds before it. -/
inductive Op where
  | getString (sect key : CString) (value : Option CString)
  | setString (sect key value : CString)
  | setInt (sect key : CString) (value : Int32)
  | setBool (sect key : CString) (value : Int32)
  | unsetKey (sect key : CString)

/-- What an operation returns, and what a read leaves in the caller's `*value`. -/
structure Reply where
  response : Response
  value : Option CString
  deriving DecidableEq

/-- The functions `mcs_keyfile_get_string` to `mcs_keyfile_unset_key`. -/
def Op.perform (op : Op) (self : Handle T) : Handle T × Reply :=
  match op with
  | .getString sect key value =>
    (self, ⟨(keyfileGetString self.kf sect key value).1, (keyfileGetString self.kf sect key value).2⟩)
  | .setString sect key value =>
    ({ self with kf := (keyfileSetString self.kf sect key value).1 },
      ⟨(keyfileSetString self.kf sect key value).2, none⟩)
  | .setInt sect key value =>
    ({ self with kf := (keyfileSetInt self.kf sect key value).1 }, ⟨(keyfileSetInt self.kf sect key value).2, none⟩)
  | .setBool sect key value =>
    ({ self with kf := (keyfileSetBool self.kf sect key value).1 }, ⟨(keyfileSetBool self.kf sect key value).2, none⟩)
  | .unsetKey sect key =>
    ({ self with kf := (keyfileUnsetKey self.kf sect key).1 }, ⟨(keyfileUnsetKey self.kf sect key).2, none⟩)

def performAll (self : Handle T) : List Op → Handle T × List Reply
  | [] => (self, [])
  | op :: rest =>
    ((performAll (op.perform self).1 rest).1, (op.perform self).2 :: (performAll (op.perform self).1 rest).2)

/-- The operations of one session, and the world in which it ends. -/
structure Session where
  ops : List Op
  world : World

/-- The disk after a session, and the replies in it. -/
def Session.run (T : Type → Type) [Patricia CString T] (env : Environment) (domain : CString) (session : Session)
    (disk : Disk CString) : Option (Disk CString × List Reply) :=
  (mcsKeyfileNew env domain disk).map fun (self : Handle T) =>
    (saved (performAll self session.ops).1 session.world disk, (performAll self session.ops).2)

def runAll (T : Type → Type) [Patricia CString T] (env : Environment) (domain : CString) :
    List Session → Disk CString → Option (Disk CString × List Reply)
  | [], disk => some (disk, [])
  | session :: rest, disk =>
    (session.run T env domain disk).bind fun done =>
      (runAll T env domain rest done.1).map fun last => (last.1, done.2 ++ last.2)

/-! ## The map that sessions keep -/

/-- The entry that an operation writes, and what it leaves there. -/
def Op.write : Op → Option ((CString × CString) × Option CString)
  | .getString _ _ _ => none
  | .setString sect key value => some ((sect, key), some value)
  | .setInt sect key value => some ((sect, key), some (snprintf 4096 (decimal value.toInt)))
  | .setBool sect key value => some ((sect, key), some (if value ≠ 0 then trueText else falseText))
  | .unsetKey sect key => some ((sect, key), none)

def writes (ops : List Op) : List ((CString × CString) × Option CString) := ops.filterMap Op.write

/-- The reply that is due after some operations. -/
def Op.answer (past : List Op) : Op → Reply
  | .getString sect key value =>
    match (latest (sect, key) (writes past)).join with
    | some held => ⟨.MCS_OK, some held⟩
    | none => ⟨.MCS_FAIL, value⟩
  | _ => ⟨.MCS_OK, none⟩

def answers (past : List Op) : List Op → List Reply
  | [] => []
  | op :: rest => op.answer past :: answers (past ++ [op]) rest

theorem answers_append (past first second : List Op) :
    answers past (first ++ second) = answers past first ++ answers (past ++ first) second := by
  induction first generalizing past with
  | nil => simp [answers]
  | cons op first ih => simp [answers, ih]

/-- The format can carry what the operation writes. -/
def Op.Ok (op : Op) : Prop :=
  ∀ sect key value, op.write = some ((sect, key), some value) → SectionOk sect ∧ EntryOk key value

def entries (store : Store CString CString CString) (pair : CString × CString) : Option CString :=
  store.get pair.1 pair.2

theorem writes_append (before after : List Op) : writes (before ++ after) = writes before ++ writes after :=
  List.filterMap_append

theorem entries_set (store : Store CString CString CString) (sect key value : CString) :
    entries (store.set sect key value) = replay (entries store) [((sect, key), some value)] := by
  funext pair
  rw [entries, Store.get_set, replay_eq, latest_singleton]
  by_cases same : pair = (sect, key)
  · simp [same]
  · rw [if_neg same, if_neg (Ne.symm same)]
    show entries store pair = _
    rfl

theorem entries_unset (store : Store CString CString CString) (sect key : CString) :
    entries (store.unset sect key) = replay (entries store) [((sect, key), none)] := by
  funext pair
  rw [entries, Store.get_unset, replay_eq, latest_singleton]
  by_cases same : pair = (sect, key)
  · simp [same]
  · rw [if_neg same, if_neg (Ne.symm same)]
    show entries store pair = _
    rfl

/-- A store after the write of an operation, if it has one. -/
def afterWrite (store : Store CString CString CString) :
    Option ((CString × CString) × Option CString) → Store CString CString CString
  | none => store
  | some ((sect, key), some value) => store.set sect key value
  | some ((sect, key), none) => store.unset sect key

/-- An operation does to the store what it writes, and nothing else. -/
theorem view_perform (op : Op) (self : Handle T) :
    view (op.perform self).1.kf = afterWrite (view self.kf) op.write := by
  cases op with
  | getString sect key value => rfl
  | setString sect key value => exact view_keyfileSetString ..
  | setInt sect key value => exact view_keyfileSetString ..
  | setBool sect key value =>
    simp only [Op.perform, keyfileSetBool, Op.write]
    split <;> exact view_keyfileSetString ..
  | unsetKey sect key => exact view_keyfileUnsetKey ..

/-- What an operation does to the entries, and to nothing but the entry it writes. -/
theorem entries_perform (op : Op) (self : Handle T) :
    entries (view (op.perform self).1.kf) = replay (entries (view self.kf)) (writes [op]) := by
  rw [view_perform]
  cases write : op.write with
  | none =>
    have silent : writes [op] = [] := by simp [writes, write]
    rw [silent]
    rfl
  | some change =>
    have one : writes [op] = [change] := by simp [writes, write]
    obtain ⟨⟨sect, key⟩, left⟩ := change
    rw [one]
    cases left with
    | none => exact entries_unset ..
    | some value => exact entries_set ..

theorem perform_loc (op : Op) (self : Handle T) : (op.perform self).1.loc = self.loc := by
  cases op <;> rfl

theorem perform_representable {op : Op} (ok : op.Ok) {self : Handle T} (held : Representable (view self.kf)) :
    Representable (view (op.perform self).1.kf) := by
  rw [view_perform]
  cases write : op.write with
  | none => exact held
  | some change =>
    obtain ⟨⟨sect, key⟩, left⟩ := change
    cases left with
    | none => exact unset_representable held sect key
    | some value => exact set_representable held (ok sect key value write).1 (ok sect key value write).2

/-- Any number of operations leave each entry as its last write says. -/
theorem entries_performAll (ops : List Op) (self : Handle T) :
    entries (view (performAll self ops).1.kf) = replay (entries (view self.kf)) (writes ops) := by
  induction ops generalizing self with
  | nil => rfl
  | cons op rest ih =>
    have split : writes (op :: rest) = writes [op] ++ writes rest := writes_append [op] rest
    rw [performAll, ih, entries_perform, split, replay_append]

/-- An entry that no operation writes stays as it is. -/
theorem performAll_get {ops : List Op} {sect key : CString} (untouched : ∀ left, ((sect, key), left) ∉ writes ops)
    (self : Handle T) : (view (performAll self ops).1.kf).get sect key = (view self.kf).get sect key := by
  have same := congrFun (entries_performAll ops self) (sect, key)
  rw [replay_eq, latest_eq_none untouched] at same
  exact same

theorem performAll_loc (ops : List Op) (self : Handle T) : (performAll self ops).1.loc = self.loc := by
  induction ops generalizing self with
  | nil => rfl
  | cons op rest ih => exact (ih _).trans (perform_loc op self)

/-- What every write of some operations keeps, the operations keep. -/
theorem performAll_invariant {Holds : Store CString CString CString → Prop} {ops : List Op}
    (keeps : ∀ op ∈ ops, ∀ store, Holds store → Holds (afterWrite store op.write)) {self : Handle T}
    (first : Holds (view self.kf)) : Holds (view (performAll self ops).1.kf) := by
  induction ops generalizing self with
  | nil => exact first
  | cons op rest ih =>
    apply ih fun op member => keeps op (List.mem_cons_of_mem _ member)
    rw [view_perform]
    exact keeps op List.mem_cons_self _ first

/-- The reply is the one due, where the handle holds what the past wrote. -/
theorem perform_reply {past : List Op} (op : Op) {self : Handle T}
    (held : entries (view self.kf) = replay (fun _ => none) (writes past)) :
    (op.perform self).2 = op.answer past := by
  cases op with
  | getString sect key value =>
    have found : (view self.kf).get sect key = (latest (sect, key) (writes past)).join := by
      have same := congrFun held (sect, key)
      rw [replay_eq] at same
      refine same.trans ?_
      cases latest (sect, key) (writes past) <;> rfl
    simp only [Op.perform, Op.answer, keyfileGetString_eq, found]
    cases (latest (sect, key) (writes past)).join <;> rfl
  | setString sect key value => rfl
  | setInt sect key value => rfl
  | setBool sect key value =>
    simp only [Op.perform, keyfileSetBool, Op.answer]
    split <;> rfl
  | unsetKey sect key =>
    simp only [Op.perform, keyfileUnsetKey, Op.answer]
    split <;> rfl

/-! ## Sessions -/

/-- A handle holds what the past wrote, and can be saved. -/
structure Current (past : List Op) (store : Store CString CString CString) : Prop where
  entries : entries store = replay (fun _ => none) (writes past)
  representable : Representable store

theorem current_empty : Current [] (.empty : Store CString CString CString) :=
  ⟨rfl, empty_representable⟩

theorem performAll_total_correct {past ops : List Op} (ok : ∀ op ∈ ops, op.Ok) {self : Handle T}
    (current : Current past (view self.kf)) :
    ∃ after, performAll self ops = (after, answers past ops) ∧ after.loc = self.loc ∧
      Current (past ++ ops) (view after.kf) := by
  induction ops generalizing past self with
  | nil => exact ⟨self, rfl, rfl, by simpa using current⟩
  | cons op rest ih =>
    have next : Current (past ++ [op]) (view (op.perform self).1.kf) := by
      refine ⟨?_, perform_representable (ok op List.mem_cons_self) current.representable⟩
      rw [entries_perform, current.entries, writes_append, replay_append]
    obtain ⟨after, executed, loc, correct⟩ := ih (fun op member => ok op (List.mem_cons_of_mem _ member)) next
    refine ⟨after, ?_, loc.trans (perform_loc op self), by simpa using correct⟩
    rw [performAll, executed, perform_reply op current.entries]
    rfl

/-- Opening a handle always works, and gives what its file loads as. -/
theorem mcsKeyfileNew_total_correct {env : Environment} {domain loc : CString}
    (path : configPath env domain = some loc) (disk : Disk CString) :
    ∃ self : Handle T, mcsKeyfileNew env domain disk = some self ∧ self.loc = loc ∧
      view self.kf = loadFile (disk.content loc) := by
  obtain ⟨kf, executed, correct⟩ := keyfileOpen_total_correct (T := T) (disk.content loc)
  exact ⟨⟨loc, kf⟩, by rw [mcsKeyfileNew, path, Option.bind_some, executed, Option.map_some], rfl, correct⟩

variable {env : Environment} {domain loc : CString}

theorem session_total_correct (path : configPath env domain = some loc) (room : Room loc) {past : List Op}
    {session : Session} (fine : session.world.Fine) (ok : ∀ op ∈ session.ops, op.Ok) {disk : Disk CString}
    (current : Current past (loadFile (disk.content loc))) :
    ∃ after, session.run T env domain disk = some (after, answers past session.ops) ∧
      Current (past ++ session.ops) (loadFile (after.content loc)) := by
  obtain ⟨self, opened, rfl, loaded⟩ := mcsKeyfileNew_total_correct (T := T) path disk
  rw [← loaded] at current
  obtain ⟨last, executed, loc, correct⟩ := performAll_total_correct ok current
  refine ⟨saved last session.world disk, by rw [Session.run, opened, Option.map_some, executed], ?_⟩
  rw [← loc] at room ⊢
  rw [saved_content_loc last fine (room.tfile_ne _), loadFile_serialise correct.representable]
  exact correct

theorem runAll_total_correct (path : configPath env domain = some loc) (room : Room loc) {past : List Op}
    {sessions : List Session} (fine : ∀ session ∈ sessions, session.world.Fine)
    (ok : ∀ session ∈ sessions, ∀ op ∈ session.ops, op.Ok) {disk : Disk CString}
    (current : Current past (loadFile (disk.content loc))) :
    ∃ after, runAll T env domain sessions disk = some (after, answers past (sessions.flatMap Session.ops)) := by
  induction sessions generalizing past disk with
  | nil => exact ⟨disk, rfl⟩
  | cons session rest ih =>
    obtain ⟨middle, executed, next⟩ := session_total_correct (T := T) path room (fine session List.mem_cons_self)
      (ok session List.mem_cons_self) current
    obtain ⟨after, run⟩ := ih (fun session member => fine session (List.mem_cons_of_mem _ member))
      (fun session member => ok session (List.mem_cons_of_mem _ member)) next
    exact ⟨after, by rw [runAll, executed, Option.bind_some, run, Option.map_some, List.flatMap_cons, answers_append]⟩

/-- No operation changes what a read of another entry gives. -/
theorem perform_get_other {op : Op} {pair : CString × CString} {left : Option CString}
    (writes : op.write = some (pair, left)) (self : Handle T) {sect key : CString} (other : (sect, key) ≠ pair)
    (value : Option CString) :
    keyfileGetString (op.perform self).1.kf sect key value = keyfileGetString self.kf sect key value := by
  have kept : (view (op.perform self).1.kf).get sect key = (view self.kf).get sect key := by
    have same := congrFun (entries_perform op self) (sect, key)
    have one : Sessions.writes [op] = [(pair, left)] := by simp [Sessions.writes, writes]
    rw [one, replay_eq, latest_singleton, if_neg (Ne.symm other)] at same
    exact same
  rw [keyfileGetString_eq, keyfileGetString_eq, kept]

/-- Sessions behave like one map that is never lost: each read gives what the last
    write to its entry left, in this session or an earlier one, and no operation
    changes what a read of another entry gives. -/
theorem sessions_refine (path : configPath env domain = some loc) (room : Room loc) (disk : Disk CString)
    (absent : disk.content loc = none) (sessions : List Session)
    (fine : ∀ session ∈ sessions, session.world.Fine) (ok : ∀ session ∈ sessions, ∀ op ∈ session.ops, op.Ok) :
    (∃ after, runAll T env domain sessions disk = some (after, answers [] (sessions.flatMap Session.ops))) ∧
      ∀ (op : Op) (pair : CString × CString) (left : Option CString) (self : Handle T) (sect key : CString)
        (value : Option CString), op.write = some (pair, left) → (sect, key) ≠ pair →
          keyfileGetString (op.perform self).1.kf sect key value = keyfileGetString self.kf sect key value := by
  refine ⟨runAll_total_correct path room fine ok ?_, ?_⟩
  · rw [absent]
    exact current_empty
  · intro op pair left self sect key value writes other
    exact perform_get_other writes self other value

/-! ### Two sessions of one program -/

/-- `XDG_CONFIG_HOME` is `a`. -/
def directoryA : Environment := ⟨some nameA, none⟩

/-- The path `a/b/config`. -/
def pathAB : CString := ⟨[97, 47, 98, 47, 99, 111, 110, 102, 105, 103], by decide⟩

theorem configPath_directoryA : configPath directoryA nameB = some pathAB := by
  rw [configPath_eq]
  rfl

theorem room_pathAB : Room pathAB := by
  simp [Room, strlen, pathAB, pathMax]

theorem sectionOk_nameA : SectionOk nameA := by decide

theorem entryOk_nameA_nameB : EntryOk nameA nameB := by decide

/-- One session sets an entry, the next one reads it. -/
theorem sessions_refine_two :
    ∃ after, runAll (Assoc false CString) directoryA nameB
        [⟨[.setString nameA nameA nameB], calm 4096⟩, ⟨[.getString nameA nameA none], calm 4096⟩] .empty =
      some (after, [⟨.MCS_OK, none⟩, ⟨.MCS_OK, some nameB⟩]) := by
  refine (sessions_refine configPath_directoryA room_pathAB .empty rfl _ ?_ ?_).1
  · intro session member
    simp only [List.mem_cons, List.not_mem_nil, or_false] at member
    rcases member with rfl | rfl <;> exact calm_fine 4096
  · intro session member op inSession sect key value writes
    simp only [List.mem_cons, List.not_mem_nil, or_false] at member
    rcases member with rfl | rfl
    · simp only [List.mem_cons, List.not_mem_nil, or_false] at inSession
      subst inSession
      cases writes
      exact ⟨sectionOk_nameA, entryOk_nameA_nameB⟩
    · simp only [List.mem_cons, List.not_mem_nil, or_false] at inSession
      subst inSession
      cases writes

/-! ## Sessions without operations -/

/-- A handle that is opened and destroyed. -/
def Session.Idle (session : Session) : Prop := session.ops = [] ∧ session.world.Fine

theorem idle_run (path : configPath env domain = some loc) {session : Session} (idle : session.Idle) (room : Room loc)
    (disk : Disk CString) : ∃ after, ∃ kf : Keyfile T, session.run T env domain disk = some (after, []) ∧
      view kf = loadFile (disk.content loc) ∧ after.content loc = some (serialise kf) := by
  obtain ⟨self, opened, rfl, loaded⟩ := mcsKeyfileNew_total_correct (T := T) path disk
  have content := saved_content_loc self idle.2 (room.tfile_ne _) disk
  exact ⟨saved self session.world disk, self.kf, by rw [Session.run, opened, idle.1]; rfl, loaded, content⟩

theorem idle_runAll (path : configPath env domain = some loc) (room : Room loc) {sessions : List Session}
    (idle : ∀ session ∈ sessions, session.Idle) {disk : Disk CString}
    (held : Representable (loadFile (disk.content loc))) :
    ∃ after, runAll T env domain sessions disk = some (after, []) ∧
      loadFile (after.content loc) = loadFile (disk.content loc) := by
  induction sessions generalizing disk with
  | nil => exact ⟨disk, rfl, rfl⟩
  | cons session rest ih =>
    obtain ⟨middle, kf, executed, loaded, content⟩ :=
      idle_run (T := T) path (idle session List.mem_cons_self) room disk
    have same : loadFile (middle.content loc) = loadFile (disk.content loc) := by
      rw [content, loadFile_serialise (by rw [loaded]; exact held), loaded]
    obtain ⟨after, run, still⟩ := ih (fun other member => idle other (List.mem_cons_of_mem _ member))
      (by rw [same]; exact held)
    exact ⟨after, by rw [runAll, executed, Option.bind_some, run]; rfl, still.trans same⟩

/-- Opening and destroying handles, any number of times, never changes what a get of the
    next one returns exactly when the file hides no marked key. -/
theorem idle_sessions_iff (path : configPath env domain = some loc) (room : Room loc) {disk : Disk CString}
    {file : Bytes} (content : disk.content loc = some file) :
    (∀ sessions : List Session, (∀ session ∈ sessions, session.Idle) →
      ∃ after, ∃ next : Handle T, runAll T env domain sessions disk = some (after, []) ∧
        mcsKeyfileNew env domain after = some next ∧ view next.kf = loadFile (some file)) ↔ ¬ HidesMark file := by
  rw [hidesMark_iff]
  constructor
  · rintro stable ⟨name, key, value, held, marked⟩
    have once : Session.Idle ⟨[], calm 4096⟩ := ⟨rfl, calm_fine 4096⟩
    obtain ⟨middle, kf, executed, loaded, written⟩ := idle_run (T := T) path once room disk
    obtain ⟨after, next, run, opened, same⟩ := stable [⟨[], calm 4096⟩] (List.forall_mem_singleton.mpr once)
    rw [runAll, executed, Option.bind_some, runAll, Option.map_some] at run
    cases run
    obtain ⟨other, again, _, reloaded⟩ := mcsKeyfileNew_total_correct (T := T) path middle
    rw [opened, Option.some.injEq] at again
    rw [← again, same, written, ← content, ← loaded] at reloaded
    rw [← content, ← loaded] at held
    exact ((representable_of_reload reloaded.symm).entries name key value held).unmarked marked
  · intro hidden sessions idle
    have held : Representable (loadFile (disk.content loc)) := by
      rw [content]
      exact loaded_representable fun name key value held marked => hidden ⟨name, key, value, held, marked⟩
    obtain ⟨after, run, same⟩ := idle_runAll (T := T) path room idle held
    obtain ⟨next, opened, _, loaded⟩ := mcsKeyfileNew_total_correct (T := T) path after
    exact ⟨after, next, run, opened, by rw [loaded, same, content]⟩

/-! ## What success of a set promises -/

/-- A set that reports success is read back by the next session. -/
def Durable (env : Environment) (domain : CString) (self : Handle T) (sect key value : CString) (world : World)
    (disk : Disk CString) : Prop :=
  (Op.perform (.setString sect key value) self).2.response = .MCS_OK →
    ∃ next : Handle T,
      mcsKeyfileNew env domain (saved (Op.perform (.setString sect key value) self).1 world disk) = some next ∧
        ∀ old, keyfileGetString next.kf sect key old = (.MCS_OK, some value)

/-- The next session reads what its file loads as, whatever it is. -/
theorem durable_iff_load (self : Handle T) (path : configPath env domain = some self.loc)
    (sect key value : CString) (world : World) (disk : Disk CString) :
    Durable env domain self sect key value world disk ↔
      (loadFile ((saved (Op.perform (.setString sect key value) self).1 world disk).content self.loc)).get
        sect key = some value := by
  obtain ⟨next, opened, _, loaded⟩ := mcsKeyfileNew_total_correct (T := T) path
    (saved (Op.perform (.setString sect key value) self).1 world disk)
  rw [← loaded, ← keyfileGetString_found]
  constructor
  · intro durable
    obtain ⟨other, openedOther, read⟩ := durable rfl
    rw [opened] at openedOther
    cases openedOther
    exact read
  · intro read _
    exact ⟨next, opened, read⟩

theorem durable_iff_saved (self : Handle T) (path : configPath env domain = some self.loc)
    (sect key value : CString) {world : World} (fine : world.Fine)
    (differ : tfile self.loc world.buffer ≠ self.loc) (disk : Disk CString) :
    Durable env domain self sect key value world disk ↔
      (loadFile (some (serialise (keyfileSetString self.kf sect key value).1))).get sect key = some value := by
  have content := saved_content_loc (Op.perform (.setString sect key value) self).1 fine differ disk
  rw [perform_loc] at content
  rw [durable_iff_load self path, content]
  show (loadFile (some (serialise (keyfileSetString self.kf sect key value).1))).get sect key = some value ↔ _
  rfl

/-- Success means that the next session reads the value back exactly when the
    format can carry it, and the path leaves room for a temporary file. -/
theorem durable_iff (self : Handle T) (path : configPath env domain = some self.loc)
    (held : Representable (view self.kf)) (sect key value : CString) {world : World} (fine : world.Fine)
    (disk : Disk CString) :
    Durable env domain self sect key value world disk ↔
      SectionOk sect ∧ EntryOk key value ∧ Room self.loc := by
  have roomy := tfile_ne_iff (strlen_configPath path) world.buffer
  by_cases differ : tfile self.loc world.buffer ≠ self.loc
  · rw [durable_iff_saved self path sect key value fine differ, reread_iff held]
    exact ⟨fun both => ⟨both.1, both.2, roomy.mp differ⟩, fun all => ⟨all.1, all.2.1⟩⟩
  · have content := saved_content_self (Op.perform (.setString sect key value) self).1 fine (not_not.mp differ) disk
    rw [perform_loc] at content
    rw [durable_iff_load self path, content]
    constructor
    · intro back
      cases back
    · intro all
      exact absurd (roomy.mpr all.2.2) differ

/-- The next session reads a value that the format can carry. -/
theorem durable_iff_carried :
    Durable directoryA nameB (⟨pathAB, keyfileNew⟩ : Handle (Assoc false CString)) nameA nameA nameB (calm 4096)
      .empty := by
  refine (durable_iff _ configPath_directoryA ?_ _ _ _ (calm_fine 4096) _).mpr ?_
  · rw [view_keyfileNew]
    exact empty_representable
  · exact ⟨sectionOk_nameA, entryOk_nameA_nameB, room_pathAB⟩

/-- An empty value is reported as stored, and is not there in the next session. -/
theorem emptyValue_not_durable :
    ¬ ∀ (env : Environment) (domain : CString) (self : Handle (Assoc false CString)) (sect key value : CString)
      (world : World) (disk : Disk CString), configPath env domain = some self.loc → Representable (view self.kf) →
        world.Fine → Durable env domain self sect key value world disk := by
  intro always
  have empty : Representable (view (keyfileNew : Keyfile (Assoc false CString))) := by
    rw [view_keyfileNew]
    exact empty_representable
  have back := always directoryA nameB ⟨pathAB, keyfileNew⟩ nameA nameA .empty (calm 4096) .empty
    configPath_directoryA empty (calm_fine 4096)
  rw [durable_iff_saved ⟨pathAB, keyfileNew⟩ configPath_directoryA _ _ _ (calm_fine 4096)
    (room_pathAB.tfile_ne _)] at back
  exact ((reread_iff empty nameA nameA .empty).mp back).2.valueNonempty rfl

end Mcs.Sessions
