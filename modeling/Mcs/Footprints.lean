import Mcs.Files

/-!
What the calls of a process touch. Calls about the names of an area leave what
readers find outside of it as it was (`execAll_frame`), and on two disks that agree
in the area they do the same there (`execAll_agree`), whatever its names are there and
whatever else is on the disks.
-/
namespace Mcs.Footprints
open Mcs.Files

variable {Path : Type}

/-- The names that a call is about. -/
def names : Sys Path → List Path
  | .openTrunc path => [path]
  | .unlink path => [path]
  | .rename old new => [old, new]
  | _ => []

/-- The names that a call can lead to a file. -/
def targets : Sys Path → List Path
  | .openTrunc path => [path]
  | .rename _ new => [new]
  | _ => []

/-- What a call does to a file that has no such name is not seen under it. -/
theorem content_update {disk : Disk Path} {ino : Nat} {path : Path} (other : disk.dir path ≠ some ino)
    (data : Nat → Strings.Bytes) (same : ∀ number ≠ ino, data number = disk.data number) :
    (disk.dir path).map data = disk.content path := by
  cases held : disk.dir path with
  | none => simp [Disk.content, held]
  | some found =>
    have differ : found ≠ ino := fun equal => other (by rw [held, equal])
    simp [Disk.content, held, same found differ]

theorem content_writeAt (disk : Disk Path) (ino offset : Nat) (bytes : Strings.Bytes) (path : Path) :
    (disk.writeAt ino offset bytes).content path =
      if disk.dir path = some ino then some (overwrite (disk.data ino) offset bytes) else disk.content path := by
  by_cases leads : disk.dir path = some ino
  · rw [if_pos leads]
    simp [Disk.content, Disk.writeAt, leads]
  · rw [if_neg leads]
    exact content_update leads _ fun number differ => Function.update_of_ne differ _ _

theorem content_eq_none_iff (disk : Disk Path) (path : Path) : disk.content path = none ↔ disk.dir path = none :=
  Option.map_eq_none_iff

variable [DecidableEq Path]

theorem dir_openTrunc (disk : Disk Path) {path other : Path} (differ : other ≠ path) :
    (disk.openTrunc path).1.dir other = disk.dir other := (openTrunc_spec disk path).2.2.1 other differ

theorem dir_unlink (disk : Disk Path) (path other : Path) :
    (disk.unlink path).dir other = if other = path then none else disk.dir other :=
  Function.update_apply disk.dir path none other

theorem dir_rename (disk : Disk Path) (old new : Path) : (disk.rename old new).dir = renamed disk.dir old new := rfl

theorem content_openTrunc (disk : Disk Path) (opened path : Path) :
    (disk.openTrunc opened).1.content path = if path = opened then some [] else disk.content path := by
  obtain ⟨named, empty, others, kept⟩ := openTrunc_spec disk opened
  by_cases same : path = opened
  · rw [if_pos same, same, Disk.content, named, Option.map_some, empty]
  · have elsewhere : disk.dir path ≠ some (disk.openTrunc opened).2 := by
      rw [← others path same]
      exact dir_ne named same
    rw [if_neg same, Disk.content, others path same]
    exact content_update elsewhere _ kept

theorem content_rename_eq (disk : Disk Path) (old new path : Path) : (disk.rename old new).content path =
    if disk.content old = none ∨ old = new then disk.content path
    else if path = new then disk.content old else if path = old then none else disk.content path := by
  have moved : (disk.rename old new).content path = (renamed disk.dir old new path).map disk.data := rfl
  cases held : disk.dir old with
  | none =>
    rw [moved, renamed_of_none held, if_pos (.inl ((content_eq_none_iff disk old).mpr held))]
    rfl
  | some ino =>
    by_cases same : old = new
    · rw [moved, if_pos (.inr same)]
      simp only [renamed, held, if_pos same]
      rfl
    · have present : ¬ (disk.content old = none ∨ old = new) := by
        rw [content_eq_none_iff, held]
        exact fun either => either.elim nofun same
      rw [if_neg present, content_rename held same]

/-- A call leads no name to a file but its targets. -/
theorem dir_exec {call : Sys Path} {disk : Disk Path} {fd : Option Fd} {path : Path}
    (named : (call.exec disk fd).1.dir path ≠ none) : disk.dir path ≠ none ∨ path ∈ targets call := by
  cases call with
  | openTrunc opened =>
    by_cases same : path = opened
    · exact .inr (List.mem_singleton.mpr same)
    · left
      rwa [← dir_openTrunc disk same]
  | write bytes =>
    left
    match fd with
    | none => exact named
    | some ⟨ino, offset, true⟩ => exact named
    | some ⟨ino, offset, false⟩ => exact named
  | fsync =>
    left
    match fd with
    | none => exact named
    | some ⟨ino, offset, true⟩ => exact named
    | some ⟨ino, offset, false⟩ => exact named
  | close =>
    left
    match fd with
    | none => exact named
    | some ⟨ino, offset, _⟩ => exact named
  | unlink gone =>
    left
    have kept : (disk.unlink gone).dir path ≠ none := named
    rw [dir_unlink] at kept
    by_cases same : path = gone
    · exact absurd (if_pos same) kept
    · rwa [if_neg same] at kept
  | rename old new =>
    obtain ⟨ino, held⟩ := Option.ne_none_iff_exists'.mp named
    rcases renamed_eq_some held with before | ⟨atNew, _⟩
    · exact .inl (by rw [before]; exact nofun)
    · exact .inr (List.mem_singleton.mpr atNew)

/-! ## What stays outside an area -/

section
variable {area : Path → Prop}

/-- The open file has no name outside the area. -/
def Inside (area : Path → Prop) (disk : Disk Path) (fd : Option Fd) : Prop :=
  ∀ file, fd = some file → ∀ path, disk.dir path = some file.ino → area path

theorem exec_frame {call : Sys Path} (about : ∀ path ∈ names call, area path) {disk : Disk Path} {fd : Option Fd}
    (inside : Inside area disk fd) :
    Inside area (call.exec disk fd).1 (call.exec disk fd).2 ∧
      ∀ path, ¬ area path → (call.exec disk fd).1.content path = disk.content path := by
  cases call with
  | openTrunc opened =>
    have named := (openTrunc_spec disk opened).1
    have mine : area opened := about opened List.mem_cons_self
    constructor
    · rintro file ⟨⟩ path leads
      by_cases same : path = opened
      · exact same ▸ mine
      · exact absurd leads (dir_ne named same)
    · intro path outside
      have differ : path ≠ opened := fun same => outside (same ▸ mine)
      exact (content_openTrunc disk opened path).trans (if_neg differ)
  | write bytes =>
    match fd with
    | none => exact ⟨inside, fun _ _ => rfl⟩
    | some ⟨ino, offset, false⟩ => exact ⟨inside, fun _ _ => rfl⟩
    | some ⟨ino, offset, true⟩ =>
      refine ⟨fun file same path leads => ?_, fun path outside => ?_⟩
      · cases same
        exact inside _ rfl path leads
      · exact content_update (fun leads => outside (inside _ rfl path leads)) _
          fun number differ => Function.update_of_ne differ _ _
  | fsync =>
    match fd with
    | none => exact ⟨inside, fun _ _ => rfl⟩
    | some ⟨ino, offset, false⟩ => exact ⟨inside, fun _ _ => rfl⟩
    | some ⟨ino, offset, true⟩ => exact ⟨inside, fun _ _ => rfl⟩
  | close =>
    match fd with
    | none => exact ⟨inside, fun _ _ => rfl⟩
    | some ⟨ino, offset, _⟩ =>
      refine ⟨fun file same path leads => ?_, fun _ _ => rfl⟩
      cases same
      exact inside _ rfl path leads
  | unlink gone =>
    have mine : area gone := about gone List.mem_cons_self
    constructor
    · intro file same path leads
      by_cases equal : path = gone
      · exact equal ▸ mine
      · refine inside file same path ?_
        have left : (disk.unlink gone).dir path = some file.ino := leads
        rwa [dir_unlink, if_neg equal] at left
    · intro path outside
      have differ : path ≠ gone := fun same => outside (same ▸ mine)
      exact (content_unlink disk gone path).trans (if_neg differ)
  | rename old new =>
    have from_ : area old := about old List.mem_cons_self
    have to_ : area new := about new (by simp [names])
    constructor
    · intro file same path leads
      rcases renamed_eq_some leads with before | ⟨atNew, _⟩
      · exact inside file same path before
      · exact atNew ▸ to_
    · intro path outside
      have notOld : path ≠ old := fun same => outside (same ▸ from_)
      have notNew : path ≠ new := fun same => outside (same ▸ to_)
      refine (content_rename_eq disk old new path).trans ?_
      rw [if_neg notNew, if_neg notOld, ite_self]

/-- Calls about an area are not noticed outside of it. -/
theorem execAll_frame {calls : List (Sys Path)} (about : ∀ call ∈ calls, ∀ path ∈ names call, area path)
    {disk : Disk Path} {fd : Option Fd} (inside : Inside area disk fd) {path : Path} (outside : ¬ area path) :
    (execAll calls (disk, fd)).1.content path = disk.content path := by
  induction calls generalizing disk fd with
  | nil => rfl
  | cons call rest ih =>
    obtain ⟨next, kept⟩ := exec_frame (about call List.mem_cons_self) inside
    rw [execAll_cons]
    exact (ih (fun call member => about call (List.mem_cons_of_mem _ member)) next).trans (kept path outside)

end

/-! ## What depends on an area -/

/-- A call with other names. -/
def renamedCall {Place : Type} (name : Path → Place) : Sys Path → Sys Place
  | .openTrunc path => .openTrunc (name path)
  | .write bytes => .write bytes
  | .fsync => .fsync
  | .close => .close
  | .unlink path => .unlink (name path)
  | .rename old new => .rename (name old) (name new)

/-- The names of an area lead to the same contents on another disk, under other names. -/
def Agree {Place : Type} (area : Path → Prop) (name : Path → Place) (disk : Disk Path) (other : Disk Place) : Prop :=
  ∀ path, area path → disk.content path = other.content (name path)

/-- The two processes have no file open, or files with one content that have the same
    names in the area. -/
inductive SameFile {Place : Type} (area : Path → Prop) (name : Path → Place) (disk : Disk Path) (other : Disk Place) :
    Option Fd → Option Fd → Prop
  | closed : SameFile area name disk other none none
  | opened (ino number offset : Nat) (isOpen : Bool) (data : disk.data ino = other.data number)
    (named : ∀ path, area path → (disk.dir path = some ino ↔ other.dir (name path) = some number)) :
    SameFile area name disk other (some ⟨ino, offset, isOpen⟩) (some ⟨number, offset, isOpen⟩)

section
variable {Place : Type} [DecidableEq Place] {area : Path → Prop} {name : Path → Place} {disk : Disk Path}
  {other : Disk Place}

/-- A file that both have open keeps its names in the area together. -/
theorem rename_named (injective : ∀ path second, area path → area second → name path = name second → path = second)
    {old new : Path} {ino number : Nat} (inOld : area old) (inNew : area new) (agree : Agree area name disk other)
    (named : ∀ path, area path → (disk.dir path = some ino ↔ other.dir (name path) = some number)) (path : Path)
    (inArea : area path) : (disk.rename old new).dir path = some ino ↔
      (other.rename (name old) (name new)).dir (name path) = some number := by
  have same : ∀ first second, area first → area second → (name first = name second ↔ first = second) :=
    fun first second left right => ⟨injective first second left right, congrArg name⟩
  have both := agree old inOld
  rw [dir_rename, dir_rename]
  cases held : disk.dir old with
  | none =>
    have none : other.dir (name old) = none := by
      rw [← content_eq_none_iff, ← both, content_eq_none_iff, held]
    rw [renamed_of_none held, renamed_of_none none]
    exact named path inArea
  | some found =>
    obtain ⟨foundOther, heldOther⟩ : ∃ foundOther, other.dir (name old) = some foundOther := by
      rw [← Option.ne_none_iff_exists', Ne, ← content_eq_none_iff, ← both, content_eq_none_iff, held]
      exact nofun
    have moved := named old inOld
    rw [held, heldOther] at moved
    by_cases equal : old = new
    · simp only [renamed, held, heldOther, if_pos equal, if_pos (congrArg name equal)]
      exact named path inArea
    · have differ : name old ≠ name new := mt (same old new inOld inNew).mp equal
      rw [renamed_apply held equal, renamed_apply heldOther differ]
      by_cases atNew : path = new
      · rw [if_pos atNew, if_pos (congrArg name atNew)]
        exact moved
      · rw [if_neg atNew, if_neg (mt (same path new inArea inNew).mp atNew)]
        by_cases atOld : path = old
        · rw [if_pos atOld, if_pos (congrArg name atOld)]
          exact ⟨fun absent => (by cases absent), fun absent => (by cases absent)⟩
        · rw [if_neg atOld, if_neg (mt (same path old inArea inOld).mp atOld)]
          exact named path inArea

theorem exec_agree (injective : ∀ path second, area path → area second → name path = name second → path = second)
    {call : Sys Path} (about : ∀ path ∈ names call, area path) {fd fdOther : Option Fd}
    (agree : Agree area name disk other) (files : SameFile area name disk other fd fdOther) :
    Agree area name (call.exec disk fd).1 ((renamedCall name call).exec other fdOther).1 ∧
      SameFile area name (call.exec disk fd).1 ((renamedCall name call).exec other fdOther).1 (call.exec disk fd).2
        ((renamedCall name call).exec other fdOther).2 := by
  have same : ∀ first second, area first → area second → (first = second ↔ name first = name second) :=
    fun first second left right => ⟨congrArg name, injective first second left right⟩
  cases call with
  | openTrunc opened =>
    have inOpened : area opened := about opened List.mem_cons_self
    obtain ⟨named, empty, _, _⟩ := openTrunc_spec disk opened
    obtain ⟨namedOther, emptyOther, _, _⟩ := openTrunc_spec other (name opened)
    constructor
    · intro path inArea
      refine (content_openTrunc disk opened path).trans ?_
      rw [agree path inArea, if_congr (same path opened inArea inOpened) rfl rfl]
      exact (content_openTrunc other (name opened) (name path)).symm
    · refine .opened _ _ 0 true (empty.trans emptyOther.symm) fun path inArea => ?_
      by_cases equal : path = opened
      · rw [equal]
        exact ⟨fun _ => namedOther, fun _ => named⟩
      · have differ : name path ≠ name opened := mt (same path opened inArea inOpened).mpr equal
        exact ⟨fun leads => absurd leads (dir_ne named equal), fun leads => absurd leads (dir_ne namedOther differ)⟩
  | write bytes =>
    cases files with
    | closed => exact ⟨agree, .closed⟩
    | opened ino number offset isOpen data named =>
      cases isOpen with
      | false => exact ⟨agree, .opened ino number offset false data named⟩
      | true =>
        refine ⟨fun path inArea => ?_, .opened ino number _ true ?_ named⟩
        · refine (content_writeAt disk ino offset bytes path).trans ?_
          rw [data, agree path inArea, if_congr (named path inArea) rfl rfl]
          exact (content_writeAt other number offset bytes (name path)).symm
        · simp [Sys.exec, renamedCall, Disk.writeAt, data]
  | fsync =>
    cases files with
    | closed => exact ⟨agree, .closed⟩
    | opened ino number offset isOpen data named =>
      cases isOpen with
      | false => exact ⟨agree, .opened ino number offset false data named⟩
      | true => exact ⟨agree, .opened ino number offset true data named⟩
  | close =>
    cases files with
    | closed => exact ⟨agree, .closed⟩
    | opened ino number offset isOpen data named => exact ⟨agree, .opened ino number offset false data named⟩
  | unlink gone =>
    have inGone : area gone := about gone List.mem_cons_self
    constructor
    · intro path inArea
      refine (content_unlink disk gone path).trans ?_
      rw [agree path inArea, if_congr (same path gone inArea inGone) rfl rfl]
      exact (content_unlink other (name gone) (name path)).symm
    · cases files with
      | closed => exact .closed
      | opened ino number offset isOpen data named =>
        refine .opened ino number offset isOpen data fun path inArea => ?_
        show (disk.unlink gone).dir path = _ ↔ (other.unlink (name gone)).dir (name path) = _
        rw [dir_unlink, dir_unlink]
        by_cases equal : path = gone
        · rw [if_pos equal, if_pos (congrArg name equal)]
          exact ⟨fun absent => (by cases absent), fun absent => (by cases absent)⟩
        · rw [if_neg equal, if_neg (mt (same path gone inArea inGone).mpr equal)]
          exact named path inArea
  | rename old new =>
    have inOld : area old := about old List.mem_cons_self
    have inNew : area new := about new (List.mem_cons_of_mem _ List.mem_cons_self)
    constructor
    · intro path inArea
      refine (content_rename_eq disk old new path).trans ?_
      rw [agree old inOld, agree path inArea, if_congr (or_congr_right (same old new inOld inNew)) rfl rfl,
        if_congr (same path new inArea inNew) rfl rfl, if_congr (same path old inArea inOld) rfl rfl]
      exact (content_rename_eq other (name old) (name new) (name path)).symm
    · cases files with
      | closed => exact .closed
      | opened ino number offset isOpen data named =>
        exact .opened ino number offset isOpen data fun path inArea =>
          rename_named injective inOld inNew agree named path inArea

/-- What calls about an area leave there depends on what was there, and on nothing else:
    neither on what the names are nor on the rest of the disk. -/
theorem execAll_agree (injective : ∀ path second, area path → area second → name path = name second → path = second)
    {calls : List (Sys Path)} (about : ∀ call ∈ calls, ∀ path ∈ names call, area path) {fd fdOther : Option Fd}
    (agree : Agree area name disk other) (files : SameFile area name disk other fd fdOther) :
    Agree area name (execAll calls (disk, fd)).1 (execAll (calls.map (renamedCall name)) (other, fdOther)).1 := by
  induction calls generalizing disk other fd fdOther with
  | nil => exact agree
  | cons call rest ih =>
    obtain ⟨next, files⟩ := exec_agree injective (about call List.mem_cons_self) agree files
    exact ih (fun call member => about call (List.mem_cons_of_mem _ member)) next files

/-- The disk of an area under its own names. -/
def pulled (disk : Disk Place) {area : Path → Prop} [DecidablePred area] {name : Path → Place}
    (injective : ∀ path second, area path → area second → name path = name second → path = second) : Disk Path where
  dir path := if area path then disk.dir (name path) else none
  data := disk.data
  durable := disk.durable
  next := disk.next
  known path ino named := by
    split at named
    · exact disk.known _ ino named
    · cases named
  single path second ino named other := by
    split at named
    · split at other
      · exact injective path second ‹_› ‹_› (disk.single _ _ ino named other)
      · cases other
    · cases named

omit [DecidableEq Path] [DecidableEq Place] in
theorem agree_pulled (disk : Disk Place) {area : Path → Prop} [DecidablePred area] {name : Path → Place}
    (injective : ∀ path second, area path → area second → name path = name second → path = second) :
    Agree area name (pulled disk injective) disk := by
  intro path inArea
  have dir : (pulled disk injective).dir path = disk.dir (name path) := if_pos inArea
  rw [Disk.content, dir]
  rfl

end

end Mcs.Footprints
