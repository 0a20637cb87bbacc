import Mcs.Directories
import Mcs.FileTrees
import Mcs.Sessions

/-!
The program on a tree of directories and files. `mcs_keyfile_new` makes the directory of
a domain, whatever comes of it, and reads the file there; `mcs_keyfile_destroy` writes
the file and its temporary file by their paths. Whatever the tree and whichever calls
fail, nothing else in it changes (`runAllIn_frame`). Where the directory can be made, the
program behaves as on a disk whose names are whole paths (`runAllIn_refines`), and a set
that reports success is read back exactly as `durableIn_iff` says.
-/
namespace Mcs.Homes
open Mcs.Dictionary Mcs.Strings Mcs.KeyfileModel Mcs.Reading Mcs.Format Mcs.RoundTrip Mcs.Files Mcs.Streams Mcs.Footprints
open Mcs.Trees Mcs.FileTrees Mcs.Directories Mcs.Backend Mcs.Sessions

variable {T : Type → Type} [Patricia CString T] {F : Type}

/-! ## Making directories again -/

/-- The places that a path leads through, and to. -/
def OnPath (system : System) (path : CString) (place : List Bytes) : Prop :=
  ∃ before, before <+: steps path.bytes ∧ locate (system.start path) before = place

/-- Where a call of `mkdir` has done its work, one more does nothing. -/
structure Stands (system : System) (tree : Tree Bytes UInt32 F) (path : CString) : Prop where
  works : system.failure path = none
  nonempty : path ≠ .empty
  passable : tree.Passable (system.start path) (steps path.bytes)
  present : tree.node (locate (system.start path) (steps path.bytes)) ≠ none

section
variable {system : System} {mode : UInt32} {tree next : Tree Bytes UInt32 F} {path : CString}

theorem Stands.attempt (stands : Stands system tree path) (mode : UInt32) :
    system.attempt mode tree path = .ok tree := by
  have call : system.mkdir tree path mode = .error .EEXIST := by
    rw [System.mkdir, stands.works]
    exact (if_neg stands.nonempty).trans (Tree.mkdir_of_present stands.passable stands.present _)
  rw [System.attempt, call]
  exact if_pos rfl

theorem Stands.grown {places : List Bytes → Prop} {info : UInt32} (stands : Stands system tree path)
    (grown : Grown tree next info places) : Stands system next path := by
  refine ⟨stands.works, stands.nonempty, grown.passable stands.passable, ?_⟩
  rw [grown.kept _ stands.present]
  exact stands.present

theorem attempt_spec (done : system.attempt mode tree path = .ok next) :
    Grown tree next (system.permissions mode) (· = locate (system.start path) (steps path.bytes)) ∧
      Stands system next path := by
  have works : system.failure path = none := by
    cases failed : system.failure path with
    | none => rfl
    | some errno =>
      rw [System.attempt, System.mkdir, failed] at done
      simp only [if_neg errno.2] at done
      cases done
  by_cases nonempty : path = .empty
  · rw [System.attempt, System.mkdir, works] at done
    simp only [if_pos nonempty] at done
    cases done
  · have call : system.mkdir tree path mode =
        tree.mkdir (system.start path) (steps path.bytes) (system.permissions mode) := by
      rw [System.mkdir, works]
      exact if_neg nonempty
    rw [System.attempt, call] at done
    cases made : tree.mkdir (system.start path) (steps path.bytes) (system.permissions mode) with
    | ok other =>
      rw [made] at done
      cases done
      obtain ⟨grown, passable, present⟩ := grown_of_mkdir made
      exact ⟨grown, works, nonempty, passable, present⟩
    | error errno =>
      rw [made] at done
      by_cases there : errno = .EEXIST
      · simp only [if_pos there] at done
        cases done
        obtain ⟨passable, present⟩ := present_of_mkdir (there ▸ made)
        exact ⟨grown_self _ _ _, works, nonempty, passable, present⟩
      · simp only [if_neg there] at done
        cases done

/-- The calls of `mkdir` only add directories, and a second time they do nothing, however
    far they get. -/
theorem mkdirs_spec (system : System) (mode : UInt32) (tree : Tree Bytes UInt32 F) (paths : List CString) :
    Grown tree (mkdirs system mode tree paths).1 (system.permissions mode)
        (fun place => ∃ part ∈ paths, locate (system.start part) (steps part.bytes) = place) ∧
      mkdirs system mode (mkdirs system mode tree paths).1 paths = mkdirs system mode tree paths := by
  induction paths generalizing tree with
  | nil => exact ⟨grown_self _ _ _, rfl⟩
  | cons path rest ih =>
    cases call : system.attempt mode tree path with
    | error errno =>
      have stops : mkdirs system mode tree (path :: rest) = (tree, some errno) := by rw [mkdirs, call]
      rw [stops]
      exact ⟨grown_self _ _ _, stops⟩
    | ok next =>
      obtain ⟨first, stands⟩ := attempt_spec call
      obtain ⟨later, again⟩ := ih next
      have goes : mkdirs system mode tree (path :: rest) = mkdirs system mode next rest := by rw [mkdirs, call]
      rw [goes]
      constructor
      · refine (first.weaken ?_).trans (later.weaken ?_)
        · rintro place rfl
          exact ⟨path, List.mem_cons_self, rfl⟩
        · rintro place ⟨part, member, leads⟩
          exact ⟨part, List.mem_cons_of_mem _ member, leads⟩
      · rw [mkdirs, (stands.grown later).attempt]
        exact again

end

theorem prefix_of_ladder {now last : List (Step Bytes)} {rungs : List (List (Step Bytes))}
    (ladder : Ladder now rungs last) : ∀ rung ∈ rungs, rung <+: last := by
  induction ladder with
  | done now => exact List.forall_mem_nil _
  | same rest ih => exact List.forall_mem_cons.mpr ⟨ ladder_prefix rest, ih⟩
  | next step rest ih => exact List.forall_mem_cons.mpr ⟨ ladder_prefix rest, ih⟩

/-- A call of `mcs_create_directory` only adds directories on the path, and one more
    does nothing, whatever the calls return. -/
theorem created_spec (system : System) (path : CString) (mode : UInt32) (tree : Tree Bytes UInt32 F) :
    Grown tree (mcsCreateDirectory system (some path) mode tree).tree (system.permissions mode) (OnPath system path) ∧
      (mcsCreateDirectory system (some path) mode (mcsCreateDirectory system (some path) mode tree).tree).tree =
        (mcsCreateDirectory system (some path) mode tree).tree := by
  by_cases nonempty : path = .empty
  · subst nonempty
    exact ⟨grown_self _ _ _, rfl⟩
  · have run : ∀ tree : Tree Bytes UInt32 F,
        (mcsCreateDirectory system (some path) mode tree).tree = (mkdirs system mode tree (tried path)).1 := by
      intro tree
      rw [mcsCreateDirectory_eq system nonempty]
      rcases mkdirs system mode tree (tried path) with ⟨last, _ | errno⟩ <;> rfl
    obtain ⟨grown, again⟩ := mkdirs_spec system mode tree (tried path)
    rw [run, run, again]
    refine ⟨grown.weaken ?_, rfl⟩
    rintro place ⟨part, member, leads⟩
    rw [(within_tried system nonempty part member).2] at leads
    exact ⟨steps part.bytes, prefix_of_ladder (ladder_tried nonempty) _ (List.mem_map_of_mem member), leads⟩

theorem names_iff (system : System) (tree : Tree Bytes UInt32 F) (path : CString) :
    NamesDirectory system tree path ↔ tree.Passable (system.start path) (steps path.bytes) ∧
      tree.IsDirectory (locate (system.start path) (steps path.bytes)) := by
  constructor
  · rintro ⟨place, walk, is⟩
    obtain ⟨passable, leads⟩ := (tree.walk_eq_ok_iff _ place _).mp walk
    exact ⟨passable, leads ▸ is⟩
  · rintro ⟨passable, is⟩
    exact ⟨_, (tree.walk_eq_ok_iff _ _ _).mpr ⟨passable, rfl⟩, is⟩

/-- All that is on the path to a directory is a directory. -/
theorem directory_of_names {system : System} {tree : Tree Bytes UInt32 F} {path : CString}
    (names : NamesDirectory system tree path) {place : List Bytes} (onPath : OnPath system path place) :
    tree.IsDirectory place := by
  obtain ⟨passable, is⟩ := (names_iff system tree path).mp names
  obtain ⟨before, inside, rfl⟩ := onPath
  by_cases last : before = steps path.bytes
  · exact last ▸ is
  · exact passable.directory inside last

/-- Where the directory is there already, nothing is made. -/
theorem created_of_names {system : System} {tree : Tree Bytes UInt32 F} {path : CString}
    (names : NamesDirectory system tree path) (mode : UInt32) :
    (mcsCreateDirectory system (some path) mode tree).tree = tree := by
  have grown := (created_spec system path mode tree).1
  ext1
  funext place
  by_cases absent : tree.node place = none
  · rw [absent]
    by_contra present
    exact (directory_of_names names (grown.made place absent present).2).ne_none absent
  · exact grown.kept place absent

/-! ## The program on a tree -/

/-- The place of a file: none for a path that is empty, ends in a slash or cannot be read. -/
def find (system : System) (tree : Tree Bytes UInt32 F) (path : CString) : Option (List Bytes) :=
  if path.bytes.getLast?.getD separator = separator then none
  else (tree.walk (system.start path) (steps path.bytes)).toOption

theorem toOption_walk_eq_some_iff (tree : Tree Bytes UInt32 F) (start place : List Bytes) (steps : List (Step Bytes)) :
    (tree.walk start steps).toOption = some place ↔ tree.Passable start steps ∧ locate start steps = place := by
  rw [← tree.walk_eq_ok_iff]
  cases tree.walk start steps with
  | ok found => simp [Except.toOption]
  | error errno => simp [Except.toOption]

def resolver (system : System) : Resolver CString Bytes UInt32 where
  find := find system
  stable := by
    intro tree other same
    funext path
    unfold find
    congr 1
    refine Option.ext fun place => ?_
    rw [toOption_walk_eq_some_iff, toOption_walk_eq_some_iff]
    refine and_congr_left fun _ => ?_
    exact forall_congr' fun before => forall_congr' fun step => forall_congr' fun after =>
      imp_congr_right fun _ => same.isDirectory_iff _

def mode755 : UInt32 := 493

theorem resolver_find (system : System) (tree : Tree Bytes UInt32 Nat) (path : CString) :
    (resolver system).find tree path = find system tree path := rfl

/-- The file system after a call of `mcs_create_directory`. -/
def makeDirectory (system : System) (path : CString) (mode : UInt32) (fs : FileSystem Bytes UInt32) :
    FileSystem Bytes UInt32 where
  tree := (mcsCreateDirectory system (some path) mode fs.tree).tree
  disk := fs.disk
  agree place ino := ((created_spec system path mode fs.tree).1.node_file_iff place ino).trans (fs.agree place ino)

/-- What a reader of a path finds. A directory can be opened, and gives no line. -/
def readIn (system : System) (fs : FileSystem Bytes UInt32) (path : CString) : Option Bytes :=
  (find system fs.tree path).bind fun place =>
    match fs.look place with
    | some (.file bytes) => some bytes
    | some (.directory _) => some []
    | none => none

/-- `fopen` with `w+b` can have the file. -/
def canOpen (system : System) (fs : FileSystem Bytes UInt32) (path : CString) : Bool :=
  (performed (resolver system) fs.tree (.openTrunc path)).isSome

/-- `mcs_keyfile_new`; it does not look at what `mcs_create_directory` returns. -/
def mcsKeyfileNewIn (system : System) (env : Environment) (domain : CString) (fs : FileSystem Bytes UInt32) :
    Option (FileSystem Bytes UInt32 × Handle T) :=
  (printedScratch env domain).bind fun scratch =>
    (configPath env domain).bind fun loc =>
      let made := makeDirectory system scratch mode755 fs
      (keyfileOpen (readIn system made loc)).map fun kf => (made, ⟨loc, kf⟩)

/-- The world of a save whose `fopen` fails where it cannot have the file. -/
def opening (world : World) (can : Bool) : World :=
  { world with io := Function.update world.io 0 { world.io 0 with ok := (world.io 0).ok && can } }

/-- The file system after `mcs_keyfile_destroy`. -/
def savedIn (system : System) (self : Handle T) (world : World) (fs : FileSystem Bytes UInt32) :
    FileSystem Bytes UInt32 :=
  (FileSystem.execAll (resolver system)
    (saving self (opening world (canOpen system fs (tfile self.loc world.buffer)))) (fs, none)).1

/-- A session: the file system after it, and the replies in it. -/
def runIn (T : Type → Type) [Patricia CString T] (system : System) (env : Environment) (domain : CString)
    (session : Session) (fs : FileSystem Bytes UInt32) : Option (FileSystem Bytes UInt32 × List Reply) :=
  (mcsKeyfileNewIn system env domain fs).map fun (opened : FileSystem Bytes UInt32 × Handle T) =>
    (savedIn system (performAll opened.2 session.ops).1 session.world opened.1, (performAll opened.2 session.ops).2)

def runAllIn (T : Type → Type) [Patricia CString T] (system : System) (env : Environment) (domain : CString) :
    List Session → FileSystem Bytes UInt32 → Option (FileSystem Bytes UInt32 × List Reply)
  | [], fs => some (fs, [])
  | session :: rest, fs =>
    (runIn T system env domain session fs).bind fun done =>
      (runAllIn T system env domain rest done.1).map fun last => (last.1, done.2 ++ last.2)

/-! ## The directory of a domain -/

/-- A configuration of a domain, with a path that is not truncated. -/
structure Home where
  env : Environment
  domain : CString
  scratch : CString
  loc : CString
  printed : printedScratch env domain = some scratch
  path : configPath env domain = some loc
  room : Room loc

def configBase : Bytes := [99, 111, 110, 102, 105, 103]

namespace Home

/-- The names of the file and of its temporary file in their directory. -/
def tmpBase (home : Home) : Bytes := configBase ++ tmpName.bytes.take (pathMax - 1 - strlen home.loc)

/-- The place of the directory, of the file and of the temporary file. -/
def directory (home : Home) (system : System) : List Bytes :=
  locate (system.start home.scratch) (steps home.scratch.bytes)
def config (home : Home) (system : System) : List Bytes := configBase :: home.directory system
def tmp (home : Home) (system : System) : List Bytes := home.tmpBase :: home.directory system

/-- The temporary path of the configuration. -/
def tmpPath (home : Home) : CString := tfile home.loc fun _ => 0

theorem tfile_eq_tmpPath (home : Home) (buffer : BoundedCopy.Memory) : tfile home.loc buffer = home.tmpPath :=
  tfile_congr _ _ _

theorem tmpPath_ne (home : Home) : home.tmpPath ≠ home.loc := home.room.tfile_ne _

theorem loc_bytes (home : Home) : home.loc.bytes = home.scratch.bytes ++ separator :: configBase := by
  have cut := home.path
  rw [configPath_eq, home.printed, Option.map_some, Option.some.injEq] at cut
  have length := congrArg strlen cut
  have room := home.room
  rw [strlen_take] at length
  have whole : (home.scratch.append configName).take (pathMax - 1) = home.scratch.append configName :=
    take_of_strlen_le (by simp only [Room] at room; omega)
  rw [← cut, whole]
  rfl

theorem tmpPath_bytes (home : Home) : home.tmpPath.bytes = home.scratch.bytes ++ separator :: home.tmpBase := by
  have room := home.room
  simp only [Room, strlen] at room
  have whole : home.loc.take (pathMax - 1) = home.loc := take_of_strlen_le (Nat.le_of_lt room)
  rw [tmpPath, tfile_eq, whole]
  show (home.loc.bytes ++ tmpName.bytes).take (pathMax - 1) = _
  rw [List.take_append, List.take_of_length_le (Nat.le_of_lt room), home.loc_bytes, tmpBase, strlen, home.loc_bytes,
    List.append_assoc]
  rfl

theorem scratch_ne (home : Home) : home.scratch ≠ .empty := by
  have printed := home.printed
  rw [printedScratch_eq, Option.map_eq_some_iff] at printed
  obtain ⟨text, directory, cut⟩ := printed
  have long : 0 < strlen text := by
    unfold directoryText at directory
    have slash : strlen slash = 1 := rfl
    have dotted : strlen dotConfig = 9 := rfl
    split at directory
    · cases directory
      rw [strlen_append, strlen_append, slash]
      omega
    · obtain ⟨home, -, rfl⟩ := Option.map_eq_some_iff.mp directory
      rw [strlen_append, strlen_append, dotted]
      omega
  intro empty
  have length := congrArg strlen cut
  rw [empty, snprintf, strlen_take] at length
  have none : strlen CString.empty = 0 := rfl
  unfold pathMax at length
  omega

theorem tmpBase_ne (home : Home) : home.tmpBase ≠ configBase := by
  intro same
  have length := congrArg List.length same
  have room := home.room
  have suffix : tmpName.bytes.length = 4 := rfl
  simp only [Room] at room
  rw [tmpBase, List.length_append, List.length_take, suffix] at length
  omega

theorem plain_tmpBase (home : Home) : separator ∉ home.tmpBase := by
  rw [tmpBase, List.mem_append]
  rintro (inside | suffix)
  · revert inside
    decide
  · exact absurd (List.mem_of_mem_take suffix) (by decide)

theorem length_tmpBase (home : Home) : 6 ≤ home.tmpBase.length := by
  rw [tmpBase, List.length_append]
  exact Nat.le_add_right 6 _

end Home

theorem steps_of_name {name : Bytes} (plain : separator ∉ name) (long : 6 ≤ name.length) :
    steps name = [.down name] := by
  have dotShort : dot.length = 1 := rfl
  have dotDotShort : dotDot.length = 2 := rfl
  have nonempty : name ≠ [] := fun same => by rw [same] at long; simp at long
  have notDot : name ≠ dot := fun same => by rw [same] at long; omega
  have notDotDot : name ≠ dotDot := fun same => by rw [same] at long; omega
  rw [steps, components_of_absent plain, if_neg nonempty, List.map_singleton, stepOf, if_neg notDot, if_neg notDotDot]

/-- A file in a directory is found exactly where the directory is. -/
theorem find_eq_some_iff (system : System) (tree : Tree Bytes UInt32 F) {path scratch : CString} {name : Bytes}
    (bytes : path.bytes = scratch.bytes ++ separator :: name) (nonempty : scratch ≠ .empty)
    (plain : separator ∉ name) (long : 6 ≤ name.length) (place : List Bytes) :
    find system tree path = some place ↔
      NamesDirectory system tree scratch ∧ place = name :: locate (system.start scratch) (steps scratch.bytes) := by
  have start : system.start path = system.start scratch := by
    have first : path.byteAt 0 = scratch.byteAt 0 := by
      rw [CString.byteAt, CString.byteAt, bytes]
      cases empty : scratch.bytes with
      | nil => exact absurd (CString.ext empty) nonempty
      | cons byte rest => rfl
    rw [System.start, System.start, first]
  have ends : path.bytes.getLast?.getD separator ≠ separator := by
    obtain ⟨front, last, split⟩ : ∃ front last, name = front ++ [last] := by
      rcases List.eq_nil_or_concat name with empty | ⟨front, last, split⟩
      · rw [empty] at long
        simp at long
      · exact ⟨front, last, by rw [split, List.concat_eq_append]⟩
    have whole : path.bytes = (scratch.bytes ++ separator :: front) ++ [last] := by
      rw [bytes, split]
      simp
    rw [whole, List.getLast?_concat, Option.getD_some]
    rintro rfl
    exact plain (by rw [split]; simp)
  have down : steps path.bytes = steps scratch.bytes ++ [.down name] := by
    rw [bytes, steps_append_separator, steps_of_name plain long]
  rw [find, if_neg ends, toOption_walk_eq_some_iff, start, down, Tree.passable_concat, locate_concat, names_iff]
  exact and_congr_right fun _ => eq_comm

section
variable (home : Home) (system : System) (tree : Tree Bytes UInt32 F) (place : List Bytes)

theorem find_loc : find system tree home.loc = some place ↔
    NamesDirectory system tree home.scratch ∧ place = home.config system :=
  find_eq_some_iff system tree home.loc_bytes home.scratch_ne (by decide) (by decide) place

theorem find_tmpPath : find system tree home.tmpPath = some place ↔
    NamesDirectory system tree home.scratch ∧ place = home.tmp system :=
  find_eq_some_iff system tree home.tmpPath_bytes home.scratch_ne home.plain_tmpBase home.length_tmpBase place

end

theorem Home.tmp_ne (home : Home) (system : System) : home.tmp system ≠ home.config system :=
  fun same => home.tmpBase_ne (List.cons.inj same).1

/-! ## One save -/

/-- The paths of the file and of its temporary file. -/
def Home.Mine (home : Home) (path : CString) : Prop := path = home.loc ∨ path = home.tmpPath

/-- Where each of them leads, if the directory is there. -/
def Home.naming (home : Home) (system : System) (path : CString) : List Bytes :=
  if path = home.loc then home.config system else home.tmp system

section
variable {home : Home} {system : System}

theorem naming_loc : home.naming system home.loc = home.config system := if_pos rfl

theorem naming_tmpPath : home.naming system home.tmpPath = home.tmp system := if_neg home.tmpPath_ne

theorem naming_injective (path second : CString) (mine : home.Mine path) (other : home.Mine second)
    (same : home.naming system path = home.naming system second) : path = second := by
  rcases mine with rfl | rfl <;> rcases other with rfl | rfl
  · rfl
  · rw [naming_loc, naming_tmpPath] at same
    exact absurd same.symm (home.tmp_ne system)
  · rw [naming_loc, naming_tmpPath] at same
    exact absurd same (home.tmp_ne system)
  · rfl

theorem find_mine {tree : Tree Bytes UInt32 F} {path : CString} (mine : home.Mine path) (place : List Bytes) :
    find system tree path = some place ↔ NamesDirectory system tree home.scratch ∧ place = home.naming system path := by
  rcases mine with rfl | rfl
  · rw [naming_loc]
    exact find_loc home system tree place
  · rw [naming_tmpPath]
    exact find_tmpPath home system tree place

/-- However it goes, a save is about its file and its temporary file. -/
theorem names_saving {self : Handle T} (loc : self.loc = home.loc) (world : World) :
    ∀ call ∈ saving self world, ∀ path ∈ names call, home.Mine path := by
  have tmp : tfile self.loc world.buffer = home.tmpPath := by rw [loc, home.tfile_eq_tmpPath]
  have quiet : ∀ calls : List (Sys CString), (∀ call ∈ calls, call.IsWrite) →
      ∀ call ∈ calls, ∀ path ∈ names call, home.Mine path := by
    intro calls writes call member path named
    have own := writes call member
    cases call with
    | write bytes => cases named
    | _ => exact own.elim
  cases opened : (world.io 0).ok with
  | false =>
    rw [saving_closed self opened]
    exact List.forall_mem_nil _
  | true =>
    obtain ⟨printing, left, run, writes, -⟩ := saving_opened self opened
    rw [run, tmp, loc]
    refine List.forall_mem_cons.mpr ⟨?_, ?_⟩
    · intro path named
      exact .inr (List.mem_singleton.mp named)
    · refine List.forall_mem_append.mpr ⟨quiet _ writes, List.forall_mem_append.mpr ⟨?_,
        List.forall_mem_append.mpr ⟨quiet _ (handOver_writes _ _), List.forall_mem_cons.mpr ⟨nofun,
          List.forall_mem_append.mpr ⟨?_, ?_⟩⟩⟩⟩⟩
      · intro call member path named
        split at member
        · rw [List.mem_singleton.mp member] at named
          cases named
        · cases member
      · intro call member path named
        split at member
        · rw [List.mem_singleton.mp member] at named
          exact .inl (List.mem_singleton.mp named)
        · cases member
      · intro call member path named
        split at member
        · rw [List.mem_singleton.mp member] at named
          exact (List.mem_pair.mp named).symm
        · cases member

/-- The two files of a domain. -/
def Own (home : Home) (system : System) (place : List Bytes) : Prop :=
  place = home.config system ∨ place = home.tmp system

theorem own_naming {path : CString} (mine : home.Mine path) : Own home system (home.naming system path) := by
  rcases mine with rfl | rfl
  · exact .inl naming_loc
  · exact .inr naming_tmpPath

/-- A save changes no directory, and nothing but its two files. -/
theorem savedIn_frame {self : Handle T} (loc : self.loc = home.loc) (world : World) (fs : FileSystem Bytes UInt32) :
    SameDirectories (savedIn system self world fs).tree fs.tree ∧
      ∀ place, ¬ Own home system place → (savedIn system self world fs).look place = fs.look place := by
  refine ⟨(execAll_spec (resolver system) _ fs none).1, ?_⟩
  intro place foreign
  refine FileSystem.execAll_frame (Own home system) ?_ foreign
  intro call member path named found leads
  rw [resolver_find] at leads
  rcases names_saving loc _ call member path named with rfl | rfl
  · exact .inl ((find_loc home system fs.tree found).mp leads).2
  · exact .inr ((find_tmpPath home system fs.tree found).mp leads).2

/-- The directory is there, and no directory takes the name of a file in it. -/
structure Ready (home : Home) (system : System) (tree : Tree Bytes UInt32 F) : Prop where
  names : NamesDirectory system tree home.scratch
  config : ¬ tree.IsDirectory (home.config system)
  tmp : ¬ tree.IsDirectory (home.tmp system)

theorem Ready.openable {tree : Tree Bytes UInt32 F} (ready : Ready home system tree) {path : CString}
    (mine : home.Mine path) : Openable tree (home.naming system path) := by
  have parent : tree.IsDirectory (home.directory system) := ((names_iff system tree home.scratch).mp ready.names).2
  rcases mine with rfl | rfl
  · rw [naming_loc]
    exact ⟨ready.config, parent⟩
  · rw [naming_tmpPath]
    exact ⟨ready.tmp, parent⟩

/-- What a reader finds at the two files is what there is on a disk with plain names. -/
abbrev Sees (home : Home) (system : System) (disk : Disk CString) (fs : FileSystem Bytes UInt32) : Prop :=
  Agree home.Mine (home.naming system) disk fs.disk

theorem opening_true (world : World) : opening world true = world := by
  have same : { world.io 0 with ok := (world.io 0).ok && true } = world.io 0 := by rw [Bool.and_true]
  rw [opening, same, Function.update_eq_self]

theorem canOpen_of_ready {fs : FileSystem Bytes UInt32} (ready : Ready home system fs.tree)
    (buffer : BoundedCopy.Memory) : canOpen system fs (tfile home.loc buffer) = true := by
  have mine : home.Mine home.tmpPath := .inr rfl
  have finds : (resolver system).find fs.tree home.tmpPath = some (home.naming system home.tmpPath) := by
    rw [resolver_find]
    exact (find_mine mine _).mpr ⟨ready.names, rfl⟩
  have performs : performed (resolver system) fs.tree (.openTrunc home.tmpPath) =
      some (renamedCall (home.naming system) (.openTrunc home.tmpPath)) :=
    performed_eq (List.forall_mem_singleton.mpr finds) (List.forall_mem_singleton.mpr (ready.openable mine))
  rw [canOpen, home.tfile_eq_tmpPath, performs]
  rfl

/-- Where all is ready, a save does to the two files what it does on a disk with plain
    names, however it goes. -/
theorem sees_savedIn {self : Handle T} (loc : self.loc = home.loc) (world : World) {fs : FileSystem Bytes UInt32}
    (ready : Ready home system fs.tree) {disk : Disk CString} (sees : Sees home system disk fs) :
    Sees home system (saved self world disk) (savedIn system self world fs) := by
  have calls : (saving self world).filterMap (performed (resolver system) fs.tree) =
      (saving self world).map (renamedCall (home.naming system)) := by
    rw [← List.filterMap_eq_map]
    refine List.filterMap_congr fun call member => ?_
    have mine := names_saving loc world call member
    refine performed_eq (fun path named => ?_) fun path named => ready.openable (mine path named)
    rw [resolver_find]
    exact (find_mine (mine path named) _).mpr ⟨ready.names, rfl⟩
  have run : (savedIn system self world fs).disk =
      (execAll ((saving self world).map (renamedCall (home.naming system))) (fs.disk, none)).1 := by
    have opens : canOpen system fs (tfile self.loc world.buffer) = true := by rw [loc]; exact canOpen_of_ready ready _
    rw [savedIn, opens, opening_true, ← calls]
    exact congrArg Prod.fst (execAll_spec (resolver system) _ fs none).2
  rw [Sees, run]
  exact execAll_agree naming_injective (names_saving loc world) sees .closed

/-! ## Opening -/

theorem makeDirectory_of_names {fs : FileSystem Bytes UInt32} {path : CString}
    (names : NamesDirectory system fs.tree path) (mode : UInt32) : makeDirectory system path mode fs = fs :=
  FileSystem.ext (created_of_names names mode) rfl

theorem mcsKeyfileNewIn_eq (fs : FileSystem Bytes UInt32) :
    (mcsKeyfileNewIn system home.env home.domain fs : Option (FileSystem Bytes UInt32 × Handle T)) =
      (keyfileOpen (readIn system (makeDirectory system home.scratch mode755 fs) home.loc)).map fun kf =>
        (makeDirectory system home.scratch mode755 fs, ⟨home.loc, kf⟩) := by
  rw [mcsKeyfileNewIn, home.printed, home.path]
  rfl

/-- Opening always works: the directory is made as far as it can be, and the file loads. -/
theorem mcsKeyfileNewIn_total_correct (home : Home) (system : System) (fs : FileSystem Bytes UInt32) :
    ∃ self : Handle T, mcsKeyfileNewIn system home.env home.domain fs =
        some (makeDirectory system home.scratch mode755 fs, self) ∧ self.loc = home.loc ∧
      view self.kf = loadFile (readIn system (makeDirectory system home.scratch mode755 fs) home.loc) := by
  obtain ⟨kf, executed, correct⟩ :=
    keyfileOpen_total_correct (T := T) (readIn system (makeDirectory system home.scratch mode755 fs) home.loc)
  exact ⟨⟨home.loc, kf⟩, by rw [mcsKeyfileNewIn_eq, executed, Option.map_some], rfl, correct⟩

theorem readIn_eq_none {fs : FileSystem Bytes UInt32} (missing : ¬ NamesDirectory system fs.tree home.scratch) :
    readIn system fs home.loc = none := by
  cases found : find system fs.tree home.loc with
  | none => rw [readIn, found, Option.bind_none]
  | some place => exact absurd ((find_loc home system fs.tree place).mp found).1 missing

theorem readIn_of_names {fs : FileSystem Bytes UInt32} (names : NamesDirectory system fs.tree home.scratch)
    (free : ¬ fs.tree.IsDirectory (home.config system)) :
    readIn system fs home.loc = fs.disk.content (home.config system) := by
  rw [readIn, (find_loc home system fs.tree _).mpr ⟨names, rfl⟩, Option.bind_some]
  cases looks : fs.look (home.config system) with
  | none =>
    cases content : fs.disk.content (home.config system) with
    | none => rfl
    | some bytes =>
      rw [(fs.look_eq_file_iff _ bytes).mpr content] at looks
      cases looks
  | some node =>
    cases node with
    | directory info => exact absurd ⟨info, (fs.look_eq_directory_iff _ info).mp looks⟩ free
    | file bytes => exact ((fs.look_eq_file_iff _ bytes).mp looks).symm

/-! ## Any sessions on any tree -/

/-- What sessions of a domain leave as it was: every directory, and all else but the two
    files of the domain and what is missing of its directories. -/
structure Framed (home : Home) (system : System) (before after : FileSystem Bytes UInt32) : Prop where
  directories : ∀ place info, before.look place = some (.directory info) → after.look place = some (.directory info)
  new : ∀ place info, after.look place = some (.directory info) →
    before.look place = some (.directory info) ∨
      OnPath system home.scratch place ∧ info = system.permissions mode755
  others : ∀ place, ¬ Own home system place → after.look place = before.look place ∨
    before.look place = none ∧ OnPath system home.scratch place ∧
      after.look place = some (.directory (system.permissions mode755))

theorem framed_self (fs : FileSystem Bytes UInt32) : Framed home system fs fs :=
  ⟨fun _ _ looks => looks, fun _ _ looks => .inl looks, fun _ _ => .inl rfl⟩

theorem Framed.trans {before middle after : FileSystem Bytes UInt32} (first : Framed home system before middle)
    (second : Framed home system middle after) : Framed home system before after := by
  constructor
  · intro place info looks
    exact second.directories place info (first.directories place info looks)
  · intro place info looks
    rcases second.new place info looks with before | made
    · exact first.new place info before
    · exact .inr made
  · intro place foreign
    rcases first.others place foreign with same | ⟨absent, onPath, made⟩
    · rw [← same]
      exact second.others place foreign
    · exact .inr ⟨absent, onPath, second.directories place _ made⟩

theorem framed_makeDirectory (home : Home) (system : System) (fs : FileSystem Bytes UInt32) :
    Framed home system fs (makeDirectory system home.scratch mode755 fs) := by
  have grown := (created_spec system home.scratch mode755 fs.tree).1
  have kept : ∀ place, fs.tree.node place ≠ none →
      (makeDirectory system home.scratch mode755 fs).look place = fs.look place := by
    intro place present
    have same : (makeDirectory system home.scratch mode755 fs).tree.node place = fs.tree.node place :=
      grown.kept place present
    rw [FileSystem.look, FileSystem.look, same]
    rfl
  constructor
  · intro place info looks
    rw [kept place (Tree.IsDirectory.ne_none ⟨info, (fs.look_eq_directory_iff place info).mp looks⟩)]
    exact looks
  · intro place info looks
    by_cases absent : fs.tree.node place = none
    · have made := (FileSystem.look_eq_directory_iff _ place info).mp looks
      obtain ⟨node, onPath⟩ := grown.made place absent (Tree.IsDirectory.ne_none ⟨info, made⟩)
      have same := made.symm.trans node
      rw [Option.some.injEq, Node.directory.injEq] at same
      exact .inr ⟨onPath, same⟩
    · rw [kept place absent] at looks
      exact .inl looks
  · intro place _
    by_cases absent : fs.tree.node place = none
    · have nothing : fs.look place = none := by rw [FileSystem.look, absent, Option.map_none]
      by_cases still : (makeDirectory system home.scratch mode755 fs).tree.node place = none
      · left
        rw [nothing, FileSystem.look, still, Option.map_none]
      · obtain ⟨made, onPath⟩ := grown.made place absent still
        exact .inr ⟨nothing, onPath, (FileSystem.look_eq_directory_iff _ place _).mpr made⟩
    · exact .inl (kept place absent)

theorem framed_savedIn {self : Handle T} (loc : self.loc = home.loc) (world : World) (fs : FileSystem Bytes UInt32) :
    Framed home system fs (savedIn system self world fs) := by
  obtain ⟨directories, others⟩ := savedIn_frame loc world fs
  have same : ∀ place info, (savedIn system self world fs).look place = some (.directory info) ↔
      fs.look place = some (.directory info) := by
    intro place info
    rw [FileSystem.look_eq_directory_iff, FileSystem.look_eq_directory_iff]
    exact directories place info
  refine ⟨fun place info => (same place info).mpr, fun place info looks => .inl ((same place info).mp looks), ?_⟩
  intro place foreign
  exact .inl (others place foreign)

theorem runIn_total_correct (home : Home) (system : System) (session : Session) (fs : FileSystem Bytes UInt32) :
    ∃ after replies, runIn T system home.env home.domain session fs = some (after, replies) ∧
      Framed home system fs after := by
  obtain ⟨self, opened, loc, -⟩ := mcsKeyfileNewIn_total_correct (T := T) home system fs
  refine ⟨_, _, by rw [runIn, opened, Option.map_some], ?_⟩
  exact (framed_makeDirectory home system fs).trans (framed_savedIn ((performAll_loc _ _).trans loc) _ _)

/-- Whatever tree they start in, whatever its directories allow and whichever calls fail:
    sessions of a domain come to an end, and leave all else as it was. -/
theorem runAllIn_frame (home : Home) (system : System) (sessions : List Session) (fs : FileSystem Bytes UInt32) :
    ∃ after replies, runAllIn T system home.env home.domain sessions fs = some (after, replies) ∧
      Framed home system fs after := by
  induction sessions generalizing fs with
  | nil => exact ⟨fs, [], rfl, framed_self fs⟩
  | cons session rest ih =>
    obtain ⟨middle, first, executed, framed⟩ := runIn_total_correct (T := T) home system session fs
    obtain ⟨after, later, run, more⟩ := ih middle
    refine ⟨after, first ++ later, ?_, framed.trans more⟩
    rw [runAllIn, executed, Option.bind_some, run, Option.map_some]

/-! ## Sessions in a tree that has room for them -/

/-- The directory can be made, and the two files in it. -/
structure Usable (home : Home) (system : System) (tree : Tree Bytes UInt32 F) : Prop where
  start : tree.IsDirectory (system.start home.scratch)
  works : system.Works home.scratch
  clear : ∀ place, OnPath system home.scratch place → ¬ tree.IsFile place
  config : ¬ tree.IsDirectory (home.config system) ∧ ¬ OnPath system home.scratch (home.config system)
  tmp : ¬ tree.IsDirectory (home.tmp system) ∧ ¬ OnPath system home.scratch (home.tmp system)

theorem Usable.ready {tree : Tree Bytes UInt32 F} (usable : Usable home system tree) (mode : UInt32) :
    Ready home system (mcsCreateDirectory system (some home.scratch) mode tree).tree := by
  have zero : (mcsCreateDirectory system (some home.scratch) mode tree).result = 0 := by
    refine (mcsCreateDirectory_eq_zero_iff system home.scratch_ne mode tree).mpr ⟨usable.start, ?_, usable.works⟩
    intro before inside _
    exact usable.clear _ ⟨before, inside, rfl⟩
  have grown := (created_spec system home.scratch mode tree).1
  have stays : ∀ place, ¬ tree.IsDirectory place ∧ ¬ OnPath system home.scratch place →
      ¬ (mcsCreateDirectory system (some home.scratch) mode tree).tree.IsDirectory place := by
    rintro place ⟨none, off⟩ ⟨info, directory⟩
    by_cases absent : tree.node place = Option.none
    · exact off (grown.made place absent (by rw [directory]; exact nofun)).2
    · exact none ⟨info, (grown.kept place absent).symm.trans directory⟩
  refine ⟨?_, stays _ usable.config, stays _ usable.tmp⟩
  exact (namesDirectory_of_zero home.scratch_ne zero).mpr (usable.clear _ ⟨_, List.prefix_refl _, rfl⟩)

theorem Ready.same {tree other : Tree Bytes UInt32 Nat} (ready : Ready home system tree)
    (same : SameDirectories other tree) : Ready home system other := by
  obtain ⟨passable, is⟩ := (names_iff system tree home.scratch).mp ready.names
  refine ⟨(names_iff system other home.scratch).mpr ⟨?_, (same.isDirectory_iff _).mpr is⟩, ?_, ?_⟩
  · exact fun before step after split => (same.isDirectory_iff _).mpr (passable before step after split)
  · exact mt (same.isDirectory_iff _).mp ready.config
  · exact mt (same.isDirectory_iff _).mp ready.tmp

/-- The file of a ready directory loads as on a disk with plain names. -/
theorem readIn_of_ready {fs : FileSystem Bytes UInt32} (ready : Ready home system fs.tree) {disk : Disk CString}
    (sees : Sees home system disk fs) : readIn system fs home.loc = disk.content home.loc := by
  rw [readIn_of_names ready.names ready.config, sees home.loc (.inl rfl), naming_loc]

theorem runIn_sees {fs : FileSystem Bytes UInt32}
    (ready : Ready home system (makeDirectory system home.scratch mode755 fs).tree) {disk : Disk CString}
    (sees : Sees home system disk fs) (session : Session) :
    ∃ after next replies, runIn T system home.env home.domain session fs = some (after, replies) ∧
      session.run T home.env home.domain disk = some (next, replies) ∧ Sees home system next after ∧
      Ready home system after.tree := by
  have reads : readIn system (makeDirectory system home.scratch mode755 fs) home.loc = disk.content home.loc :=
    readIn_of_ready ready sees
  obtain ⟨kf, executed, -⟩ := keyfileOpen_total_correct (T := T) (disk.content home.loc)
  have opened : mcsKeyfileNewIn system home.env home.domain fs =
      some (makeDirectory system home.scratch mode755 fs, (⟨home.loc, kf⟩ : Handle T)) := by
    rw [mcsKeyfileNewIn_eq, reads, executed, Option.map_some]
  have openedFlat : mcsKeyfileNew home.env home.domain disk = some (⟨home.loc, kf⟩ : Handle T) := by
    rw [mcsKeyfileNew, home.path, Option.bind_some, executed, Option.map_some]
  have loc : (performAll (⟨home.loc, kf⟩ : Handle T) session.ops).1.loc = home.loc := performAll_loc _ _
  refine ⟨_, _, _, by rw [runIn, opened, Option.map_some], by rw [Session.run, openedFlat, Option.map_some], ?_, ?_⟩
  · exact sees_savedIn loc session.world ready sees
  · exact ready.same (savedIn_frame loc session.world _).1

theorem runAllIn_sees (sessions : List Session) {fs : FileSystem Bytes UInt32}
    (ready : Ready home system (makeDirectory system home.scratch mode755 fs).tree) {disk : Disk CString}
    (sees : Sees home system disk fs) :
    ∃ after next replies, runAllIn T system home.env home.domain sessions fs = some (after, replies) ∧
      runAll T home.env home.domain sessions disk = some (next, replies) ∧ Sees home system next after := by
  induction sessions generalizing fs disk with
  | nil => exact ⟨fs, disk, [], rfl, rfl, sees⟩
  | cons session rest ih =>
    obtain ⟨middle, between, first, executed, flat, sees, ready⟩ := runIn_sees (T := T) ready sees session
    rw [← makeDirectory_of_names ready.names mode755] at ready
    obtain ⟨after, next, later, run, runFlat, sees⟩ := ih ready sees
    refine ⟨after, next, first ++ later, ?_, ?_, sees⟩
    · rw [runAllIn, executed, Option.bind_some, run, Option.map_some]
    · rw [runAll, flat, Option.bind_some, runFlat, Option.map_some]

/-- Where the directory can be made, sessions in a tree behave as on a disk whose names
    are whole paths, whichever of their calls fail: they give the same replies, and leave
    the same in the two files. -/
theorem runAllIn_refines {fs : FileSystem Bytes UInt32} (usable : Usable home system fs.tree) {disk : Disk CString}
    (sees : Sees home system disk fs) (sessions : List Session) :
    ∃ after next replies, runAllIn T system home.env home.domain sessions fs = some (after, replies) ∧
      runAll T home.env home.domain sessions disk = some (next, replies) ∧ Sees home system next after :=
  runAllIn_sees sessions (usable.ready mode755) sees

/-! ## What success of a set promises in a tree -/

theorem canOpen_eq_false {fs : FileSystem Bytes UInt32} (buffer : BoundedCopy.Memory)
    (closed : ¬ (NamesDirectory system fs.tree home.scratch ∧ ¬ fs.tree.IsDirectory (home.tmp system))) :
    canOpen system fs (tfile home.loc buffer) = false := by
  rw [canOpen, home.tfile_eq_tmpPath, Option.isSome_eq_false_iff, Option.isNone_iff_eq_none, performed,
    Option.filter_eq_none_iff]
  intro act locates fits
  rw [located, Option.map_eq_some_iff] at locates
  obtain ⟨place, leads, rfl⟩ := locates
  rw [resolver_find, find_tmpPath] at leads
  have openable := of_decide_eq_true fits place (List.mem_singleton.mpr rfl)
  exact closed ⟨leads.1, leads.2 ▸ openable.1⟩

/-- Where the temporary file cannot be had, nothing is saved. -/
theorem savedIn_closed {self : Handle T} (loc : self.loc = home.loc) (world : World) {fs : FileSystem Bytes UInt32}
    (closed : ¬ (NamesDirectory system fs.tree home.scratch ∧ ¬ fs.tree.IsDirectory (home.tmp system))) :
    savedIn system self world fs = fs := by
  have none : ((opening world false).io 0).ok = false := by simp [opening]
  have never : canOpen system fs (tfile self.loc world.buffer) = false := by
    rw [loc]
    exact canOpen_eq_false _ closed
  rw [savedIn, never, saving_closed self none]
  rfl

theorem readIn_of_directory {fs : FileSystem Bytes UInt32} (names : NamesDirectory system fs.tree home.scratch)
    (is : fs.tree.IsDirectory (home.config system)) : readIn system fs home.loc = some [] := by
  obtain ⟨info, directory⟩ := is
  rw [readIn, (find_loc home system fs.tree _).mpr ⟨names, rfl⟩, Option.bind_some,
    (fs.look_eq_directory_iff _ info).mpr directory]

/-- A set that reports success, in a handle that is saved in the tree then, is read back
    by the next handle. -/
def DurableIn (home : Home) (system : System) (self : Handle T) (sect key value : CString) (world : World)
    (fs : FileSystem Bytes UInt32) : Prop :=
  (Op.perform (.setString sect key value) self).2.response = .MCS_OK →
    ∃ (after : FileSystem Bytes UInt32) (next : Handle T),
      mcsKeyfileNewIn system home.env home.domain
        (savedIn system (Op.perform (.setString sect key value) self).1 world fs) = some (after, next) ∧
        ∀ old, keyfileGetString next.kf sect key old = (.MCS_OK, some value)

theorem durableIn_iff_load (self : Handle T) (sect key value : CString) (world : World)
    (fs : FileSystem Bytes UInt32) : DurableIn home system self sect key value world fs ↔
      (loadFile (readIn system (makeDirectory system home.scratch mode755
        (savedIn system (Op.perform (.setString sect key value) self).1 world fs)) home.loc)).get sect key =
        some value := by
  obtain ⟨next, opened, _, loaded⟩ := mcsKeyfileNewIn_total_correct (T := T) home system
    (savedIn system (Op.perform (.setString sect key value) self).1 world fs)
  rw [← loaded, ← keyfileGetString_found]
  constructor
  · intro durable
    obtain ⟨after, other, openedOther, read⟩ := durable rfl
    rw [opened] at openedOther
    cases openedOther
    exact read
  · intro read _
    exact ⟨_, next, opened, read⟩

theorem makeDirectory_again (system : System) (path : CString) (mode : UInt32) (fs : FileSystem Bytes UInt32) :
    makeDirectory system path mode (makeDirectory system path mode fs) = makeDirectory system path mode fs :=
  FileSystem.ext (created_spec system path mode fs.tree).2 rfl

instance (home : Home) : DecidablePred home.Mine := fun path =>
  inferInstanceAs (Decidable (path = home.loc ∨ path = home.tmpPath))

/-- Some disk with plain names is what a tree shows at the two files. -/
theorem exists_sees (home : Home) (system : System) (fs : FileSystem Bytes UInt32) :
    ∃ disk, Sees home system disk fs := ⟨_, agree_pulled fs.disk naming_injective⟩

section
variable {fs : FileSystem Bytes UInt32} {self : Handle T} {world : World}

/-- Where all is ready, the file is the whole serialisation after a save in which
    nothing goes wrong. -/
theorem content_savedIn (loc : self.loc = home.loc) (fine : world.Fine) (ready : Ready home system fs.tree) :
    (savedIn system self world fs).disk.content (home.config system) = some (serialise self.kf) := by
  obtain ⟨disk, sees⟩ := exists_sees home system fs
  have content := saved_content_loc self fine (by rw [loc]; exact home.room.tfile_ne _) disk
  have moved := sees_savedIn loc world ready sees home.loc (.inl rfl)
  rw [naming_loc] at moved
  rw [← moved, ← loc, content]

theorem readIn_savedIn (loc : self.loc = home.loc) (fine : world.Fine) (ready : Ready home system fs.tree) :
    readIn system (makeDirectory system home.scratch mode755 (savedIn system self world fs)) home.loc =
      some (serialise self.kf) := by
  have after : Ready home system (savedIn system self world fs).tree := ready.same (savedIn_frame loc world fs).1
  rw [makeDirectory_of_names after.names, readIn_of_names after.names after.config, content_savedIn loc fine ready]

/-- Where the file's name is a directory's, the next handle reads nothing. -/
theorem load_of_directory (loc : self.loc = home.loc) (names : NamesDirectory system fs.tree home.scratch)
    (is : fs.tree.IsDirectory (home.config system)) :
    loadFile (readIn system (makeDirectory system home.scratch mode755 (savedIn system self world fs)) home.loc) =
      .empty := by
  have same : SameDirectories (savedIn system self world fs).tree fs.tree := (savedIn_frame loc world fs).1
  obtain ⟨passable, directory⟩ := (names_iff system fs.tree home.scratch).mp names
  have still : NamesDirectory system (savedIn system self world fs).tree home.scratch :=
    (names_iff system _ home.scratch).mpr ⟨fun before step after split =>
      (same.isDirectory_iff _).mpr (passable before step after split), (same.isDirectory_iff _).mpr directory⟩
  rw [makeDirectory_of_names still, readIn_of_directory still ((same.isDirectory_iff _).mpr is)]
  rfl

end

/-- After `mcs_create_directory` has done what it can, a set that reports success is
    read back by the next handle exactly where the directory is there, no directory has
    the name of the file, and the format carries the entry. Only where a directory has
    the name of the temporary file, it is read back if the old file said it already. -/
theorem durableIn_iff (home : Home) (system : System) (fs : FileSystem Bytes UInt32) {self : Handle T}
    (loc : self.loc = home.loc) (held : Representable (view self.kf)) (sect key value : CString) {world : World}
    (fine : world.Fine) :
    DurableIn home system self sect key value world (makeDirectory system home.scratch mode755 fs) ↔
      NamesDirectory system (makeDirectory system home.scratch mode755 fs).tree home.scratch ∧
      ¬ (makeDirectory system home.scratch mode755 fs).tree.IsDirectory (home.config system) ∧
      if (makeDirectory system home.scratch mode755 fs).tree.IsDirectory (home.tmp system) then
        (loadFile (fs.disk.content (home.config system))).get sect key = some value
      else SectionOk sect ∧ EntryOk key value := by
  have again := makeDirectory_again system home.scratch mode755 fs
  have disk : (makeDirectory system home.scratch mode755 fs).disk = fs.disk := rfl
  have changed : (Op.perform (.setString sect key value) self).1.loc = home.loc := loc
  rw [durableIn_iff_load]
  generalize makeDirectory system home.scratch mode755 fs = made at again disk ⊢
  by_cases names : NamesDirectory system made.tree home.scratch
  · rw [and_iff_right names]
    by_cases config : made.tree.IsDirectory (home.config system)
    · rw [load_of_directory changed names config]
      exact ⟨nofun, fun both => absurd config both.1⟩
    · rw [and_iff_right config]
      by_cases tmp : made.tree.IsDirectory (home.tmp system)
      · rw [if_pos tmp, savedIn_closed changed world fun both => both.2 tmp, again, readIn_of_names names config, disk]
      · rw [if_neg tmp, readIn_savedIn changed fine ⟨names, config, tmp⟩]
        exact reread_iff held sect key value
  · rw [savedIn_closed changed world fun both => names both.1, again, readIn_eq_none names]
    exact ⟨nofun, fun both => absurd both.1 names⟩

end

/-! ### A domain in an empty tree -/

/-- The domain `b` below `a`, relative to where the process is. -/
def homeAB : Home where
  env := directoryA
  domain := nameB
  scratch := ⟨[97, 47, 98], by decide⟩
  loc := pathAB
  printed := rfl
  path := configPath_directoryA
  room := room_pathAB

/-- A root directory without any content. -/
def bareSystem : FileSystem Bytes UInt32 where
  tree := {
    node := fun place => if place = [] then some (.directory mode755) else none
    root := ⟨mode755, rfl⟩
    parent := fun name place present => absurd (if_neg (List.cons_ne_nil name place)) present
    finite := by
      refine (Set.finite_singleton []).subset fun place present => ?_
      by_contra outside
      exact present (if_neg outside) }
  disk := .empty
  agree := by
    intro place ino
    by_cases root : place = []
    · simp [root, Disk.empty]
    · simp [root, Disk.empty]

/-- A path of two names leads through short places only. -/
theorem length_onPath {home : Home} {first second : Bytes}
    (path : steps home.scratch.bytes = [first, second].map .down) (start : undisturbed.start home.scratch = [])
    {place : List Bytes} (onPath : OnPath undisturbed home.scratch place) : place.length ≤ 2 := by
  obtain ⟨before, inside, rfl⟩ := onPath
  rw [path] at inside
  rw [start]
  exact (locate_suffix inside []).length_le

theorem usable_of_two {home : Home} {first second : Bytes}
    (path : steps home.scratch.bytes = [first, second].map .down) (start : undisturbed.start home.scratch = []) :
    Usable home undisturbed bareSystem.tree := by
  have only : ∀ place, bareSystem.tree.node place ≠ none → place = [] := by
    intro place present
    by_contra other
    exact present (if_neg other)
  have deep : home.directory undisturbed = [second, first] := by
    rw [Home.directory, start, path, locate_downs]
    rfl
  have outside : ∀ place : List Bytes, 2 < place.length →
      ¬ bareSystem.tree.IsDirectory place ∧ ¬ OnPath undisturbed home.scratch place := by
    intro place long
    refine ⟨fun is => ?_, fun on => absurd (length_onPath path start on) (Nat.not_le_of_lt long)⟩
    rw [only place is.ne_none] at long
    exact absurd long (by decide)
  have config : 2 < (home.config undisturbed).length := by rw [Home.config, deep]; simp
  have tmp : 2 < (home.tmp undisturbed).length := by rw [Home.tmp, deep]; simp
  refine ⟨start ▸ ⟨mode755, rfl⟩, fun _ _ => rfl, ?_, outside _ config, outside _ tmp⟩
  intro place _ file
  obtain ⟨ino, held⟩ := file
  rw [only place (by rw [held]; exact nofun)] at held
  cases held

theorem steps_homeAB : steps homeAB.scratch.bytes = [[97], [98]].map .down := by decide

theorem usable_homeAB : Usable homeAB undisturbed bareSystem.tree :=
  usable_of_two steps_homeAB rfl

theorem sees_empty (home : Home) (system : System) : Sees home system .empty bareSystem := fun _ _ => rfl

/-- One session sets an entry in a directory that it makes, the next one reads it. -/
theorem runAllIn_refines_two : ∃ after next replies,
    runAllIn (Assoc false CString) undisturbed directoryA nameB
        [⟨[.setString nameA nameA nameB], calm 4096⟩, ⟨[.getString nameA nameA none], calm 4096⟩] bareSystem =
      some (after, replies) ∧
    runAll (Assoc false CString) directoryA nameB
        [⟨[.setString nameA nameA nameB], calm 4096⟩, ⟨[.getString nameA nameA none], calm 4096⟩] .empty =
      some (next, replies) ∧ Sees homeAB undisturbed next after :=
  runAllIn_refines usable_homeAB (sees_empty homeAB undisturbed) _

theorem durableIn_iff_carried : DurableIn homeAB undisturbed (⟨pathAB, keyfileNew⟩ : Handle (Assoc false CString))
    nameA nameA nameB (calm 4096) (makeDirectory undisturbed homeAB.scratch mode755 bareSystem) := by
  have ready := usable_homeAB.ready mode755
  have empty : Representable (view (keyfileNew : Keyfile (Assoc false CString))) := by
    rw [view_keyfileNew]
    exact empty_representable
  refine (durableIn_iff homeAB undisturbed bareSystem rfl empty nameA nameA nameB (calm_fine 4096)).mpr ?_
  refine ⟨ready.names, ready.config, ?_⟩
  rw [if_neg]
  · exact ⟨sectionOk_nameA, entryOk_nameA_nameB⟩
  · exact ready.tmp

end Mcs.Homes
