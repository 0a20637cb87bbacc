import Mcs.Footprints
import Mcs.Trees

/-!
A file system: a tree of directories and the files in it, each with what is on the
disk for it. A process names files by paths. Its calls change no directory, and do to
the disk what they come to at the places that the paths lead to (`execAll_spec`).
-/
namespace Mcs.FileTrees
open Mcs.Files Mcs.Footprints Mcs.Trees

variable {Name D F : Type}

/-- A file can be there: not where a directory is, and in a directory only. -/
def Openable (tree : Tree Name D F) (place : List Name) : Prop :=
  ¬ tree.IsDirectory place ∧ tree.IsDirectory place.tail

instance (tree : Tree Name D F) (place : List Name) : Decidable (Openable tree place) :=
  inferInstanceAs (Decidable (_ ∧ _))

theorem openable_of_file {tree : Tree Name D F} {place : List Name} (is : tree.IsFile place) : Openable tree place := by
  refine ⟨fun directory => directory.not_file is, ?_⟩
  cases place with
  | nil => exact absurd is (Tree.IsDirectory.not_file tree.root)
  | cons name above => exact tree.parent name above is.ne_none

/-- A tree, and a disk that has a name for each file of it. -/
@[ext] structure FileSystem (Name D : Type) where
  tree : Tree Name D Nat
  disk : Disk (List Name)
  agree : ∀ place ino, tree.node place = some (.file ino) ↔ disk.dir place = some ino

/-- What there is at a place. -/
def FileSystem.look (fs : FileSystem Name D) (place : List Name) : Option (Node D Strings.Bytes) :=
  (fs.tree.node place).map fun node => match node with
    | .directory info => .directory info
    | .file ino => .file (fs.disk.data ino)

theorem FileSystem.isFile_iff (fs : FileSystem Name D) (place : List Name) :
    fs.tree.IsFile place ↔ fs.disk.dir place ≠ none := by
  rw [Option.ne_none_iff_exists']
  exact exists_congr fun ino => fs.agree place ino

/-- The content of a place is what the disk has for its name. -/
theorem FileSystem.look_eq_file_iff (fs : FileSystem Name D) (place : List Name) (bytes : Strings.Bytes) :
    fs.look place = some (.file bytes) ↔ fs.disk.content place = some bytes := by
  rw [look, Disk.content]
  cases held : fs.disk.dir place with
  | some ino =>
    rw [(fs.agree place ino).mpr held]
    simp
  | none =>
    have none : ∀ ino, fs.tree.node place ≠ some (.file ino) := fun ino file => by
      rw [(fs.agree place ino).mp file] at held
      cases held
    cases node : fs.tree.node place with
    | none => simp
    | some found =>
      cases found with
      | directory info => simp
      | file ino => exact absurd node (none ino)

theorem FileSystem.look_eq_directory_iff (fs : FileSystem Name D) (place : List Name) (info : D) :
    fs.look place = some (.directory info) ↔ fs.tree.node place = some (.directory info) := by
  rw [look]
  cases fs.tree.node place with
  | none => simp
  | some found => cases found <;> simp

/-- A directory that stays, or the file that a name leads to. -/
def merged : Option (Node D Nat) → Option Nat → Option (Node D Nat)
  | some (.directory info), _ => some (.directory info)
  | _, named => named.map .file

theorem merged_eq_directory_iff (node : Option (Node D Nat)) (named : Option Nat) (info : D) :
    merged node named = some (.directory info) ↔ node = some (.directory info) := by
  rcases node with _ | _ | _ <;> simp [merged]

theorem merged_eq_file_iff (node : Option (Node D Nat)) (named : Option Nat) (ino : Nat) :
    merged node named = some (.file ino) ↔ (∀ info, node ≠ some (.directory info)) ∧ named = some ino := by
  rcases node with _ | _ | _ <;> simp [merged]

/-- The same directories with another disk, whose files lie where files can be. -/
def FileSystem.withDisk (fs : FileSystem Name D) (disk : Disk (List Name))
    (inside : ∀ place, disk.dir place ≠ none → Openable fs.tree place)
    (finite : {place | disk.dir place ≠ none}.Finite) : FileSystem Name D where
  tree := {
    node := fun place => merged (fs.tree.node place) (disk.dir place)
    root := by
      obtain ⟨info, held⟩ := fs.tree.root
      exact ⟨info, (merged_eq_directory_iff _ _ _).mpr held⟩
    parent := by
      intro name above present
      have up : fs.tree.IsDirectory above := by
        cases held : fs.tree.node (name :: above) with
        | none =>
          rw [held] at present
          exact (inside (name :: above) fun unnamed => present (by rw [unnamed]; rfl)).2
        | some node => exact fs.tree.parent name above (by rw [held]; exact nofun)
      obtain ⟨info, held⟩ := up
      exact ⟨info, (merged_eq_directory_iff _ _ _).mpr held⟩
    finite := by
      refine (fs.tree.finite.union finite).subset fun place present => ?_
      by_cases absent : fs.tree.node place = none
      · refine .inr fun unnamed => present ?_
        rw [absent, unnamed]
        rfl
      · exact .inl absent }
  disk := disk
  agree := by
    intro place ino
    rw [merged_eq_file_iff]
    refine and_iff_right_of_imp fun named info held => ?_
    exact (inside place (by rw [named]; exact nofun)).1 ⟨info, held⟩

/-! ## Making directories -/

/-- All that `next` has and `tree` does not are directories at some of the places. -/
structure Grown (tree next : Tree Name D F) (info : D) (places : List Name → Prop) : Prop where
  kept : ∀ place, tree.node place ≠ none → next.node place = tree.node place
  made : ∀ place, tree.node place = none → next.node place ≠ none →
    next.node place = some (.directory info) ∧ places place

section
variable {tree next last : Tree Name D F} {info : D} {places : List Name → Prop}

theorem grown_self (tree : Tree Name D F) (info : D) (places : List Name → Prop) : Grown tree tree info places :=
  ⟨fun _ _ => rfl, fun _ absent present => absurd absent present⟩

theorem Grown.trans (first : Grown tree next info places) (second : Grown next last info places) :
    Grown tree last info places := by
  constructor
  · intro place present
    have kept := first.kept place present
    rw [← kept] at present ⊢
    exact second.kept place present
  · intro place absent present
    by_cases early : next.node place = none
    · exact second.made place early present
    · rw [second.kept place early]
      exact first.made place absent early

theorem Grown.weaken (grown : Grown tree next info places) {more : List Name → Prop}
    (sub : ∀ place, places place → more place) : Grown tree next info more :=
  ⟨grown.kept, fun place absent present => (grown.made place absent present).imp_right (sub place)⟩

theorem Grown.isDirectory (grown : Grown tree next info places) {place : List Name} (is : tree.IsDirectory place) :
    next.IsDirectory place := by
  obtain ⟨held, node⟩ := is
  exact ⟨held, (grown.kept place (by rw [node]; exact nofun)).trans node⟩

theorem Grown.passable (grown : Grown tree next info places) {start : List Name} {steps : List (Step Name)}
    (passable : tree.Passable start steps) : next.Passable start steps :=
  fun before step after split => grown.isDirectory (passable before step after split)

theorem Grown.node_file_iff (grown : Grown tree next info places) (place : List Name) (content : F) :
    next.node place = some (.file content) ↔ tree.node place = some (.file content) := by
  by_cases absent : tree.node place = none
  · rw [absent]
    refine ⟨fun file => ?_, nofun⟩
    have directory := (grown.made place absent (by rw [file]; exact nofun)).1
    rw [file] at directory
    cases directory
  · rw [grown.kept place absent]

/-- Where a directory is made, there was nothing. -/
theorem grown_of_mkdir [DecidableEq Name] {start : List Name} {steps : List (Step Name)}
    (made : tree.mkdir start steps info = .ok next) : Grown tree next info (· = locate start steps) ∧
      next.Passable start steps ∧ next.node (locate start steps) ≠ none := by
  unfold Tree.mkdir at made
  split at made
  · cases made
  · cases made
  · rename_i name above walk
    obtain ⟨passable, leads⟩ := (tree.walk_eq_ok_iff start _ steps).mp walk
    split at made
    · rename_i absent
      split at made
      · rename_i parent
        cases made
        have new : (tree.create name above info parent absent).node (name :: above) = some (.directory info) :=
          Function.update_self ..
        have others : ∀ place, place ≠ name :: above →
            (tree.create name above info parent absent).node place = tree.node place :=
          fun place differ => Function.update_of_ne differ ..
        have grown : Grown tree (tree.create name above info parent absent) info (· = locate start steps) := by
          constructor
          · intro place present
            exact others place fun same => present (same ▸ absent)
          · intro place missing present
            by_cases here : place = name :: above
            · exact ⟨here ▸ new, here.trans leads.symm⟩
            · exact absurd (others place here ▸ missing) present
        refine ⟨grown, grown.passable passable, ?_⟩
        rw [leads, new]
        exact nofun
      · cases made
    · cases made

theorem present_of_mkdir [DecidableEq Name] {start : List Name} {steps : List (Step Name)}
    (there : tree.mkdir start steps info = .error .EEXIST) :
    tree.Passable start steps ∧ tree.node (locate start steps) ≠ none := by
  by_cases passable : tree.Passable start steps
  · refine ⟨passable, fun absent => ?_⟩
    rw [Tree.mkdir, (tree.walk_eq_ok_iff start _ steps).mpr ⟨passable, rfl⟩] at there
    cases place : locate start steps with
    | nil =>
      rw [place] at absent
      exact Tree.IsDirectory.ne_none tree.root absent
    | cons name above =>
      rw [place] at absent there
      simp only [dif_pos absent] at there
      split at there <;> cases there
  · obtain ⟨errno, call, other⟩ := Tree.mkdir_of_blocked passable info
    rw [call] at there
    exact absurd (Except.error.inj there) other

end

/-! ## Calls -/

/-- Two trees have the same directories. -/
def SameDirectories (tree other : Tree Name D F) : Prop :=
  ∀ place info, tree.node place = some (.directory info) ↔ other.node place = some (.directory info)

theorem SameDirectories.isDirectory_iff {tree other : Tree Name D F} (same : SameDirectories tree other)
    (place : List Name) : tree.IsDirectory place ↔ other.IsDirectory place :=
  exists_congr fun info => same place info

theorem SameDirectories.openable_iff {tree other : Tree Name D F} (same : SameDirectories tree other)
    (place : List Name) : Openable tree place ↔ Openable other place :=
  and_congr (not_congr (same.isDirectory_iff place)) (same.isDirectory_iff place.tail)

theorem SameDirectories.trans {tree other third : Tree Name D F} (first : SameDirectories tree other)
    (second : SameDirectories other third) : SameDirectories tree third :=
  fun place info => (first place info).trans (second place info)

theorem SameDirectories.symm {tree other : Tree Name D F} (same : SameDirectories tree other) :
    SameDirectories other tree := fun place info => (same place info).symm

/-- How paths lead to places. Files do not matter for it. -/
structure Resolver (Path Name D : Type) where
  find : Tree Name D Nat → Path → Option (List Name)
  stable : ∀ tree other, SameDirectories tree other → find tree = find other

/-- A call about places, where all its paths lead somewhere. -/
def located {Path : Type} (find : Path → Option (List Name)) : Sys Path → Option (Sys (List Name))
  | .openTrunc path => (find path).map .openTrunc
  | .write bytes => some (.write bytes)
  | .fsync => some .fsync
  | .close => some .close
  | .unlink path => (find path).map .unlink
  | .rename old new => (find old).bind fun place => (find new).map fun target => .rename place target

/-- The call on places that a call comes to: none where a path of it leads nowhere, and
    none where it would put a file on a directory or outside of one. -/
def performed {Path : Type} (resolver : Resolver Path Name D) (tree : Tree Name D Nat) (call : Sys Path) :
    Option (Sys (List Name)) :=
  (located (resolver.find tree) call).filter fun call => decide (∀ place ∈ targets call, Openable tree place)

theorem performed_fits {Path : Type} {resolver : Resolver Path Name D} {tree : Tree Name D Nat} {call : Sys Path}
    {act : Sys (List Name)} (performs : performed resolver tree call = some act) :
    ∀ place ∈ targets act, Openable tree place :=
  of_decide_eq_true (Option.filter_eq_some_iff.mp performs).2

theorem performed_congr {Path : Type} (resolver : Resolver Path Name D) {tree other : Tree Name D Nat}
    (same : SameDirectories tree other) : performed resolver tree = performed resolver other := by
  funext call
  rw [performed, performed, resolver.stable tree other same]
  congr 1
  funext act
  exact decide_eq_decide.mpr (forall₂_congr fun place _ => same.openable_iff place)

section
variable [DecidableEq Name]

theorem FileSystem.exec_inside (fs : FileSystem Name D) {call : Sys (List Name)} (fd : Option Fd)
    (fits : ∀ place ∈ targets call, Openable fs.tree place) (place : List Name)
    (named : (call.exec fs.disk fd).1.dir place ≠ none) : Openable fs.tree place := by
  rcases dir_exec named with before | target
  · exact openable_of_file ((fs.isFile_iff place).mpr before)
  · exact fits place target

theorem FileSystem.exec_finite (fs : FileSystem Name D) (call : Sys (List Name)) (fd : Option Fd) :
    {place | (call.exec fs.disk fd).1.dir place ≠ none}.Finite := by
  refine (fs.tree.finite.union (List.finite_toSet (targets call))).subset fun place named => ?_
  rcases dir_exec named with before | target
  · exact .inl ((fs.isFile_iff place).mpr before).ne_none
  · exact .inr target

variable {Path : Type} (resolver : Resolver Path Name D)

/-- What a call of a process does to the system and to the file that it has open; a call
    that fails does nothing. -/
def FileSystem.exec (call : Sys Path) (fs : FileSystem Name D) (fd : Option Fd) : FileSystem Name D × Option Fd :=
  match performs : performed resolver fs.tree call with
  | none => (fs, fd)
  | some act =>
    (fs.withDisk (act.exec fs.disk fd).1 (fs.exec_inside fd (performed_fits performs)) (fs.exec_finite act fd),
      (act.exec fs.disk fd).2)

/-- The calls of one process, nothing else running. -/
def FileSystem.execAll (calls : List (Sys Path)) (start : FileSystem Name D × Option Fd) :
    FileSystem Name D × Option Fd :=
  calls.foldl (fun st call => st.1.exec resolver call st.2) start

/-- A call changes no directory, and does to the disk what it comes to. -/
theorem exec_spec (call : Sys Path) (fs : FileSystem Name D) (fd : Option Fd) :
    SameDirectories (fs.exec resolver call fd).1.tree fs.tree ∧
      ((fs.exec resolver call fd).1.disk, (fs.exec resolver call fd).2) =
        Files.execAll (performed resolver fs.tree call).toList (fs.disk, fd) := by
  unfold FileSystem.exec
  split
  · rename_i none
    rw [none]
    exact ⟨fun _ _ => Iff.rfl, rfl⟩
  · rename_i act performs
    have effect : Files.execAll (performed resolver fs.tree call).toList (fs.disk, fd) = act.exec fs.disk fd := by
      rw [performs]
      rfl
    exact ⟨fun place info => merged_eq_directory_iff _ _ _, effect.symm⟩

/-- Calls change no directory, and do to the disk what they come to in the system that
    they start from. -/
theorem execAll_spec (calls : List (Sys Path)) (fs : FileSystem Name D) (fd : Option Fd) :
    SameDirectories (FileSystem.execAll resolver calls (fs, fd)).1.tree fs.tree ∧
      ((FileSystem.execAll resolver calls (fs, fd)).1.disk, (FileSystem.execAll resolver calls (fs, fd)).2) =
        Files.execAll (calls.filterMap (performed resolver fs.tree)) (fs.disk, fd) := by
  induction calls generalizing fs fd with
  | nil => exact ⟨fun _ _ => Iff.rfl, rfl⟩
  | cons call rest ih =>
    obtain ⟨directories, disk⟩ := exec_spec resolver call fs fd
    obtain ⟨later, calls⟩ := ih (fs.exec resolver call fd).1 (fs.exec resolver call fd).2
    refine ⟨later.trans directories, calls.trans ?_⟩
    rw [performed_congr resolver directories, disk, ← execAll_append]
    cases performs : performed resolver fs.tree call with
    | none => rw [List.filterMap_cons_none performs]; rfl
    | some act => rw [List.filterMap_cons_some performs]; rfl

end

/-! ## What there is at a place -/

/-- Systems with the same directories look the same where their disks hold the same. -/
theorem look_congr {fs other : FileSystem Name D} (same : SameDirectories fs.tree other.tree) {place : List Name}
    (content : fs.disk.content place = other.disk.content place) : fs.look place = other.look place := by
  refine Option.ext fun node => ?_
  cases node with
  | directory info => rw [fs.look_eq_directory_iff, other.look_eq_directory_iff, same place info]
  | file bytes => rw [fs.look_eq_file_iff, other.look_eq_file_iff, content]

theorem located_names {Path : Type} {find : Path → Option (List Name)} {call : Sys Path} {act : Sys (List Name)}
    (locates : located find call = some act) (place : List Name) (named : place ∈ names act) :
    ∃ path ∈ names call, find path = some place := by
  cases call with
  | openTrunc path =>
    obtain ⟨found, leads, rfl⟩ := Option.map_eq_some_iff.mp locates
    rw [List.mem_singleton.mp named]
    exact ⟨path, List.mem_cons_self, leads⟩
  | unlink path =>
    obtain ⟨found, leads, rfl⟩ := Option.map_eq_some_iff.mp locates
    rw [List.mem_singleton.mp named]
    exact ⟨path, List.mem_cons_self, leads⟩
  | rename old new =>
    obtain ⟨from_, leadsOld, rest⟩ := Option.bind_eq_some_iff.mp locates
    obtain ⟨target, leadsNew, rfl⟩ := Option.map_eq_some_iff.mp rest
    rcases List.mem_pair.mp named with rfl | rfl
    · exact ⟨old, List.mem_cons_self, leadsOld⟩
    · exact ⟨new, List.mem_cons_of_mem _ List.mem_cons_self, leadsNew⟩
  | write bytes =>
    cases locates
    cases named
  | fsync =>
    cases locates
    cases named
  | close =>
    cases locates
    cases named

/-- Where all its paths lead to places for files, a call is performed with those. -/
theorem performed_eq {Path : Type} {resolver : Resolver Path Name D} {tree : Tree Name D Nat} {name : Path → List Name}
    {call : Sys Path} (finds : ∀ path ∈ names call, resolver.find tree path = some (name path))
    (fits : ∀ path ∈ names call, Openable tree (name path)) :
    performed resolver tree call = some (renamedCall name call) := by
  have locates : located (resolver.find tree) call = some (renamedCall name call) := by
    cases call with
    | openTrunc path => rw [located, finds path List.mem_cons_self]; rfl
    | unlink path => rw [located, finds path List.mem_cons_self]; rfl
    | rename old new =>
      rw [located, finds old List.mem_cons_self, finds new (List.mem_cons_of_mem _ List.mem_cons_self)]
      rfl
    | _ => rfl
  refine Option.filter_eq_some_iff.mpr ⟨locates, decide_eq_true ?_⟩
  intro place target
  cases call with
  | openTrunc path =>
    rw [List.mem_singleton.mp target]
    exact fits path List.mem_cons_self
  | rename old new =>
    rw [List.mem_singleton.mp target]
    exact fits new (List.mem_cons_of_mem _ List.mem_cons_self)
  | write bytes => cases target
  | fsync => cases target
  | close => cases target
  | unlink path => cases target

/-- Calls of a process whose paths lead into an area change nothing outside of it. -/
theorem FileSystem.execAll_frame [DecidableEq Name] {Path : Type} {resolver : Resolver Path Name D}
    (area : List Name → Prop) {calls : List (Sys Path)} {fs : FileSystem Name D}
    (about : ∀ call ∈ calls, ∀ path ∈ names call, ∀ place, resolver.find fs.tree path = some place → area place)
    {place : List Name} (outside : ¬ area place) :
    (FileSystem.execAll resolver calls (fs, none)).1.look place = fs.look place := by
  obtain ⟨directories, disk⟩ := execAll_spec resolver calls fs none
  have onDisk : (FileSystem.execAll resolver calls (fs, none)).1.disk = _ := congrArg Prod.fst disk
  have closed : Inside area fs.disk none := by
    intro file same
    cases same
  refine look_congr directories ?_
  rw [onDisk]
  refine Footprints.execAll_frame ?_ closed outside
  intro act member found named
  obtain ⟨call, inCalls, performs⟩ := List.mem_filterMap.mp member
  obtain ⟨path, inNames, leads⟩ := located_names (Option.filter_eq_some_iff.mp performs).1 found named
  exact about call inCalls path inNames found leads

end Mcs.FileTrees
