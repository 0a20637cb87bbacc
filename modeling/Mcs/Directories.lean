import Mcs.Strings
import Mcs.Trees

/-!
`mcs_create_directory` on a tree of directories and files. The loop calls `mkdir` with
the part of the path before each slash from the second byte on, and a last call gives
it the whole path (`tried`, `createParents_eq`). Each of these paths has at most one
component more than the one before (`ladder_tried`), however the slashes stand, and so
the call returns 0 exactly where it starts from a directory, no file stands where the
path goes on and no call of `mkdir` fails for a reason of its own
(`mcsCreateDirectory_eq_zero_iff`). What stands at the end of the path it does not see.
-/
namespace Mcs.Directories
open Mcs.Strings Mcs.Trees

variable {F : Type}

/-! ## Paths -/

def separator : UInt8 := 47
def dot : Bytes := [46]
def dotDot : Bytes := [46, 46]

/-- The names in a path; slashes that are repeated, lead or trail do not count. -/
def components (bytes : Bytes) : List Bytes := (bytes.splitOn separator).filter (· ≠ [])

def stepOf (name : Bytes) : Step Bytes :=
  if name = dot then .stay else if name = dotDot then .up else .down name

def steps (bytes : Bytes) : List (Step Bytes) := (components bytes).map stepOf

theorem components_append_separator (front later : Bytes) :
    components (front ++ separator :: later) = components front ++ components later := by
  rw [components, List.splitOn_append_cons_self, List.filter_append]
  rfl

theorem components_of_absent {name : Bytes} (plain : separator ∉ name) :
    components name = if name = [] then [] else [name] := by
  rw [components, List.splitOn_eq_singleton plain]
  by_cases empty : name = [] <;> simp [empty]

theorem steps_append_separator (front later : Bytes) :
    steps (front ++ separator :: later) = steps front ++ steps later := by
  rw [steps, components_append_separator, List.map_append]
  rfl

theorem steps_of_absent {name : Bytes} (plain : separator ∉ name) : steps name = [] ∨ steps name = [stepOf name] := by
  rw [steps, components_of_absent plain]
  by_cases empty : name = []
  · exact .inl (by rw [if_pos empty, List.map_nil])
  · exact .inr (by rw [if_neg empty, List.map_singleton])

/-! ## The program -/

/-- What the call depends on besides the tree: the directory that relative paths start
    from, and the calls of `mkdir` that fail for a reason of their own (no space, no
    permission, ..), which never is that something exists already. -/
structure System where
  cwd : List Bytes
  umask : UInt32
  failure : CString → Option {errno : Errno // errno ≠ .EEXIST}

def System.start (system : System) (path : CString) : List Bytes :=
  if path.byteAt 0 = separator then [] else system.cwd

/-- The bits of a mode that a new directory gets. -/
def System.permissions (system : System) (mode : UInt32) : UInt32 := mode &&& ~~~system.umask

def System.mkdir (system : System) (tree : Tree Bytes UInt32 F) (path : CString) (mode : UInt32) :
    Except Errno (Tree Bytes UInt32 F) :=
  match system.failure path with
  | some errno => .error errno
  | none =>
    if path = .empty then .error .ENOENT
    else tree.mkdir (system.start path) (steps path.bytes) (system.permissions mode)

/-- `memchr(str, byte, len)` on a string with its NUL. -/
def memchr (str : CString) (byte : UInt8) (len : Nat) : Option Nat :=
  ((str.bytes ++ [0]).take len).findIdx? (· = byte)

def mcsStrnlen (str : CString) (len : Nat) : Nat :=
  match memchr str 0 len with
  | some found => found
  | none => len

def mcsStrndup (str : CString) (len : Nat) : CString := str.take (mcsStrnlen str len)

/-- The loop of `mcs_create_directory`, which looks for the next slash from `start` on:
    the tree that it leaves, and the error that it returns with. -/
def createParents (system : System) (pptr : CString) (mode : UInt32) (start : Nat) (tree : Tree Bytes UInt32 F) :
    Tree Bytes UInt32 F × Option Errno :=
  match _ : strchr (pptr.drop start) separator with
  | none => (tree, none)
  | some distance =>
    let tptr := start + distance
    if pptr.byteAt tptr = 0 then (tree, none)
    else
      match system.mkdir tree (mcsStrndup pptr tptr) mode with
      | .ok next => createParents system pptr mode (tptr + 1) next
      | .error errno =>
        if errno = .EEXIST then createParents system pptr mode (tptr + 1) tree else (tree, some errno)
termination_by strlen pptr - start
decreasing_by
  all_goals
    have inside := strchr_lt ‹strchr _ _ = some _›
    rw [strlen_drop] at inside
    omega

/-- The tree that a call leaves, what it returns, and `errno` after a failure. -/
structure Created (F : Type) where
  tree : Tree Bytes UInt32 F
  result : Int
  errno : Option Errno

def mcsCreateDirectory (system : System) (path : Option CString) (mode : UInt32) (tree : Tree Bytes UInt32 F) :
    Created F :=
  match path with
  | none => ⟨tree, -1, some .EINVAL⟩
  | some pptr =>
    if pptr.byteAt 0 = 0 then ⟨tree, -1, some .EINVAL⟩
    else
      match createParents system pptr mode 1 tree with
      | (parents, some errno) => ⟨parents, -1, some errno⟩
      | (parents, none) =>
        match system.mkdir parents pptr mode with
        | .ok last => ⟨last, 0, none⟩
        | .error errno => if errno = .EEXIST then ⟨parents, 0, none⟩ else ⟨parents, -1, some errno⟩

/-! ## The calls of `mkdir` -/

/-- The indices of the slashes in the bytes from `start` on. -/
def slashes : Nat → Bytes → List Nat
  | _, [] => []
  | start, byte :: later => if byte = separator then start :: slashes (start + 1) later else slashes (start + 1) later

/-- The paths that `mkdir` is called with, if all goes well. -/
def tried (path : CString) : List CString := (slashes 1 (path.bytes.drop 1)).map path.take ++ [path]

/-- A call of `mkdir` for a directory that may be there already. -/
def System.attempt (system : System) (mode : UInt32) (tree : Tree Bytes UInt32 F) (path : CString) :
    Except Errno (Tree Bytes UInt32 F) :=
  match system.mkdir tree path mode with
  | .ok next => .ok next
  | .error errno => if errno = .EEXIST then .ok tree else .error errno

/-- Such calls one after the other, up to the first that fails. -/
def mkdirs (system : System) (mode : UInt32) : Tree Bytes UInt32 F → List CString → Tree Bytes UInt32 F × Option Errno
  | tree, [] => (tree, none)
  | tree, path :: rest =>
    match system.attempt mode tree path with
    | .ok next => mkdirs system mode next rest
    | .error errno => (tree, some errno)

theorem slashes_of_absent {later : Bytes} (plain : separator ∉ later) (start : Nat) : slashes start later = [] := by
  induction later generalizing start with
  | nil => rfl
  | cons byte later ih =>
    obtain ⟨differ, plain⟩ := not_or.mp (mt List.mem_cons.mpr plain)
    rw [slashes, if_neg (Ne.symm differ)]
    exact ih plain _

theorem slashes_split {before : Bytes} (plain : separator ∉ before) (start : Nat) (later : Bytes) :
    slashes start (before ++ separator :: later) =
      (start + before.length) :: slashes (start + before.length + 1) later := by
  induction before generalizing start with
  | nil => rw [List.nil_append, slashes, if_pos rfl]; rfl
  | cons byte before ih =>
    obtain ⟨differ, plain⟩ := not_or.mp (mt List.mem_cons.mpr plain)
    rw [List.cons_append, slashes, if_neg (Ne.symm differ), ih plain, List.length_cons, Nat.add_assoc start 1,
      Nat.add_comm 1]

theorem mcsStrndup_eq (str : CString) (len : Nat) : mcsStrndup str len = str.take len := by
  rw [mcsStrndup, mcsStrnlen]
  cases found : memchr str 0 len with
  | none => rfl
  | some index =>
    obtain ⟨inside, here, -⟩ := List.findIdx?_eq_some_iff_getElem.mp found
    rw [List.length_take] at inside
    rw [List.getElem_take, decide_eq_true_eq] at here
    have ended : strlen str ≤ index := by
      by_contra below
      rw [List.getElem_append_left (Nat.lt_of_not_le below)] at here
      exact str.noNul (here ▸ List.getElem_mem _)
    have beyond : strlen str ≤ len := by omega
    show str.take index = str.take len
    rw [take_of_strlen_le ended, take_of_strlen_le beyond]

/-- The slash that the loop finds next is the next one of all. -/
theorem slashes_of_strchr {pptr : CString} {start distance : Nat}
    (found : strchr (pptr.drop start) separator = some distance) :
    pptr.byteAt (start + distance) = separator ∧ slashes start (pptr.bytes.drop start) =
      (start + distance) :: slashes (start + distance + 1) (pptr.bytes.drop (start + distance + 1)) := by
  have inside := strchr_lt found
  obtain ⟨later, split, plain⟩ := strchr_split found
  have split : pptr.bytes.drop start = (pptr.bytes.drop start).take distance ++ separator :: later := split
  have plain : separator ∉ (pptr.bytes.drop start).take distance := plain
  have length : ((pptr.bytes.drop start).take distance).length = distance := List.length_take_of_le (Nat.le_of_lt inside)
  have here : pptr.bytes.drop (start + distance) = separator :: later := by
    rw [← List.drop_drop, split, List.drop_append_of_le_length (by omega), List.drop_of_length_le (by omega)]
    rfl
  have rest : pptr.bytes.drop (start + distance + 1) = later := by
    rw [← List.drop_drop, here]
    rfl
  constructor
  · rw [CString.byteAt, List.getD_eq_getElem?_getD, ← List.head?_drop, here]
    rfl
  · rw [rest, split, slashes_split plain, length]

/-- The loop makes a call for each slash. -/
theorem createParents_eq (system : System) (pptr : CString) (mode : UInt32) (start : Nat)
    (tree : Tree Bytes UInt32 F) : createParents system pptr mode start tree =
      mkdirs system mode tree ((slashes start (pptr.bytes.drop start)).map pptr.take) := by
  fun_induction createParents system pptr mode start tree with
  | case1 start tree found =>
    have plain : separator ∉ pptr.bytes.drop start := strchr_eq_none.mp found
    rw [slashes_of_absent plain]
    rfl
  | case2 start tree distance found tptr ended =>
    have here := (slashes_of_strchr found).1
    rw [ended] at here
    exact absurd here (by decide)
  | case3 start tree distance found tptr more next made ih =>
    rw [mcsStrndup_eq] at made
    rw [(slashes_of_strchr found).2, List.map_cons, mkdirs, System.attempt, made]
    exact ih
  | case4 start tree distance found tptr more there ih =>
    rw [mcsStrndup_eq] at there
    rw [(slashes_of_strchr found).2, List.map_cons, mkdirs, System.attempt, there]
    exact ih
  | case5 start tree distance found tptr more errno failed other =>
    rw [mcsStrndup_eq] at failed
    rw [(slashes_of_strchr found).2, List.map_cons, mkdirs, System.attempt, failed]
    simp only [if_neg other]

theorem mkdirs_append (system : System) (mode : UInt32) (tree : Tree Bytes UInt32 F) (first rest : List CString) :
    mkdirs system mode tree (first ++ rest) =
      match mkdirs system mode tree first with
      | (next, none) => mkdirs system mode next rest
      | (stopped, some errno) => (stopped, some errno) := by
  induction first generalizing tree with
  | nil => rfl
  | cons path first ih =>
    rw [List.cons_append, mkdirs, mkdirs]
    cases system.attempt mode tree path with
    | ok next => exact ih next
    | error errno => rfl

theorem works_of_mkdirs {system : System} {mode : UInt32} {tree : Tree Bytes UInt32 F} {paths : List CString}
    (done : (mkdirs system mode tree paths).2 = none) : ∀ part ∈ paths, system.failure part = none := by
  induction paths generalizing tree with
  | nil => exact List.forall_mem_nil _
  | cons path rest ih =>
    rw [mkdirs] at done
    cases call : system.attempt mode tree path with
    | ok next =>
      rw [call] at done
      refine List.forall_mem_cons.mpr ⟨?_, ih done⟩
      cases failed : system.failure path with
      | none => rfl
      | some errno =>
        rw [System.attempt, System.mkdir, failed] at call
        simp only [if_neg errno.2] at call
        cases call
    | error errno =>
      rw [call] at done
      cases done

/-- Where no call fails for a reason of its own, one is an attempt in the tree. -/
theorem attempt_of_works {system : System} {path : CString} (works : system.failure path = none)
    (nonempty : path ≠ .empty) (mode : UInt32) (tree : Tree Bytes UInt32 F) :
    tree.attempt (system.start path) (system.permissions mode) (steps path.bytes) =
      (system.attempt mode tree path).toOption := by
  have call : system.mkdir tree path mode =
      tree.mkdir (system.start path) (steps path.bytes) (system.permissions mode) := by
    rw [System.mkdir, works]
    exact if_neg nonempty
  rw [Tree.attempt, System.attempt, call]
  cases tree.mkdir (system.start path) (steps path.bytes) (system.permissions mode) with
  | ok next => rfl
  | error errno =>
    by_cases there : errno = .EEXIST
    · simp only [if_pos there, Except.toOption]
    · simp only [if_neg there, Except.toOption]

/-- All the calls together climb the tree. -/
theorem climb_of_mkdirs {system : System} {start : List Bytes} {paths : List CString}
    (works : ∀ part ∈ paths, system.failure part = none)
    (within : ∀ part ∈ paths, part ≠ .empty ∧ system.start part = start) (mode : UInt32) (tree : Tree Bytes UInt32 F) :
    tree.climb start (system.permissions mode) (paths.map fun part => steps part.bytes) =
      match mkdirs system mode tree paths with
      | (last, none) => some last
      | (_, some _) => none := by
  induction paths generalizing tree with
  | nil => rfl
  | cons path rest ih =>
    obtain ⟨own, works⟩ := List.forall_mem_cons.mp works
    obtain ⟨⟨nonempty, begins⟩, within⟩ := List.forall_mem_cons.mp within
    rw [List.map_cons, Tree.climb_cons, ← begins, attempt_of_works own nonempty, mkdirs]
    cases system.attempt mode tree path with
    | ok next => exact begins ▸ ih works within next
    | error errno => rfl

/-- The program is its calls of `mkdir`. -/
theorem mcsCreateDirectory_eq (system : System) {path : CString} (nonempty : path ≠ .empty) (mode : UInt32)
    (tree : Tree Bytes UInt32 F) : mcsCreateDirectory system (some path) mode tree =
      match mkdirs system mode tree (tried path) with
      | (last, none) => ⟨last, 0, none⟩
      | (stopped, some errno) => ⟨stopped, -1, some errno⟩ := by
  have first : path.byteAt 0 ≠ 0 := fun ended => nonempty (CString.byteAt_zero_eq_zero.mp ended)
  rw [mcsCreateDirectory, if_neg first, createParents_eq, tried, mkdirs_append]
  rcases mkdirs system mode tree ((slashes 1 (path.bytes.drop 1)).map path.take) with ⟨parents, _ | errno⟩
  · simp only [mkdirs, System.attempt]
    cases system.mkdir parents path mode with
    | ok last => rfl
    | error errno =>
      by_cases there : errno = .EEXIST
      · simp only [if_pos there]
      · simp only [if_neg there]
  · rfl

/-! ## The paths that are tried -/

theorem le_of_mem_slashes {start index : Nat} {later : Bytes} (member : index ∈ slashes start later) : start ≤ index := by
  induction later generalizing start with
  | nil => cases member
  | cons byte later ih =>
    rw [slashes] at member
    split at member
    · rcases List.mem_cons.mp member with rfl | member
      · exact Nat.le_refl _
      · exact Nat.le_of_succ_le (ih member)
    · exact Nat.le_of_succ_le (ih member)

/-- The path and the paths to its parents begin with the same byte. -/
theorem byteAt_of_mem_tried {path part : CString} (member : part ∈ tried path) : part.byteAt 0 = path.byteAt 0 := by
  rcases List.mem_append.mp member with parent | last
  · obtain ⟨index, found, rfl⟩ := List.mem_map.mp parent
    obtain ⟨count, rfl⟩ : ∃ count, index = count + 1 := ⟨index - 1, by have := le_of_mem_slashes found; omega⟩
    show (path.bytes.take (count + 1)).getD 0 0 = path.bytes.getD 0 0
    cases path.bytes <;> rfl
  · rw [List.mem_singleton.mp last]

/-- `before` has been read up to somewhere in a component: what is tried next has the
    steps `now`, or one more. -/
def Reading (before : Bytes) (now : List (Step Bytes)) : Prop :=
  ∀ more, separator ∉ more → steps (before ++ more) = now ∨ ∃ step, steps (before ++ more) = now ++ [step]

theorem Reading.here {before : Bytes} {now : List (Step Bytes)} (reading : Reading before now) :
    steps before = now ∨ ∃ step, steps before = now ++ [step] := by
  have last := reading [] List.not_mem_nil
  rwa [List.append_nil] at last

theorem reading_nil : Reading [] [] := by
  intro more plain
  rcases steps_of_absent plain with none | one
  · exact .inl none
  · exact .inr ⟨_, one⟩

theorem reading_separator (before : Bytes) : Reading (before ++ [separator]) (steps before) := by
  intro more plain
  rw [List.append_assoc, List.singleton_append, steps_append_separator]
  rcases steps_of_absent plain with none | one
  · exact .inl (by rw [none, List.append_nil])
  · exact .inr ⟨_, by rw [one]⟩

theorem Reading.byte {before : Bytes} {now : List (Step Bytes)} (reading : Reading before now) {byte : UInt8}
    (differ : byte ≠ separator) : Reading (before ++ [byte]) now := by
  intro more plain
  rw [List.append_assoc, List.singleton_append]
  exact reading (byte :: more) (by simp [Ne.symm differ, plain])

/-- Whatever has been read, the paths that follow go up by single steps. -/
theorem ladder_slashes {path : CString} {start : Nat} {later : Bytes} {now : List (Step Bytes)}
    (rest : path.bytes.drop start = later) (reading : Reading (path.bytes.take start) now) :
    Ladder now (((slashes start later).map path.take ++ [path]).map fun part => steps part.bytes)
      (steps path.bytes) := by
  induction later generalizing start now with
  | nil =>
    have whole : path.bytes.take start = path.bytes := List.take_of_length_le (List.drop_eq_nil_iff.mp rest)
    rw [whole] at reading
    exact .rung reading.here (.done _)
  | cons byte later ih =>
    have more : path.bytes.drop (start + 1) = later := by
      rw [← List.drop_drop, rest]
      rfl
    have next : path.bytes.take (start + 1) = path.bytes.take start ++ [byte] := by
      rw [List.take_add, rest]
      rfl
    rw [slashes]
    by_cases here : byte = separator
    · rw [if_pos here]
      refine .rung reading.here (ih more ?_)
      rw [next, here]
      exact reading_separator _
    · rw [if_neg here]
      refine ih more ?_
      rw [next]
      exact reading.byte here

theorem ladder_tried {path : CString} (nonempty : path ≠ .empty) :
    Ladder [] ((tried path).map fun part => steps part.bytes) (steps path.bytes) := by
  refine ladder_slashes rfl ?_
  cases bytes : path.bytes with
  | nil => exact absurd (CString.ext bytes) nonempty
  | cons byte rest =>
    by_cases root : byte = separator
    · rw [root]
      exact reading_separator []
    · exact reading_nil.byte root

/-- A relative path has a component. -/
theorem steps_ne_nil {path : CString} (nonempty : path ≠ .empty) (relative : path.byteAt 0 ≠ separator) :
    steps path.bytes ≠ [] := by
  cases bytes : path.bytes with
  | nil => exact absurd (CString.ext bytes) nonempty
  | cons byte rest =>
    rw [CString.byteAt, bytes, List.getD_cons_zero] at relative
    have other : (byte == separator) = false := beq_eq_false_iff_ne.mpr relative
    rw [steps, components, List.splitOn_cons_eq_if_modifyHead, other]
    cases split : rest.splitOn separator with
    | nil => exact absurd split (List.splitOn_ne_nil _ _)
    | cons first others => simp

/-! ## What the call leaves -/

/-- No call of `mkdir` for the path fails for a reason of its own. -/
def System.Works (system : System) (path : CString) : Prop := ∀ part ∈ tried path, system.failure part = none

theorem within_tried (system : System) {path : CString} (nonempty : path ≠ .empty) :
    ∀ part ∈ tried path, part ≠ .empty ∧ system.start part = system.start path := by
  intro part member
  have same := byteAt_of_mem_tried member
  refine ⟨fun empty => nonempty (CString.byteAt_zero_eq_zero.mp ?_), ?_⟩
  · rw [← same]
    exact CString.byteAt_zero_eq_zero.mpr empty
  · rw [System.start, same]
    rfl

theorem works_of_zero {system : System} {path : CString} (nonempty : path ≠ .empty) {mode : UInt32}
    {tree : Tree Bytes UInt32 F} (zero : (mcsCreateDirectory system (some path) mode tree).result = 0) :
    system.Works path := by
  rw [mcsCreateDirectory_eq system nonempty] at zero
  cases calls : mkdirs system mode tree (tried path) with
  | mk last error =>
    rw [calls] at zero
    cases error with
    | none => exact works_of_mkdirs (by rw [calls])
    | some errno => exact absurd zero (by simp)

/-- The call climbs the path, and returns -1 where that is not possible. -/
theorem climb_tried {system : System} {path : CString} (nonempty : path ≠ .empty) (works : system.Works path)
    (mode : UInt32) (tree : Tree Bytes UInt32 F) :
    tree.climb (system.start path) (system.permissions mode) ((tried path).map fun part => steps part.bytes) =
      if (mcsCreateDirectory system (some path) mode tree).result = 0 then
        some (mcsCreateDirectory system (some path) mode tree).tree
      else none := by
  rw [climb_of_mkdirs works (within_tried system nonempty) mode tree, mcsCreateDirectory_eq system nonempty]
  rcases mkdirs system mode tree (tried path) with ⟨last, _ | errno⟩
  · rfl
  · rfl

theorem start_of_zero {system : System} {path : CString} (nonempty : path ≠ .empty) {mode : UInt32}
    {tree : Tree Bytes UInt32 F} (zero : (mcsCreateDirectory system (some path) mode tree).result = 0) :
    tree.IsDirectory (system.start path) := by
  by_contra missing
  have reached := climb_tried nonempty (works_of_zero nonempty zero) mode tree
  rw [if_pos zero] at reached
  have relative : path.byteAt 0 ≠ separator := by
    intro root
    rw [System.start, if_pos root] at missing
    exact missing tree.root
  have moves : ∀ part ∈ tried path, steps part.bytes ≠ [] := by
    intro part member
    have other : part.byteAt 0 ≠ separator := by rwa [byteAt_of_mem_tried member]
    exact steps_ne_nil (within_tried system nonempty part member).1 other
  cases split : tried path with
  | nil => exact absurd split (by simp [tried])
  | cons first rest =>
    rw [split, List.map_cons, climb_of_no_start missing _ (moves first (split ▸ List.mem_cons_self))] at reached
    cases reached

theorem built_of_zero {system : System} {path : CString} (nonempty : path ≠ .empty) {mode : UInt32}
    {tree : Tree Bytes UInt32 F} (zero : (mcsCreateDirectory system (some path) mode tree).result = 0) :
    Built tree (mcsCreateDirectory system (some path) mode tree).tree (system.start path) (system.permissions mode)
      (steps path.bytes) := by
  refine built_of_climb (ladder_tried nonempty) (start_of_zero nonempty zero) ?_
  rw [climb_tried nonempty (works_of_zero nonempty zero), if_pos zero]

/-- The call returns 0 exactly where it starts from a directory, no file stands where
    the path goes on and no call of `mkdir` fails for a reason of its own. -/
theorem mcsCreateDirectory_eq_zero_iff (system : System) {path : CString} (nonempty : path ≠ .empty) (mode : UInt32)
    (tree : Tree Bytes UInt32 F) : (mcsCreateDirectory system (some path) mode tree).result = 0 ↔
      tree.IsDirectory (system.start path) ∧ tree.Clear (system.start path) (steps path.bytes) ∧ system.Works path := by
  constructor
  · intro zero
    exact ⟨start_of_zero nonempty zero, (built_of_zero nonempty zero).clear, works_of_zero nonempty zero⟩
  · rintro ⟨is, clear, works⟩
    obtain ⟨next, reached⟩ := (climb_eq_some_iff (ladder_tried nonempty) is (system.permissions mode)).mpr clear
    by_contra nonzero
    rw [climb_tried nonempty works, if_neg nonzero] at reached
    cases reached

/-! ### Success and the directory -/

/-- The path can be read and leads to a directory. -/
def NamesDirectory (system : System) (tree : Tree Bytes UInt32 F) (path : CString) : Prop :=
  ∃ place, tree.walk (system.start path) (steps path.bytes) = .ok place ∧ tree.IsDirectory place

theorem namesDirectory_of_zero {system : System} {path : CString} (nonempty : path ≠ .empty) {mode : UInt32}
    {tree : Tree Bytes UInt32 F} (zero : (mcsCreateDirectory system (some path) mode tree).result = 0) :
    NamesDirectory system (mcsCreateDirectory system (some path) mode tree).tree path ↔
      ¬ tree.IsFile (locate (system.start path) (steps path.bytes)) := by
  have built := built_of_zero nonempty zero
  rw [← built.isFile_iff]
  constructor
  · rintro ⟨place, walk, is⟩
    rw [((Tree.walk_eq_ok_iff _ _ _ _).mp walk).2]
    exact is.not_file
  · intro other
    refine ⟨_, (Tree.walk_eq_ok_iff _ _ _ _).mpr ⟨built.passable, rfl⟩, ?_⟩
    rcases Tree.kind _ _ with none | is | file
    · exact absurd none built.present
    · exact is
    · exact absurd file other

/-- A call that returns 0 leaves a directory at the path, except where a file stood
    at its end: that `mkdir` answers with `EEXIST` too. -/
theorem namesDirectory_iff (system : System) (path : CString) (mode : UInt32) (tree : Tree Bytes UInt32 F) :
    ((mcsCreateDirectory system (some path) mode tree).result = 0 →
      NamesDirectory system (mcsCreateDirectory system (some path) mode tree).tree path) ↔
    ¬ (tree.IsFile (locate (system.start path) (steps path.bytes)) ∧ tree.IsDirectory (system.start path) ∧
      tree.Clear (system.start path) (steps path.bytes) ∧ system.Works path) := by
  by_cases empty : path = .empty
  · subst empty
    refine ⟨fun _ held => held.2.1.not_file held.1, fun _ zero => ?_⟩
    exact absurd zero (by simp [mcsCreateDirectory, CString.byteAt, CString.empty])
  · rw [← mcsCreateDirectory_eq_zero_iff system empty mode tree, not_and']
    exact forall_congr' fun zero => namesDirectory_of_zero empty zero

/-- The bytes of `a` and of `b`. -/
def nameA : Bytes := [97]
def nameB : Bytes := [98]

/-- A file at `/a`, and nothing else below the root. -/
def fileA : Tree Bytes UInt32 Bytes where
  node place := if place = [] then some (.directory 493) else if place = [nameA] then some (.file []) else none
  root := ⟨493, rfl⟩
  parent name place present := by
    by_cases here : name :: place = [nameA]
    · obtain ⟨-, rfl⟩ := List.cons.inj here
      exact ⟨493, rfl⟩
    · exact absurd (by rw [if_neg (List.cons_ne_nil _ _), if_neg here]) present
  finite := by
    refine (Set.toFinite {[], [nameA]}).subset fun place present => ?_
    by_contra outside
    have root : place ≠ [] := fun same => outside (by simp [same])
    have here : place ≠ [nameA] := fun same => outside (by simp [same])
    exact present (by rw [if_neg root, if_neg here])

/-- A process in the root directory whose calls fail for no reason of their own. -/
def undisturbed : System := ⟨[], 0, fun _ => none⟩

def pathA : CString := ⟨nameA, by decide⟩

/-- The directory `a` cannot be made where there is a file `a`, and 0 is returned. -/
theorem file_taken_for_directory : (mcsCreateDirectory undisturbed (some pathA) 493 fileA).result = 0 ∧
    ¬ NamesDirectory undisturbed (mcsCreateDirectory undisturbed (some pathA) 493 fileA).tree pathA := by
  have nonempty : pathA ≠ .empty := by decide
  have path : steps pathA.bytes = [.down nameA] := by decide
  have zero : (mcsCreateDirectory undisturbed (some pathA) 493 fileA).result = 0 := by
    refine (mcsCreateDirectory_eq_zero_iff undisturbed nonempty 493 fileA).mpr ⟨⟨493, rfl⟩, ?_, fun _ _ => rfl⟩
    rw [path]
    rintro (_ | ⟨step, more⟩) inside strict
    · exact Tree.IsDirectory.not_file ⟨493, rfl⟩
    · obtain ⟨rfl, none⟩ := List.cons_prefix_cons.mp inside
      exact absurd (List.prefix_nil.mp none ▸ rfl) strict
  refine ⟨zero, fun names => (namesDirectory_of_zero nonempty zero).mp names ⟨[], ?_⟩⟩
  rw [path]
  rfl

/-! ### The whole chain -/

/-- Where a path without `.` and `..` leads: its names, the last one first, and then
    the directory that it starts from. -/
def System.place (system : System) (path : CString) : List Bytes :=
  (components path.bytes).reverse ++ system.start path

theorem steps_of_plain {bytes : Bytes} (plain : ∀ name ∈ components bytes, name ≠ dot ∧ name ≠ dotDot) :
    steps bytes = (components bytes).map .down := by
  refine List.map_congr_left fun name member => ?_
  rw [stepOf, if_neg (plain name member).1, if_neg (plain name member).2]

/-- A call with the same path after one that returned 0 finds everything there. -/
theorem mcsCreateDirectory_again {system : System} {path : CString} (nonempty : path ≠ .empty) {mode : UInt32}
    {tree : Tree Bytes UInt32 F} (zero : (mcsCreateDirectory system (some path) mode tree).result = 0)
    (other : UInt32) :
    (mcsCreateDirectory system (some path) other (mcsCreateDirectory system (some path) mode tree).tree).result = 0 ∧
      (mcsCreateDirectory system (some path) other (mcsCreateDirectory system (some path) mode tree).tree).tree =
        (mcsCreateDirectory system (some path) mode tree).tree := by
  have built := built_of_zero nonempty zero
  have again : (mcsCreateDirectory system (some path) other
      (mcsCreateDirectory system (some path) mode tree).tree).result = 0 := by
    refine (mcsCreateDirectory_eq_zero_iff system nonempty other _).mpr ⟨?_, ?_, works_of_zero nonempty zero⟩
    · exact built.isDirectory (start_of_zero nonempty zero)
    · intro before inside strict
      exact (built.passable.directory inside strict).not_file
  exact ⟨again, built.again (built_of_zero nonempty again)⟩

/-- Where no file stands on a path without `.` and `..`, the call makes the path and
    all above it directories, leaves everything else as it is, and does nothing the
    second time. -/
theorem mcsCreateDirectory_total_correct {system : System} (working : ∀ part, system.failure part = none)
    {path : CString} (nonempty : path ≠ .empty) (plain : ∀ name ∈ components path.bytes, name ≠ dot ∧ name ≠ dotDot)
    {tree : Tree Bytes UInt32 F} (is : tree.IsDirectory (system.start path))
    (free : ∀ place, place <:+ system.place path → ¬ tree.IsFile place) (mode : UInt32) :
    (mcsCreateDirectory system (some path) mode tree).result = 0 ∧
    (∀ place, place <:+ system.place path →
      (mcsCreateDirectory system (some path) mode tree).tree.IsDirectory place) ∧
    (∀ place, ¬ place <:+ system.place path ∨ tree.node place ≠ none →
      (mcsCreateDirectory system (some path) mode tree).tree.node place = tree.node place) ∧
    (mcsCreateDirectory system (some path) mode (mcsCreateDirectory system (some path) mode tree).tree).result = 0 ∧
    (mcsCreateDirectory system (some path) mode (mcsCreateDirectory system (some path) mode tree).tree).tree =
      (mcsCreateDirectory system (some path) mode tree).tree := by
  have downs := steps_of_plain plain
  have above : ∀ before, before <+: steps path.bytes → locate (system.start path) before <:+ system.place path :=
    fun before inside => locate_suffix (downs ▸ inside) (system.start path)
  have ends : locate (system.start path) (steps path.bytes) = system.place path := by
    rw [downs, locate_downs]
    rfl
  have zero : (mcsCreateDirectory system (some path) mode tree).result = 0 := by
    refine (mcsCreateDirectory_eq_zero_iff system nonempty mode tree).mpr ⟨is, ?_, fun part _ => working part⟩
    intro before inside _
    exact free _ (above before inside)
  have built := built_of_zero nonempty zero
  refine ⟨zero, ?_, ?_, mcsCreateDirectory_again nonempty zero mode⟩
  · intro place inside
    have last : (mcsCreateDirectory system (some path) mode tree).tree.IsDirectory (system.place path) := by
      rcases Tree.kind _ (system.place path) with none | is | file
      · exact absurd (ends ▸ none) built.present
      · exact is
      · exact absurd ((built.isFile_iff _).mp file) (free _ (List.suffix_refl _))
    exact last.above inside
  · rintro place (outside | present)
    · by_cases absent : tree.node place = none
      · rw [absent]
        by_contra stands
        obtain ⟨-, before, inside, leads⟩ := built.made place absent stands
        exact outside (leads ▸ above before inside)
      · exact built.kept place absent
    · exact built.kept place present

/-- Only the root directory. -/
def bare : Tree Bytes UInt32 Bytes where
  node place := if place = [] then some (.directory 493) else none
  root := ⟨493, rfl⟩
  parent name place present := absurd (if_neg (List.cons_ne_nil name place)) present
  finite := by
    refine (Set.finite_singleton []).subset fun place present => ?_
    by_contra outside
    exact present (if_neg outside)

/-- The path `a//b/`. -/
def pathNested : CString := ⟨[97, 47, 47, 98, 47], by decide⟩

theorem mcsCreateDirectory_total_correct_nested :
    (mcsCreateDirectory undisturbed (some pathNested) 493 bare).result = 0 ∧
      (mcsCreateDirectory undisturbed (some pathNested) 493 bare).tree.IsDirectory [nameB, nameA] := by
  have files : ∀ place, place <:+ undisturbed.place pathNested → ¬ bare.IsFile place := by
    rintro place - ⟨content, held⟩
    by_cases root : place = []
    · rw [bare, root] at held
      cases held
    · have none : bare.node place = none := if_neg root
      rw [none] at held
      cases held
  have working : ∀ part, undisturbed.failure part = none := fun _ => rfl
  have nonempty : pathNested ≠ .empty := by decide
  have start : bare.IsDirectory (undisturbed.start pathNested) := ⟨493, rfl⟩
  obtain ⟨zero, made, -⟩ := mcsCreateDirectory_total_correct working nonempty (by decide) start files 493
  exact ⟨zero, made [nameB, nameA] (by decide)⟩

end Mcs.Directories
