import Mathlib.Data.List.Infix
import Mathlib.Data.Set.Finite.Basic

/-!
Trees of directories and files, and the call that makes a directory in them. A place
in a tree is given by the names that lead to it, the innermost one first; a path is
read step by step from a start, through directories only. Making a directory at
every step of a path, parents first, succeeds exactly where no file stands in the
way, and makes what was missing and nothing else (`climb_eq_some_iff`).
-/
namespace Mcs.Trees

variable {Name D F : Type}

inductive Node (D F : Type) where
  | directory (info : D)
  | file (content : F)

/-- A finite tree. Everything in it lies in a directory, and so does the root's own content. -/
@[ext] structure Tree (Name D F : Type) where
  node : List Name → Option (Node D F)
  root : ∃ info, node [] = some (.directory info)
  parent : ∀ name place, node (name :: place) ≠ none → ∃ info, node place = some (.directory info)
  finite : {place | node place ≠ none}.Finite

def Tree.IsDirectory (tree : Tree Name D F) (place : List Name) : Prop :=
  ∃ info, tree.node place = some (.directory info)

def Tree.IsFile (tree : Tree Name D F) (place : List Name) : Prop :=
  ∃ content, tree.node place = some (.file content)

instance (tree : Tree Name D F) (place : List Name) : Decidable (tree.IsDirectory place) :=
  match held : tree.node place with
  | some (.directory info) => isTrue ⟨info, held⟩
  | some (.file _) => isFalse fun ⟨_, is⟩ => by rw [held] at is; cases is
  | none => isFalse fun ⟨_, is⟩ => by rw [held] at is; cases is

theorem Tree.kind (tree : Tree Name D F) (place : List Name) :
    tree.node place = none ∨ tree.IsDirectory place ∨ tree.IsFile place := by
  cases held : tree.node place with
  | none => exact .inl rfl
  | some node =>
    cases node with
    | directory info => exact .inr (.inl ⟨info, held⟩)
    | file content => exact .inr (.inr ⟨content, held⟩)

theorem Tree.IsDirectory.not_file {tree : Tree Name D F} {place : List Name} (is : tree.IsDirectory place) :
    ¬ tree.IsFile place := by
  obtain ⟨info, held⟩ := is
  rintro ⟨content, other⟩
  rw [held] at other
  cases other

theorem Tree.IsDirectory.ne_none {tree : Tree Name D F} {place : List Name} (is : tree.IsDirectory place) :
    tree.node place ≠ none := by
  obtain ⟨info, held⟩ := is
  rw [held]
  exact nofun

theorem Tree.IsFile.ne_none {tree : Tree Name D F} {place : List Name} (is : tree.IsFile place) :
    tree.node place ≠ none := by
  obtain ⟨content, held⟩ := is
  rw [held]
  exact nofun

/-- Every place above something in the tree is a directory. -/
theorem Tree.above (tree : Tree Name D F) {place above : List Name} (present : tree.node place ≠ none)
    (inside : above <:+ place) : above = place ∨ tree.IsDirectory above := by
  induction place with
  | nil => exact .inl (List.suffix_nil.mp inside)
  | cons name place ih =>
    rcases List.suffix_cons_iff.mp inside with same | inside
    · exact .inl same
    · have up := tree.parent name place present
      rcases ih (Tree.IsDirectory.ne_none up) inside with same | directory
      · exact .inr (same ▸ up)
      · exact .inr directory

theorem Tree.IsDirectory.above {tree : Tree Name D F} {place above : List Name} (is : tree.IsDirectory place)
    (inside : above <:+ place) : tree.IsDirectory above := by
  rcases tree.above is.ne_none inside with same | directory
  · exact same ▸ is
  · exact directory

/-! ## Paths -/

/-- One step of a path: stay in a directory, go up to the one it lies in (the root
    lies in itself), or down to a name. -/
inductive Step (Name : Type) where
  | stay
  | up
  | down (name : Name)
  deriving DecidableEq

def Step.apply (place : List Name) : Step Name → List Name
  | .stay => place
  | .up => place.tail
  | .down name => name :: place

/-- The place that a path leads to, whatever is there. -/
def locate (start : List Name) (steps : List (Step Name)) : List Name := steps.foldl Step.apply start

theorem locate_append (start : List Name) (first second : List (Step Name)) :
    locate start (first ++ second) = locate (locate start first) second := List.foldl_append

theorem locate_concat (start : List Name) (steps : List (Step Name)) (step : Step Name) :
    locate start (steps ++ [step]) = step.apply (locate start steps) := locate_append start steps [step]

/-- Only a step down leads from a directory to nothing. -/
theorem Tree.IsDirectory.step_down {tree : Tree Name D F} {place : List Name} (is : tree.IsDirectory place)
    {step : Step Name} (absent : tree.node (step.apply place) = none) : ∃ name, step = .down name := by
  cases step with
  | stay => exact absurd absent is.ne_none
  | up => exact absurd absent (is.above (List.tail_suffix place)).ne_none
  | down name => exact ⟨name, rfl⟩

theorem locate_downs (start names : List Name) : locate start (names.map .down) = names.reverse ++ start := by
  induction names using List.reverseRecOn with
  | nil => rfl
  | append_singleton names name ih =>
    rw [List.map_append, List.map_singleton, locate_concat, ih, List.reverse_append]
    rfl

/-- On a path of names, the places on the way lie above its end. -/
theorem locate_suffix {names : List Name} {before : List (Step Name)} (inside : before <+: names.map .down)
    (start : List Name) : locate start before <:+ names.reverse ++ start := by
  obtain ⟨after, split⟩ := inside
  obtain ⟨first, rest, rfl, rfl, -⟩ := List.map_eq_append_iff.mp split.symm
  rw [locate_downs, List.reverse_append, List.append_assoc]
  exact List.suffix_append _ _

inductive Errno where
  | EEXIST
  | ENOENT
  | ENOTDIR
  | EINVAL
  | other (code : Nat)
  deriving DecidableEq

/-- Reading a path: every place that it goes on from has to be a directory. -/
def Tree.walk (tree : Tree Name D F) : List Name → List (Step Name) → Except Errno (List Name)
  | place, [] => .ok place
  | place, step :: rest =>
    match tree.node place with
    | none => .error .ENOENT
    | some (.file _) => .error .ENOTDIR
    | some (.directory _) => tree.walk (step.apply place) rest

/-- The path can be read: the places that it goes on from are directories. -/
def Tree.Passable (tree : Tree Name D F) (start : List Name) (steps : List (Step Name)) : Prop :=
  ∀ before step after, steps = before ++ step :: after → tree.IsDirectory (locate start before)

theorem Tree.passable_nil (tree : Tree Name D F) (start : List Name) : tree.Passable start [] := by
  intro before step after split
  exact absurd split (by simp)

theorem Tree.passable_cons (tree : Tree Name D F) (start : List Name) (step : Step Name) (rest : List (Step Name)) :
    tree.Passable start (step :: rest) ↔ tree.IsDirectory start ∧ tree.Passable (step.apply start) rest := by
  constructor
  · intro passable
    refine ⟨passable [] step rest rfl, ?_⟩
    rintro before next after rfl
    exact passable (step :: before) next after rfl
  · rintro ⟨first, others⟩ before next after split
    cases before with
    | nil => exact first
    | cons own before =>
      obtain ⟨rfl, rfl⟩ := List.cons.inj split
      exact others before next after rfl

theorem Tree.Passable.directory {tree : Tree Name D F} {start : List Name} {before steps : List (Step Name)}
    (passable : tree.Passable start steps) (inside : before <+: steps) (strict : before ≠ steps) :
    tree.IsDirectory (locate start before) := by
  obtain ⟨after, rfl⟩ := inside
  cases after with
  | nil => exact absurd (List.append_nil before).symm strict
  | cons step after => exact passable before step after rfl

theorem Tree.passable_concat (tree : Tree Name D F) (start : List Name) (steps : List (Step Name)) (step : Step Name) :
    tree.Passable start (steps ++ [step]) ↔ tree.Passable start steps ∧ tree.IsDirectory (locate start steps) := by
  induction steps generalizing start with
  | nil =>
    rw [List.nil_append, passable_cons]
    exact ⟨fun both => ⟨tree.passable_nil start, both.1⟩, fun both => ⟨both.2, tree.passable_nil _⟩⟩
  | cons first rest ih =>
    rw [List.cons_append, passable_cons, passable_cons, ih, and_assoc]
    rfl

/-- A path leads to its place exactly when it can be read. -/
theorem Tree.walk_eq_ok_iff (tree : Tree Name D F) (start place : List Name) (steps : List (Step Name)) :
    tree.walk start steps = .ok place ↔ tree.Passable start steps ∧ locate start steps = place := by
  induction steps generalizing start with
  | nil =>
    rw [walk, Except.ok.injEq]
    exact ⟨fun same => ⟨tree.passable_nil start, same⟩, And.right⟩
  | cons step rest ih =>
    rw [walk, passable_cons]
    rcases tree.kind start with none | ⟨info, held⟩ | ⟨content, held⟩
    · simp [none, IsDirectory]
    · rw [held]
      simp only
      rw [ih, and_assoc]
      exact ⟨fun reads => ⟨⟨info, held⟩, reads⟩, And.right⟩
    · simp [held, IsDirectory]

theorem Tree.walk_ne_EEXIST (tree : Tree Name D F) (start : List Name) (steps : List (Step Name)) :
    tree.walk start steps ≠ .error .EEXIST := by
  induction steps generalizing start with
  | nil => exact nofun
  | cons step rest ih =>
    rw [walk]
    split
    · simp
    · simp
    · exact ih _

/-! ## Climbing a path -/

/-- Paths up to the last one, each of which has at most one step more than the one before. -/
inductive Ladder : List (Step Name) → List (List (Step Name)) → List (Step Name) → Prop
  | done (now : List (Step Name)) : Ladder now [] now
  | same {now last : List (Step Name)} {rungs : List (List (Step Name))} :
    Ladder now rungs last → Ladder now (now :: rungs) last
  | next {now last : List (Step Name)} {rungs : List (List (Step Name))} (step : Step Name) :
    Ladder (now ++ [step]) rungs last → Ladder now ((now ++ [step]) :: rungs) last

theorem Ladder.rung {now steps last : List (Step Name)} {rungs : List (List (Step Name))}
    (close : steps = now ∨ ∃ step, steps = now ++ [step]) (rest : Ladder steps rungs last) :
    Ladder now (steps :: rungs) last := by
  rcases close with rfl | ⟨step, rfl⟩
  · exact .same rest
  · exact .next step rest

theorem ladder_prefix {now last : List (Step Name)} {rungs : List (List (Step Name))} (ladder : Ladder now rungs last) :
    now <+: last := by
  induction ladder with
  | done now => exact List.prefix_refl now
  | same _ ih => exact ih
  | next step _ ih => exact (List.prefix_append _ [step]).trans ih

/-- No file stands where the path goes on. -/
def Tree.Clear (tree : Tree Name D F) (start : List Name) (steps : List (Step Name)) : Prop :=
  ∀ before, before <+: steps → before ≠ steps → ¬ tree.IsFile (locate start before)

/-- The path can be read in `now` and leads to something there; all that `now` has
    and `tree` does not are directories on the path. -/
structure Built (tree now : Tree Name D F) (start : List Name) (info : D) (steps : List (Step Name)) : Prop where
  kept : ∀ place, tree.node place ≠ none → now.node place = tree.node place
  made : ∀ place, tree.node place = none → now.node place ≠ none →
    now.node place = some (.directory info) ∧ ∃ before, before <+: steps ∧ locate start before = place
  passable : now.Passable start steps
  present : now.node (locate start steps) ≠ none

theorem built_start {tree : Tree Name D F} {start : List Name} (is : tree.IsDirectory start) (info : D) :
    Built tree tree start info [] :=
  ⟨fun _ _ => rfl, fun _ absent present => absurd absent present, tree.passable_nil start, is.ne_none⟩

theorem Built.longer {tree now : Tree Name D F} {start : List Name} {info : D} {steps : List (Step Name)}
    (built : Built tree now start info steps) (step : Step Name) (place : List Name) (absent : tree.node place = none)
    (stands : now.node place ≠ none) : now.node place = some (.directory info) ∧
      ∃ before, before <+: steps ++ [step] ∧ locate start before = place := by
  obtain ⟨directory, before, inside, leads⟩ := built.made place absent stands
  exact ⟨directory, before, inside.trans (List.prefix_append steps [step]), leads⟩

theorem Built.isDirectory {tree now : Tree Name D F} {start place : List Name} {info : D} {steps : List (Step Name)}
    (built : Built tree now start info steps) (is : tree.IsDirectory place) : now.IsDirectory place := by
  have kept := built.kept place is.ne_none
  obtain ⟨held, directory⟩ := is
  exact ⟨held, kept.trans directory⟩

theorem Built.isFile_iff {tree now : Tree Name D F} {start : List Name} {info : D} {steps : List (Step Name)}
    (built : Built tree now start info steps) (place : List Name) : now.IsFile place ↔ tree.IsFile place := by
  constructor
  · intro is
    by_cases absent : tree.node place = none
    · have directory : now.IsDirectory place := ⟨info, (built.made place absent is.ne_none).1⟩
      exact absurd is directory.not_file
    · obtain ⟨content, held⟩ := is
      exact ⟨content, (built.kept place absent).symm.trans held⟩
  · intro is
    have kept := built.kept place is.ne_none
    obtain ⟨content, held⟩ := is
    exact ⟨content, kept.trans held⟩

theorem Built.clear {tree now : Tree Name D F} {start : List Name} {info : D} {steps : List (Step Name)}
    (built : Built tree now start info steps) : tree.Clear start steps := by
  intro before inside strict file
  exact (built.passable.directory inside strict).not_file ((built.isFile_iff _).mpr file)

theorem Built.not_none {tree now : Tree Name D F} {start : List Name} {info : D} {before steps : List (Step Name)}
    (built : Built tree now start info steps) (inside : before <+: steps) : now.node (locate start before) ≠ none := by
  by_cases last : before = steps
  · exact last ▸ built.present
  · exact (built.passable.directory inside last).ne_none

/-- What is built is not built again. -/
theorem Built.again {tree now next : Tree Name D F} {start : List Name} {info other : D} {steps : List (Step Name)}
    (built : Built tree now start info steps) (more : Built now next start other steps) : next = now := by
  ext1
  funext place
  by_cases absent : now.node place = none
  · rw [absent]
    by_contra stands
    obtain ⟨-, before, inside, leads⟩ := more.made place absent stands
    exact built.not_none inside (leads ▸ absent)
  · exact more.kept place absent

/-! ## Making a directory -/

/-- A new directory in a directory. -/
def Tree.create [DecidableEq Name] (tree : Tree Name D F) (name : Name) (place : List Name) (info : D)
    (parent : tree.IsDirectory place) (absent : tree.node (name :: place) = none) : Tree Name D F where
  node := Function.update tree.node (name :: place) (some (.directory info))
  root := by
    rw [Function.update_of_ne (List.cons_ne_nil name place).symm]
    exact tree.root
  parent := by
    intro other inner present
    have differ : inner ≠ name :: place := by
      rintro rfl
      rw [Function.update_of_ne (List.cons_ne_self other _)] at present
      obtain ⟨held, stands⟩ := tree.parent other _ present
      rw [absent] at stands
      cases stands
    rw [Function.update_of_ne differ]
    by_cases same : other :: inner = name :: place
    · obtain ⟨rfl, rfl⟩ := List.cons.inj same
      exact parent
    · rw [Function.update_of_ne same] at present
      exact tree.parent other inner present
  finite := by
    refine (tree.finite.insert (name :: place)).subset fun other present => ?_
    by_cases same : other = name :: place
    · exact .inl same
    · refine .inr ?_
      show tree.node other ≠ none
      rw [← Function.update_of_ne same (some (.directory info)) tree.node]
      exact present

/-- `mkdir(2)`: an error if the path cannot be read or leads to something, and
    else a new directory. -/
def Tree.mkdir [DecidableEq Name] (tree : Tree Name D F) (start : List Name) (steps : List (Step Name)) (info : D) :
    Except Errno (Tree Name D F) :=
  match tree.walk start steps with
  | .error errno => .error errno
  | .ok [] => .error .EEXIST
  | .ok (name :: place) =>
    if absent : tree.node (name :: place) = none then
      if parent : tree.IsDirectory place then .ok (tree.create name place info parent absent)
      else .error .ENOENT
    else .error .EEXIST

section
variable [DecidableEq Name]

theorem Tree.mkdir_of_present {tree : Tree Name D F} {start : List Name} {steps : List (Step Name)}
    (passable : tree.Passable start steps) (present : tree.node (locate start steps) ≠ none) (info : D) :
    tree.mkdir start steps info = .error .EEXIST := by
  rw [mkdir, (tree.walk_eq_ok_iff start _ steps).mpr ⟨passable, rfl⟩]
  cases place : locate start steps with
  | nil => rfl
  | cons name above =>
    rw [place] at present
    exact dif_neg present

theorem Tree.mkdir_of_absent {tree : Tree Name D F} {start : List Name} {steps : List (Step Name)} {step : Step Name}
    (passable : tree.Passable start (steps ++ [step])) (absent : tree.node (locate start (steps ++ [step])) = none)
    (info : D) : ∃ next, tree.mkdir start (steps ++ [step]) info = .ok next ∧
      next.node = Function.update tree.node (locate start (steps ++ [step])) (some (.directory info)) := by
  have parent := ((tree.passable_concat start steps step).mp passable).2
  rw [mkdir, (tree.walk_eq_ok_iff start _ _).mpr ⟨passable, rfl⟩]
  rw [locate_concat] at absent ⊢
  obtain ⟨name, rfl⟩ := parent.step_down absent
  have absent : tree.node (name :: locate start steps) = none := absent
  refine ⟨tree.create name (locate start steps) info parent absent, ?_, rfl⟩
  show dite _ _ _ = _
  rw [dif_pos absent, dif_pos parent]

theorem Tree.mkdir_of_blocked {tree : Tree Name D F} {start : List Name} {steps : List (Step Name)}
    (blocked : ¬ tree.Passable start steps) (info : D) :
    ∃ errno, tree.mkdir start steps info = .error errno ∧ errno ≠ .EEXIST := by
  cases walk : tree.walk start steps with
  | ok place => exact absurd ((tree.walk_eq_ok_iff start place steps).mp walk).1 blocked
  | error errno =>
    refine ⟨errno, ?_, ?_⟩
    · rw [mkdir, walk]
    · rintro rfl
      exact tree.walk_ne_EEXIST start steps walk

/-! ## A directory and those above it -/

/-- Making a directory that may be there already. -/
def Tree.attempt (tree : Tree Name D F) (start : List Name) (info : D) (steps : List (Step Name)) :
    Option (Tree Name D F) :=
  match tree.mkdir start steps info with
  | .ok next => some next
  | .error errno => if errno = .EEXIST then some tree else none

/-- Making directories one after the other. -/
def Tree.climb (tree : Tree Name D F) (start : List Name) (info : D) (rungs : List (List (Step Name))) :
    Option (Tree Name D F) :=
  rungs.foldlM (fun now steps => now.attempt start info steps) tree

theorem Tree.climb_cons (tree : Tree Name D F) (start : List Name) (info : D) (first : List (Step Name))
    (rungs : List (List (Step Name))) : tree.climb start info (first :: rungs) =
      (tree.attempt start info first).bind fun next => next.climb start info rungs := List.foldlM_cons

theorem Tree.attempt_of_blocked {tree : Tree Name D F} {start : List Name} {steps : List (Step Name)}
    (blocked : ¬ tree.Passable start steps) (info : D) : tree.attempt start info steps = none := by
  obtain ⟨errno, call, other⟩ := Tree.mkdir_of_blocked blocked info
  rw [attempt, call]
  exact if_neg other

theorem Built.same {tree now : Tree Name D F} {start : List Name} {info : D} {steps : List (Step Name)}
    (built : Built tree now start info steps) : now.attempt start info steps = some now := by
  rw [Tree.attempt, Tree.mkdir_of_present built.passable built.present]
  exact if_pos rfl

/-- The steps to a new directory belong to what is built. -/
theorem Built.extend {tree now next : Tree Name D F} {start : List Name} {info : D} {steps : List (Step Name)}
    {step : Step Name} (built : Built tree now start info steps)
    (passable : now.Passable start (steps ++ [step])) (absent : now.node (locate start (steps ++ [step])) = none)
    (update : next.node = Function.update now.node (locate start (steps ++ [step])) (some (.directory info))) :
    Built tree next start info (steps ++ [step]) := by
  have others : ∀ place, place ≠ locate start (steps ++ [step]) → next.node place = now.node place :=
    fun place differ => by rw [update, Function.update_of_ne differ]
  have present : ∀ place, now.node place ≠ none → next.node place = now.node place :=
    fun place present => others place fun same => present (same ▸ absent)
  have new : next.node (locate start (steps ++ [step])) = some (.directory info) := by
    rw [update, Function.update_self]
  refine ⟨?_, ?_, ?_, Tree.IsDirectory.ne_none ⟨info, new⟩⟩
  · intro place stands
    have kept := built.kept place stands
    rw [← kept]
    exact present place (by rwa [kept])
  · intro place missing stands
    by_cases here : place = locate start (steps ++ [step])
    · exact ⟨here ▸ new, steps ++ [step], List.prefix_refl _, here.symm⟩
    · rw [others place here] at stands ⊢
      exact built.longer step place missing stands
  · intro before own after split
    have is := passable before own after split
    have kept := present _ is.ne_none
    obtain ⟨held, directory⟩ := is
    exact ⟨held, kept.trans directory⟩

/-- One rung up, from a directory. -/
theorem Built.next {tree now : Tree Name D F} {start : List Name} {info : D} {steps : List (Step Name)}
    (built : Built tree now start info steps) (is : now.IsDirectory (locate start steps)) (step : Step Name) :
    ∃ next, now.attempt start info (steps ++ [step]) = some next ∧ Built tree next start info (steps ++ [step]) := by
  have passable := (now.passable_concat start steps step).mpr ⟨built.passable, is⟩
  by_cases absent : now.node (locate start (steps ++ [step])) = none
  · obtain ⟨next, call, update⟩ := Tree.mkdir_of_absent passable absent info
    exact ⟨next, by rw [Tree.attempt, call], built.extend passable absent update⟩
  · have there : Built tree now start info (steps ++ [step]) :=
      ⟨built.kept, built.longer step, passable, absent⟩
    exact ⟨now, there.same, there⟩

/-- Climbing gets to the end of the path, or stops where a file stands in the way. -/
theorem climb_cases {tree now : Tree Name D F} {start : List Name} {info : D} {steps last : List (Step Name)}
    {rungs : List (List (Step Name))} (ladder : Ladder steps rungs last) (built : Built tree now start info steps) :
    (∃ next, now.climb start info rungs = some next ∧ Built tree next start info last) ∨
      now.climb start info rungs = none ∧ ¬ tree.Clear start last := by
  induction ladder generalizing now with
  | done steps => exact .inl ⟨now, rfl, built⟩
  | same _ ih =>
    rw [Tree.climb_cons, built.same]
    exact ih built
  | @next steps last rungs step rest ih =>
    rcases now.kind (locate start steps) with none | is | file
    · exact absurd none built.present
    · obtain ⟨next, first, built⟩ := built.next is step
      rw [Tree.climb_cons, first]
      exact ih built
    · refine .inr ⟨?_, ?_⟩
      · have blocked : ¬ now.Passable start (steps ++ [step]) :=
          fun passable => ((now.passable_concat start steps step).mp passable).2.not_file file
        rw [Tree.climb_cons, Tree.attempt_of_blocked blocked info]
        rfl
      · intro clear
        have inside := ladder_prefix rest
        refine clear steps ((List.prefix_append steps [step]).trans inside) ?_ ((built.isFile_iff _).mp file)
        rintro rfl
        exact absurd inside.length_le (by simp)

/-- Climbing a path from a directory succeeds exactly where no file stands in the way. -/
theorem climb_eq_some_iff {tree : Tree Name D F} {start : List Name} {last : List (Step Name)}
    {rungs : List (List (Step Name))} (ladder : Ladder [] rungs last) (is : tree.IsDirectory start) (info : D) :
    (∃ next, tree.climb start info rungs = some next) ↔ tree.Clear start last := by
  rcases climb_cases ladder (built_start is info) with ⟨next, climbs, built⟩ | ⟨fails, blocked⟩
  · exact ⟨fun _ => built.clear, fun _ => ⟨next, climbs⟩⟩
  · simp [fails, blocked]

theorem built_of_climb {tree next : Tree Name D F} {start : List Name} {info : D} {last : List (Step Name)}
    {rungs : List (List (Step Name))} (ladder : Ladder [] rungs last) (is : tree.IsDirectory start)
    (climbs : tree.climb start info rungs = some next) : Built tree next start info last := by
  rcases climb_cases ladder (built_start is info) with ⟨other, same, built⟩ | ⟨fails, -⟩
  · rw [climbs] at same
    exact Option.some.inj same ▸ built
  · rw [climbs] at fails
    cases fails

/-- From where there is no directory no step is possible. -/
theorem climb_of_no_start {tree : Tree Name D F} {start : List Name} (missing : ¬ tree.IsDirectory start) (info : D)
    {first : List (Step Name)} (moves : first ≠ []) (rungs : List (List (Step Name))) :
    tree.climb start info (first :: rungs) = none := by
  have blocked : ¬ tree.Passable start first := by
    obtain ⟨step, rest, rfl⟩ := List.exists_cons_of_ne_nil moves
    exact fun passable => missing ((tree.passable_cons start step rest).mp passable).1
  rw [Tree.climb_cons, Tree.attempt_of_blocked blocked info]
  rfl

end

end Mcs.Trees
