import Mcs.Homes
import Mcs.Lineages
import Mcs.Overlap

/-!
Any number of handles, on any number of domains, in one tree of directories and files:
they are opened, used and destroyed in any order, and any of their calls can fail. What
the handles of some domains reply, and what they leave in their files, is what it would
be if all the others had never been (`domains_isolated`), where no path leads through a
file of another domain.
-/
namespace Mcs.Domains
open Mcs.Dictionary Mcs.Strings Mcs.KeyfileModel Mcs.Files Mcs.Footprints Mcs.Histories Mcs.Trees Mcs.FileTrees
open Mcs.RoundTrip Mcs.Directories Mcs.Backend Mcs.Sessions Mcs.Homes
open Mcs.Overlap (Phase Phase.stage)
open Mcs.Snapshots (Act Stage)
open Mcs.Lineages (advance)

variable {T : Type → Type} [Patricia CString T] {Who : Type} {F : Type}

inductive Event (Who : Type) where
  | opens (who : Who)
  | performs (who : Who) (op : Op)
  | destroys (who : Who) (world : World)

def Event.who : Event Who → Who
  | .opens who => who
  | .performs who _ => who
  | .destroys who _ => who

/-- A handle takes a copy of its file, changes it, and puts it back. -/
def Event.act : Event Who → Act Who Op
  | .opens who => .opens who
  | .performs who op => .changes who op
  | .destroys who _ => .saves who

theorem who_act (event : Event Who) : event.act.who = event.who := by cases event <;> rfl

/-- The handles of all, the replies that they gave, and the tree that they share. -/
structure Users (Who : Type) (T : Type → Type) [Patricia CString T] where
  fs : FileSystem Bytes UInt32
  phase : Who → Phase T
  replies : Who → List Reply

def Users.start (Who : Type) (T : Type → Type) [Patricia CString T] (fs : FileSystem Bytes UInt32) : Users Who T :=
  ⟨fs, fun _ => .unopened, fun _ => []⟩

/-- One whole operation of one handle; each handle is opened once. -/
def step [DecidableEq Who] (system : System) (home : Who → Home) (st : Users Who T) : Event Who → Option (Users Who T)
  | .opens who =>
    match st.phase who with
    | .unopened => (mcsKeyfileNewIn system (home who).env (home who).domain st.fs).map fun opened =>
        { st with fs := opened.1, phase := Function.update st.phase who (.opened opened.2) }
    | _ => none
  | .performs who op =>
    match st.phase who with
    | .opened self => some { st with
        phase := Function.update st.phase who (.opened (op.perform self).1)
        replies := Function.update st.replies who (st.replies who ++ [(op.perform self).2]) }
    | _ => none
  | .destroys who world =>
    match st.phase who with
    | .opened self => some { st with
        fs := savedIn system self world st.fs
        phase := Function.update st.phase who .destroyed }
    | _ => none

/-! ## One step -/

section
variable [DecidableEq Who] {system : System} {home : Who → Home} {st next : Users Who T}

theorem step_opens {who : Who} (executed : step system home st (.opens who) = some next) :
    st.phase who = .unopened ∧ ∃ self, mcsKeyfileNewIn system (home who).env (home who).domain st.fs =
        some (makeDirectory system (home who).scratch mode755 st.fs, self) ∧ self.loc = (home who).loc ∧
      next = { st with
        fs := makeDirectory system (home who).scratch mode755 st.fs
        phase := Function.update st.phase who (.opened self) } := by
  obtain ⟨self, opened, loc, -⟩ := mcsKeyfileNewIn_total_correct (T := T) (home who) system st.fs
  cases phase : st.phase who with
  | opened self => simp [step, phase] at executed
  | destroyed => simp [step, phase] at executed
  | unopened =>
    simp only [step, phase, opened, Option.map_some, Option.some.injEq] at executed
    exact ⟨rfl, self, opened, loc, executed.symm⟩

theorem step_performs {who : Who} {op : Op} (executed : step system home st (.performs who op) = some next) :
    ∃ self, st.phase who = .opened self ∧ next = { st with
      phase := Function.update st.phase who (.opened (op.perform self).1)
      replies := Function.update st.replies who (st.replies who ++ [(op.perform self).2]) } := by
  cases phase : st.phase who with
  | unopened => simp [step, phase] at executed
  | destroyed => simp [step, phase] at executed
  | opened self =>
    simp only [step, phase, Option.some.injEq] at executed
    exact ⟨self, rfl, executed.symm⟩

theorem step_destroys {who : Who} {world : World} (executed : step system home st (.destroys who world) = some next) :
    ∃ self, st.phase who = .opened self ∧ next = { st with
      fs := savedIn system self world st.fs
      phase := Function.update st.phase who .destroyed } := by
  cases phase : st.phase who with
  | unopened => simp [step, phase] at executed
  | destroyed => simp [step, phase] at executed
  | opened self =>
    simp only [step, phase, Option.some.injEq] at executed
    exact ⟨self, rfl, executed.symm⟩

/-- Where the handles stand. -/
def Users.stages (st : Users Who T) (who : Who) : Stage := (st.phase who).stage

theorem stages_update (st : Users Who T) (who : Who) (phase : Phase T) :
    (fun other => (Function.update st.phase who phase other).stage) = Function.update st.stages who phase.stage :=
  Function.comp_update Phase.stage st.phase who phase

variable (system home) in
/-- An event is possible exactly in its turn. -/
theorem stages_step (st : Users Who T) (event : Event Who) :
    (step system home st event).map Users.stages = advance st.stages event.act := by
  cases event with
  | opens who =>
    cases phase : st.phase who with
    | unopened =>
      obtain ⟨self, opened, -⟩ := mcsKeyfileNewIn_total_correct (T := T) (home who) system st.fs
      have stage : st.stages who = .unborn := congrArg Phase.stage phase
      simp only [step, phase, opened, Option.map_some, Event.act, advance, stage, if_true]
      exact congrArg some (stages_update st who (.opened self))
    | opened self =>
      have stage : st.stages who = .active := congrArg Phase.stage phase
      simp [step, phase, Event.act, advance, stage]
    | destroyed =>
      have stage : st.stages who = .gone := congrArg Phase.stage phase
      simp [step, phase, Event.act, advance, stage]
  | performs who op =>
    cases phase : st.phase who with
    | unopened =>
      have stage : st.stages who = .unborn := congrArg Phase.stage phase
      simp [step, phase, Event.act, advance, stage]
    | opened self =>
      have stage : st.stages who = .active := congrArg Phase.stage phase
      simp only [step, phase, Option.map_some, Event.act, advance, stage, if_true]
      refine congrArg some ((stages_update st who (.opened (op.perform self).1)).trans ?_)
      exact Function.update_eq_self_iff.mpr stage.symm
    | destroyed =>
      have stage : st.stages who = .gone := congrArg Phase.stage phase
      simp [step, phase, Event.act, advance, stage]
  | destroys who world =>
    cases phase : st.phase who with
    | unopened =>
      have stage : st.stages who = .unborn := congrArg Phase.stage phase
      simp [step, phase, Event.act, advance, stage]
    | opened self =>
      have stage : st.stages who = .active := congrArg Phase.stage phase
      simp only [step, phase, Option.map_some, Event.act, advance, stage, if_true]
      exact congrArg some (stages_update st who .destroyed)
    | destroyed =>
      have stage : st.stages who = .gone := congrArg Phase.stage phase
      simp [step, phase, Event.act, advance, stage]

variable (system home) in
/-- A run is possible exactly where each handle is opened, used and destroyed in this order. -/
theorem stages_run (st : Users Who T) (events : List (Event Who)) :
    (run (step system home) st events).map Users.stages = run advance st.stages (events.map Event.act) := by
  induction events generalizing st with
  | nil => rfl
  | cons event rest ih =>
    have first := stages_step system home st event
    rw [run, run, List.map_cons, List.foldlM_cons, List.foldlM_cons, ← first]
    cases step system home st event with
    | none => rfl
    | some next => exact ih next

/-- A handle has the path of its home. -/
def Located (home : Who → Home) (st : Users Who T) : Prop :=
  ∀ who self, st.phase who = .opened self → self.loc = (home who).loc

/-- What a step of one handle keeps of the handles, and of the tree. -/
theorem step_frame {event : Event Who} (located : Located home st) (executed : step system home st event = some next) :
    Located home next ∧ Framed (home event.who) system st.fs next.fs ∧
      ∀ who, who ≠ event.who → next.phase who = st.phase who ∧ next.replies who = st.replies who := by
  cases event with
  | opens who =>
    obtain ⟨-, self, -, loc, rfl⟩ := step_opens executed
    refine ⟨?_, framed_makeDirectory (home who) system st.fs, fun other differ => ⟨Function.update_of_ne differ .., rfl⟩⟩
    intro other found phase
    by_cases same : other = who
    · subst same
      have phase : Function.update st.phase other (.opened self) other = .opened found := phase
      rw [Function.update_self] at phase
      cases phase
      exact loc
    · have phase : Function.update st.phase who (.opened self) other = .opened found := phase
      rw [Function.update_of_ne same] at phase
      exact located other found phase
  | performs who op =>
    obtain ⟨self, opened, rfl⟩ := step_performs executed
    refine ⟨?_, framed_self st.fs,
      fun other differ => ⟨Function.update_of_ne differ .., Function.update_of_ne differ ..⟩⟩
    intro other found phase
    by_cases same : other = who
    · subst same
      have phase : Function.update st.phase other (.opened (op.perform self).1) other = .opened found := phase
      rw [Function.update_self] at phase
      cases phase
      exact (perform_loc op self).trans (located other self opened)
    · have phase : Function.update st.phase who (.opened (op.perform self).1) other = .opened found := phase
      rw [Function.update_of_ne same] at phase
      exact located other found phase
  | destroys who world =>
    obtain ⟨self, opened, rfl⟩ := step_destroys executed
    refine ⟨?_, framed_savedIn (located who self opened) world st.fs,
      fun other differ => ⟨Function.update_of_ne differ .., rfl⟩⟩
    intro other found phase
    by_cases same : other = who
    · subst same
      have phase : Function.update st.phase other .destroyed other = .opened found := phase
      rw [Function.update_self] at phase
      cases phase
    · have phase : Function.update st.phase who .destroyed other = .opened found := phase
      rw [Function.update_of_ne same] at phase
      exact located other found phase

end

/-! ## Homes that keep apart -/

/-- No path leads through a file of the other home. -/
structure Unblocked (system : System) (home other : Home) : Prop where
  mine : ∀ place, Own home system place → ¬ OnPath system other.scratch place
  others : ∀ place, Own other system place → ¬ OnPath system home.scratch place

section
variable {system : System} {mine other : Home} {before after : FileSystem Bytes UInt32}

theorem framed_isDirectory (framed : Framed other system before after) {place : List Bytes}
    (is : before.tree.IsDirectory place) : after.tree.IsDirectory place := by
  obtain ⟨info, directory⟩ := is
  exact ⟨info, (FileSystem.look_eq_directory_iff _ _ _).mp
    (framed.directories place info ((FileSystem.look_eq_directory_iff _ _ _).mpr directory))⟩

/-- What others do leaves a home usable. -/
theorem usable_framed (usable : Usable mine system before.tree) (framed : Framed other system before after)
    (unblocked : Unblocked system mine other) : Usable mine system after.tree := by
  have stays : ∀ place, Own mine system place → ¬ before.tree.IsDirectory place → ¬ after.tree.IsDirectory place := by
    rintro place own none ⟨info, directory⟩
    rcases framed.new place info ((after.look_eq_directory_iff _ _).mpr directory) with old | ⟨onPath, _⟩
    · exact none ⟨info, (before.look_eq_directory_iff _ _).mp old⟩
    · exact unblocked.mine place own onPath
  refine ⟨framed_isDirectory framed usable.start, usable.works, ?_, ⟨stays _ (.inl rfl) usable.config.1, usable.config.2⟩,
    ⟨stays _ (.inr rfl) usable.tmp.1, usable.tmp.2⟩⟩
  intro place onPath is
  have foreign : ¬ Own other system place := fun own => unblocked.others place own onPath
  rw [FileSystem.isFile_iff, Ne, ← content_eq_none_iff, ← Ne, Option.ne_none_iff_exists'] at is
  obtain ⟨bytes, content⟩ := is
  have looks := (after.look_eq_file_iff place bytes).mpr content
  rcases framed.others place foreign with same | ⟨_, _, made⟩
  · rw [same, FileSystem.look_eq_file_iff] at looks
    refine usable.clear place onPath ((before.isFile_iff place).mpr ?_)
    rw [Ne, ← content_eq_none_iff, looks]
    exact nofun
  · rw [made] at looks
    cases looks

theorem names_framed (framed : Framed other system before after) {path : CString}
    (names : NamesDirectory system before.tree path) : NamesDirectory system after.tree path := by
  obtain ⟨passable, is⟩ := (names_iff system before.tree path).mp names
  refine (names_iff system after.tree path).mpr ⟨?_, framed_isDirectory framed is⟩
  exact fun before step after split => framed_isDirectory framed (passable before step after split)

/-- A home's files are not touched by others that have other files. -/
theorem content_framed (framed : Framed other system before after) {place : List Bytes} (foreign : ¬ Own other system place)
    (off : ¬ OnPath system other.scratch place) : after.disk.content place = before.disk.content place := by
  rcases framed.others place foreign with same | ⟨_, onPath, _⟩
  · refine Option.ext fun bytes => ?_
    rw [← FileSystem.look_eq_file_iff, ← FileSystem.look_eq_file_iff, same]
  · exact absurd onPath off

end

/-! ## What others change -/

/-- In both states the homes of some are usable and their directories are there once they
    are open; their handles, replies and files are the same. -/
structure Alike (system : System) (home : Who → Home) (mine : Who → Prop) (st other : Users Who T) : Prop where
  located : Located home st
  locatedOther : Located home other
  usable : ∀ who, mine who → Usable (home who) system st.fs.tree ∧ Usable (home who) system other.fs.tree
  names : ∀ who self, mine who → st.phase who = .opened self →
    NamesDirectory system st.fs.tree (home who).scratch ∧ NamesDirectory system other.fs.tree (home who).scratch
  phase : ∀ who, mine who → st.phase who = other.phase who
  replies : ∀ who, mine who → st.replies who = other.replies who
  content : ∀ who, mine who → ∀ place, Own (home who) system place →
    st.fs.disk.content place = other.fs.disk.content place

section
variable [DecidableEq Who] {system : System} {home : Who → Home} {mine : Who → Prop} {st other next : Users Who T}
  (unblocked : ∀ who user, mine who → Unblocked system (home who) (home user))
include unblocked

/-- Handles of others are not noticed. -/
theorem alike_others (foreign : ∀ who user, mine who → ¬ mine user → ∀ place, Own (home who) system place →
      ¬ Own (home user) system place) {event : Event Who} (others : ¬ mine event.who)
    (alike : Alike system home mine st other) (executed : step system home st event = some next) :
    Alike system home mine next other := by
  obtain ⟨located, framed, kept⟩ := step_frame alike.located executed
  have differ : ∀ who, mine who → who ≠ event.who := fun who own same => others (same ▸ own)
  refine ⟨located, alike.locatedOther, ?_, ?_, ?_, ?_, ?_⟩
  · intro who own
    obtain ⟨usable, usableOther⟩ := alike.usable who own
    exact ⟨usable_framed usable framed (unblocked who event.who own), usableOther⟩
  · intro who self own phase
    rw [(kept who (differ who own)).1] at phase
    obtain ⟨names, namesOther⟩ := alike.names who self own phase
    exact ⟨names_framed framed names, namesOther⟩
  · intro who own
    rw [(kept who (differ who own)).1, alike.phase who own]
  · intro who own
    rw [(kept who (differ who own)).2, alike.replies who own]
  · intro who own place inHome
    rw [content_framed framed (foreign who event.who own others place inHome)
      ((unblocked who event.who own).mine place inHome), alike.content who own place inHome]

/-- A step of one of them on both sides leaves alike what the step is not about. -/
theorem alike_step {event : Event Who} {after : Users Who T} (alike : Alike system home mine st other)
    (executed : step system home st event = some next) (follows : step system home other event = some after)
    (phase : next.phase event.who = after.phase event.who) (replies : next.replies event.who = after.replies event.who)
    (names : ∀ self, next.phase event.who = .opened self →
      NamesDirectory system next.fs.tree (home event.who).scratch ∧
        NamesDirectory system after.fs.tree (home event.who).scratch)
    (content : ∀ place, Own (home event.who) system place →
      next.fs.disk.content place = after.fs.disk.content place) : Alike system home mine next after := by
  obtain ⟨located, framed, kept⟩ := step_frame alike.located executed
  obtain ⟨locatedOther, framedOther, keptOther⟩ := step_frame alike.locatedOther follows
  refine ⟨located, locatedOther, ?_, ?_, ?_, ?_, ?_⟩
  · intro who own
    obtain ⟨usable, usableOther⟩ := alike.usable who own
    exact ⟨usable_framed usable framed (unblocked who event.who own),
      usable_framed usableOther framedOther (unblocked who event.who own)⟩
  · intro who self own opened
    by_cases same : who = event.who
    · subst same
      exact names self opened
    · rw [(kept who same).1] at opened
      obtain ⟨first, second⟩ := alike.names who self own opened
      exact ⟨names_framed framed first, names_framed framedOther second⟩
  · intro who own
    by_cases same : who = event.who
    · rw [same, phase]
    · rw [(kept who same).1, (keptOther who same).1, alike.phase who own]
  · intro who own
    by_cases same : who = event.who
    · rw [same, replies]
    · rw [(kept who same).2, (keptOther who same).2, alike.replies who own]
  · intro who own place inHome
    by_cases here : Own (home event.who) system place
    · exact content place here
    · have off := (unblocked who event.who own).mine place inHome
      rw [content_framed framed here off, content_framed framedOther here off, alike.content who own place inHome]

omit unblocked in
theorem update_both {V : Type} (left right : Who → V) (who : Who) (value : V) :
    Function.update left who value who = Function.update right who value who := by
  rw [Function.update_self, Function.update_self]

/-- What one of them does, it does on both sides. -/
theorem alike_mine {event : Event Who} (own : mine event.who) (alike : Alike system home mine st other)
    (executed : step system home st event = some next) :
    ∃ after, step system home other event = some after ∧ Alike system home mine next after := by
  cases event with
  | opens who =>
    obtain ⟨phase, self, opened, loc, rfl⟩ := step_opens executed
    obtain ⟨usable, usableOther⟩ := alike.usable who own
    have ready := usable.ready mode755
    have readyOther := usableOther.ready mode755
    have reads : readIn system (makeDirectory system (home who).scratch mode755 st.fs) (home who).loc =
        readIn system (makeDirectory system (home who).scratch mode755 other.fs) (home who).loc := by
      rw [readIn_of_names ready.names ready.config, readIn_of_names readyOther.names readyOther.config]
      exact alike.content who own _ (.inl rfl)
    have openedOther : mcsKeyfileNewIn system (home who).env (home who).domain other.fs =
        some (makeDirectory system (home who).scratch mode755 other.fs, self) := by
      rw [mcsKeyfileNewIn_eq, Option.map_eq_some_iff] at opened ⊢
      obtain ⟨kf, loads, both⟩ := opened
      rw [reads] at loads
      exact ⟨kf, loads, by rw [← (Prod.mk.inj both).2]⟩
    have follows : step system home other (.opens who) = some { other with
        fs := makeDirectory system (home who).scratch mode755 other.fs
        phase := Function.update other.phase who (.opened self) } := by
      rw [alike.phase who own] at phase
      simp only [step, phase, openedOther, Option.map_some]
    refine ⟨_, follows, alike_step unblocked alike executed follows ?_ (alike.replies who own) ?_ ?_⟩
    · exact update_both st.phase other.phase who _
    · exact fun _ _ => ⟨ready.names, readyOther.names⟩
    · exact alike.content who own
  | performs who op =>
    obtain ⟨self, opened, rfl⟩ := step_performs executed
    have openedOther := opened
    rw [alike.phase who own] at openedOther
    have follows : step system home other (.performs who op) = some { other with
        phase := Function.update other.phase who (.opened (op.perform self).1)
        replies := Function.update other.replies who (other.replies who ++ [(op.perform self).2]) } := by
      simp only [step, openedOther]
    refine ⟨_, follows, alike_step unblocked alike executed follows ?_ ?_ ?_ (alike.content who own)⟩
    · exact update_both st.phase other.phase who _
    · rw [alike.replies who own]
      exact update_both st.replies other.replies who _
    · exact fun _ _ => alike.names who self own opened
  | destroys who world =>
    obtain ⟨self, opened, rfl⟩ := step_destroys executed
    have openedOther := opened
    rw [alike.phase who own] at openedOther
    obtain ⟨usable, usableOther⟩ := alike.usable who own
    obtain ⟨names, namesOther⟩ := alike.names who self own opened
    have ready : Ready (home who) system st.fs.tree := ⟨names, usable.config.1, usable.tmp.1⟩
    have readyOther : Ready (home who) system other.fs.tree := ⟨namesOther, usableOther.config.1, usableOther.tmp.1⟩
    have loc := alike.located who self opened
    have follows : step system home other (.destroys who world) = some { other with
        fs := savedIn system self world other.fs
        phase := Function.update other.phase who .destroyed } := by
      simp only [step, openedOther]
    refine ⟨_, follows, alike_step unblocked alike executed follows ?_ (alike.replies who own) ?_ ?_⟩
    · exact update_both st.phase other.phase who _
    · intro found phase
      have phase : Function.update st.phase who .destroyed who = .opened found := phase
      rw [Function.update_self] at phase
      cases phase
    · obtain ⟨disk, sees⟩ := exists_sees (home who) system st.fs
      have seesOther : Sees (home who) system disk other.fs := by
        intro path inHome
        rw [sees path inHome]
        exact alike.content who own _ (own_naming inHome)
      have left := sees_savedIn loc world ready sees
      have right := sees_savedIn loc world readyOther seesOther
      rintro place (rfl | rfl)
      · rw [← naming_loc]
        exact (left _ (.inl rfl)).symm.trans (right _ (.inl rfl))
      · rw [← naming_tmpPath]
        exact (left _ (.inr rfl)).symm.trans (right _ (.inr rfl))

variable (mine) in
/-- The handles of some homes give the same replies, and leave the same in their files,
    as if all others had never been: in any order of any number of steps, whichever calls
    fail and whatever the trees of the others look like. -/
theorem domains_isolated [DecidablePred mine]
    (foreign : ∀ who user, mine who → ¬ mine user → ∀ place, Own (home who) system place →
      ¬ Own (home user) system place) {fs : FileSystem Bytes UInt32}
    (usable : ∀ who, mine who → Usable (home who) system fs.tree) {events : List (Event Who)} {finish : Users Who T}
    (executed : run (step system home) (Users.start Who T fs) events = some finish) :
    ∃ alone, run (step system home) (Users.start Who T fs) (events.filter fun event => mine event.who) = some alone ∧
      ∀ who, mine who → finish.replies who = alone.replies who ∧
        ∀ place, Own (home who) system place → finish.fs.disk.content place = alone.fs.disk.content place := by
  have alike : Alike system home mine (Users.start Who T fs) (Users.start Who T fs) :=
    ⟨nofun, nofun, fun who own => ⟨usable who own, usable who own⟩, nofun, fun _ _ => rfl, fun _ _ => rfl,
      fun _ _ _ _ => rfl⟩
  have respects : ∀ (st other : Users Who T) (event : Event Who) (next : Users Who T), ¬ mine event.who →
      Alike system home mine st other → step system home st event = some next → Alike system home mine next other :=
    fun _ _ _ _ others alike executed => alike_others unblocked foreign others alike executed
  have follows : ∀ (st other : Users Who T) (event : Event Who) (next : Users Who T), mine event.who →
      Alike system home mine st other → step system home st event = some next →
        ∃ after, step system home other event = some after ∧ Alike system home mine next after :=
    fun _ _ _ _ own alike executed => alike_mine unblocked own alike executed
  obtain ⟨alone, reached, last⟩ := run_filtered respects follows alike executed
  exact ⟨alone, reached, fun who own => ⟨last.replies who own, last.content who own⟩⟩

end

/-! ### Two domains in an empty tree -/

theorem tail_of_own {system : System} {home : Home} {place : List Bytes} (own : Own home system place) :
    place.tail = home.directory system := by
  rcases own with rfl | rfl <;> rfl

/-- Two directories have different files. -/
theorem foreign_of_directories {system : System} {home other : Home}
    (differ : home.directory system ≠ other.directory system) {place : List Bytes} (own : Own home system place) :
    ¬ Own other system place := fun foreign => differ ((tail_of_own own).symm.trans (tail_of_own foreign))

def nameC : CString := ⟨[99], by decide⟩

/-- The path `a/c/config`. -/
def pathAC : CString := ⟨[97, 47, 99, 47, 99, 111, 110, 102, 105, 103], by decide⟩

/-- The domain `c`, beside `b`. -/
def homeAC : Home where
  env := directoryA
  domain := nameC
  scratch := ⟨[97, 47, 99], by decide⟩
  loc := pathAC
  printed := rfl
  path := by
    rw [configPath_eq]
    rfl
  room := by simp [Room, strlen, pathAC, pathMax]

def homeOf : Side → Home
  | .left => homeAB
  | .right => homeAC

theorem steps_homeAC : steps homeAC.scratch.bytes = [[97], [99]].map .down := by decide

theorem directory_homeOf (who : Side) : (homeOf who).directory undisturbed = [[if who = .left then 98 else 99], [97]] := by
  cases who
  · show locate [] (steps homeAB.scratch.bytes) = _
    rw [steps_homeAB, locate_downs]
    rfl
  · show locate [] (steps homeAC.scratch.bytes) = _
    rw [steps_homeAC, locate_downs]
    rfl

theorem usable_homeOf (who : Side) : Usable (homeOf who) undisturbed bareSystem.tree := by
  cases who
  · exact usable_homeAB
  · exact usable_of_two steps_homeAC rfl

theorem off_homeOf (who side : Side) {place : List Bytes} (own : Own (homeOf who) undisturbed place) :
    ¬ OnPath undisturbed (homeOf side).scratch place := by
  intro onPath
  have short : place.length ≤ 2 := by
    cases side
    · exact length_onPath steps_homeAB rfl onPath
    · exact length_onPath steps_homeAC rfl onPath
  have deep := congrArg List.length (tail_of_own own)
  rw [List.length_tail, directory_homeOf, List.length_cons, List.length_singleton] at deep
  omega

/-- Two handles on two domains set an entry of the same name and read it, and the second
    one is saved first. -/
def twoDomains : List (Event Side) :=
  [.opens .left, .opens .right, .performs .left (.setString nameA nameA nameA),
    .performs .right (.setString nameA nameA nameB), .performs .left (.getString nameA nameA none),
    .destroys .right (calm 4096), .destroys .left (calm 4096)]

theorem twoDomains_run : ∃ finish,
    run (step undisturbed homeOf) (Users.start Side (Assoc false CString) bareSystem) twoDomains = some finish := by
  have stages := stages_run undisturbed homeOf (Users.start Side (Assoc false CString) bareSystem) twoDomains
  have possible : (run advance (fun _ => Stage.unborn) (twoDomains.map Event.act)).isSome = true := rfl
  rw [← Option.isSome_iff_exists, ← Option.isSome_map (f := Users.stages), stages]
  exact possible

theorem domains_isolated_two : ∃ finish alone,
    run (step undisturbed homeOf) (Users.start Side (Assoc false CString) bareSystem) twoDomains = some finish ∧
    run (step undisturbed homeOf) (Users.start Side (Assoc false CString) bareSystem)
        (twoDomains.filter fun event => event.who = .left) = some alone ∧
    ∀ who, who = .left → finish.replies who = alone.replies who ∧
      ∀ place, Own (homeOf who) undisturbed place →
        finish.fs.disk.content place = alone.fs.disk.content place := by
  obtain ⟨finish, executed⟩ := twoDomains_run
  obtain ⟨alone, reached, same⟩ := domains_isolated (· = .left)
    (fun who user _ => ⟨fun _ => off_homeOf who user, fun _ => off_homeOf user who⟩)
    (fun who user own others place inHome => foreign_of_directories (by
      rw [directory_homeOf, directory_homeOf, if_pos own, if_neg others]
      decide) inHome)
    (fun who _ => usable_homeOf who) executed
  exact ⟨finish, alone, executed, reached, same⟩

end Mcs.Domains
