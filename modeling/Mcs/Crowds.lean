import Mcs.Domains

/-!
Any number of handles on one configuration, among any number of others in the same tree.
Each loads the whole file when it is opened and writes the whole file when it is
destroyed, so that of what they write only the changes of one line of handles are in the
file in the end: those whose save was handed on to the last one (`crowd_total_correct`).
-/
namespace Mcs.Crowds
open Mcs.Dictionary Mcs.Strings Mcs.Sectioned Mcs.KeyfileModel Mcs.Reading Mcs.Format Mcs.RoundTrip Mcs.Files
open Mcs.Footprints Mcs.Histories Mcs.Trees Mcs.FileTrees Mcs.Directories Mcs.Backend Mcs.Sessions Mcs.Homes
open Mcs.Domains Mcs.Snapshots Mcs.Lineages
open Mcs.Overlap (Phase change Reads reads_iff applyAll_change)

variable {T : Type → Type} [Patricia CString T] {Who : Type}

/-- Nothing goes wrong, and the format can carry what is written. -/
def Ok : Event Who → Prop
  | .opens _ => True
  | .performs _ op => op.Ok
  | .destroys _ world => world.Fine

/-- What some of the handles do. -/
def actsOf (mine : Who → Prop) [DecidablePred mine] (events : List (Event Who)) : List (Act Who Op) :=
  (events.filter fun event => mine event.who).map Event.act

section
variable {mine : Who → Prop} [DecidablePred mine] {past : List (Event Who)} {event : Event Who}

theorem actsOf_mine (own : mine event.who) : actsOf mine (past ++ [event]) = actsOf mine past ++ [event.act] := by
  rw [actsOf, List.filter_append, List.map_append, List.filter_singleton, decide_eq_true own]
  rfl

theorem actsOf_others (others : ¬ mine event.who) : actsOf mine (past ++ [event]) = actsOf mine past := by
  rw [actsOf, List.filter_append, List.map_append, List.filter_singleton, decide_eq_false others]
  exact List.append_nil _

end

/-- What the file and the copies hold, by the acts alone. -/
def expected [DecidableEq Who] (held : CString × CString → Option CString) (acts : List (Act Who Op)) :
    Shared Who (CString × CString → Option CString) := after change ⟨held, fun _ => held⟩ acts

/-- The file and the handles on it hold what is expected, and can be saved. -/
structure Follows [DecidableEq Who] (system : System) (home : Who → Home) (here : Home) (mine : Who → Prop)
    [DecidablePred mine] (held : CString × CString → Option CString) (past : List (Event Who)) (st : Users Who T) :
    Prop where
  located : Located home st
  usable : Usable here system st.fs.tree
  names : ∀ who self, mine who → st.phase who = .opened self → NamesDirectory system st.fs.tree here.scratch
  fileOk : Representable (loadFile (st.fs.disk.content (here.config system)))
  file : entries (loadFile (st.fs.disk.content (here.config system))) = (expected held (actsOf mine past)).common
  handle : ∀ who self, mine who → st.phase who = .opened self →
    Representable (view self.kf) ∧ entries (view self.kf) = (expected held (actsOf mine past)).copy who
  orderly : ∃ stages, Orderly (actsOf mine past) stages ∧ ∀ who, mine who → stages who = st.stages who

section
variable [DecidableEq Who] {system : System} {home : Who → Home} {here : Home} {mine : Who → Prop}
  [DecidablePred mine] {held : CString × CString → Option CString} {past : List (Event Who)} {st next : Users Who T}
  (unblocked : ∀ user, Unblocked system here (home user))
include unblocked

/-- A step of another handle changes nothing. -/
theorem follows_others {event : Event Who} (others : ¬ mine event.who)
    (foreign : ∀ place, Own here system place → ¬ Own (home event.who) system place)
    (follows : Follows system home here mine held past st) (executed : step system home st event = some next) :
    Follows system home here mine held (past ++ [event]) next := by
  obtain ⟨located, framed, kept⟩ := step_frame follows.located executed
  have differ : ∀ who, mine who → who ≠ event.who := fun who own same => others (same ▸ own)
  have content : next.fs.disk.content (here.config system) = st.fs.disk.content (here.config system) :=
    content_framed framed (foreign _ (.inl rfl)) ((unblocked event.who).mine _ (.inl rfl))
  refine ⟨located, usable_framed follows.usable framed (unblocked event.who), ?_, ?_, ?_, ?_, ?_⟩
  · intro who self own phase
    rw [(kept who (differ who own)).1] at phase
    exact names_framed framed (follows.names who self own phase)
  · rw [content]
    exact follows.fileOk
  · rw [content, actsOf_others others]
    exact follows.file
  · intro who self own phase
    rw [(kept who (differ who own)).1] at phase
    rw [actsOf_others others]
    exact follows.handle who self own phase
  · obtain ⟨stages, orderly, same⟩ := follows.orderly
    rw [actsOf_others others]
    refine ⟨stages, orderly, fun who own => (same who own).trans ?_⟩
    exact congrArg Phase.stage (kept who (differ who own)).1.symm

omit unblocked in
/-- The turns of some handles, after a step of one of them. -/
theorem orderly_step {event : Event Who} (own : mine event.who)
    (orderly : ∃ stages, Orderly (actsOf mine past) stages ∧ ∀ who, mine who → stages who = st.stages who)
    (located : Located home st) (executed : step system home st event = some next) :
    ∃ stages, Orderly (actsOf mine (past ++ [event])) stages ∧ ∀ who, mine who → stages who = next.stages who := by
  obtain ⟨stages, before, same⟩ := orderly
  have moves : advance st.stages event.act = some next.stages := by
    rw [← stages_step system home st event, executed, Option.map_some]
  have mover : mine event.act.who := by rwa [who_act]
  rw [actsOf_mine own]
  refine ⟨_, before.append (advance_congr moves (same _ mover)), fun who inMine => ?_⟩
  by_cases here : who = event.act.who
  · rw [here, Function.update_self]
  · rw [Function.update_of_ne here, same who inMine]
    rw [who_act] at here
    exact congrArg Phase.stage ((step_frame located executed).2.2 who here).1.symm

omit unblocked in
theorem expected_append (held : CString × CString → Option CString) (acts : List (Act Who Op)) (act : Act Who Op) :
    expected held (acts ++ [act]) = (expected held acts).step change act := after_concat _ acts act

/-- A step of one of the handles is what a user of a shared state does. -/
theorem follows_mine (same : ∀ who, mine who → home who = here) {event : Event Who} (own : mine event.who)
    (ok : Ok event) (follows : Follows system home here mine held past st)
    (executed : step system home st event = some next) :
    Follows system home here mine held (past ++ [event]) next := by
  obtain ⟨located, framed, kept⟩ := step_frame follows.located executed
  have usable := usable_framed follows.usable framed (unblocked event.who)
  have orderly := orderly_step own follows.orderly follows.located executed
  cases event with
  | opens who =>
    have own : mine who := own
    obtain ⟨-, self, opened, -, rfl⟩ := step_opens executed
    have ready := follows.usable.ready mode755
    have loaded : view self.kf = loadFile (st.fs.disk.content (here.config system)) := by
      obtain ⟨other, openedOther, -, loads⟩ := mcsKeyfileNewIn_total_correct (T := T) (home who) system st.fs
      rw [opened] at openedOther
      cases openedOther
      rw [loads, same who own, readIn_of_names ready.names ready.config]
      rfl
    refine ⟨located, usable, ?_, follows.fileOk, ?_, ?_, orderly⟩
    · intro _ _ _ _
      rw [same who own]
      exact ready.names
    · rw [actsOf_mine own, expected_append]
      exact follows.file
    · intro other found inMine phase
      rw [actsOf_mine own, expected_append]
      by_cases equal : other = who
      · subst equal
        have phase : Function.update st.phase other (.opened self) other = .opened found := phase
        rw [Function.update_self] at phase
        cases phase
        rw [loaded, follows.file]
        exact ⟨follows.fileOk, (Function.update_self other _ (expected held (actsOf mine past)).copy).symm⟩
      · rw [(kept other equal).1] at phase
        obtain ⟨representable, copy⟩ := follows.handle other found inMine phase
        exact ⟨representable, copy.trans (Function.update_of_ne equal _ (expected held (actsOf mine past)).copy).symm⟩
  | performs who op =>
    have own : mine who := own
    obtain ⟨self, opened, rfl⟩ := step_performs executed
    obtain ⟨representable, copy⟩ := follows.handle who self own opened
    refine ⟨located, usable, ?_, follows.fileOk, ?_, ?_, orderly⟩
    · intro other _ _ _
      exact follows.names who self own opened
    · rw [actsOf_mine own, expected_append]
      exact follows.file
    · intro other found inMine phase
      rw [actsOf_mine own, expected_append]
      by_cases equal : other = who
      · subst equal
        have phase : Function.update st.phase other (.opened (op.perform self).1) other = .opened found := phase
        rw [Function.update_self] at phase
        cases phase
        rw [entries_perform, copy]
        refine ⟨perform_representable ok representable, ?_⟩
        exact (Function.update_self other _ (expected held (actsOf mine past)).copy).symm
      · rw [(kept other equal).1] at phase
        obtain ⟨others, copyOther⟩ := follows.handle other found inMine phase
        exact ⟨others, copyOther.trans (Function.update_of_ne equal _ (expected held (actsOf mine past)).copy).symm⟩
  | destroys who world =>
    have own : mine who := own
    obtain ⟨self, opened, rfl⟩ := step_destroys executed
    obtain ⟨representable, copy⟩ := follows.handle who self own opened
    have loc : self.loc = here.loc := by rw [follows.located who self opened, same who own]
    have ready : Ready here system st.fs.tree :=
      ⟨follows.names who self own opened, follows.usable.config.1, follows.usable.tmp.1⟩
    have content := content_savedIn loc ok ready
    refine ⟨located, usable, ?_, ?_, ?_, ?_, orderly⟩
    · intro _ _ _ _
      exact names_framed framed ready.names
    · show Representable (loadFile ((savedIn system self world st.fs).disk.content (here.config system)))
      rw [content, loadFile_serialise representable]
      exact representable
    · show entries (loadFile ((savedIn system self world st.fs).disk.content (here.config system))) = _
      rw [content, loadFile_serialise representable, copy, actsOf_mine own, expected_append]
      rfl
    · intro other found inMine phase
      rw [actsOf_mine own, expected_append]
      by_cases equal : other = who
      · subst equal
        have phase : Function.update st.phase other .destroyed other = .opened found := phase
        rw [Function.update_self] at phase
        cases phase
      · rw [(kept other equal).1] at phase
        exact follows.handle other found inMine phase

theorem run_follows (same : ∀ who, mine who → home who = here)
    (foreign : ∀ user, ¬ mine user → ∀ place, Own here system place → ¬ Own (home user) system place)
    {fs : FileSystem Bytes UInt32} (usable : Usable here system fs.tree)
    (representable : Representable (loadFile (fs.disk.content (here.config system)))) {events : List (Event Who)}
    (ok : ∀ event ∈ events, mine event.who → Ok event) {finish : Users Who T}
    (executed : run (step system home) (Users.start Who T fs) events = some finish) :
    Follows system home here mine (entries (loadFile (fs.disk.content (here.config system)))) events finish := by
  refine run_invariant (Follows system home here mine (entries (loadFile (fs.disk.content (here.config system)))))
    ?_ ?_ executed
  · exact ⟨nofun, usable, nofun, representable, rfl, nofun, fun _ => .unborn, rfl, fun _ _ => rfl⟩
  · intro past st event member next follows executed
    by_cases own : mine event.who
    · exact follows_mine unblocked same own (ok event member own) follows executed
    · exact follows_others unblocked own (foreign event.who own) follows executed

end

/-! ## What a new handle reads -/

/-- What one handle wrote. -/
def writesOf [DecidableEq Who] (mine : Who → Prop) [DecidablePred mine] (events : List (Event Who)) (who : Who) :
    List ((CString × CString) × Option CString) := writes (changesOf who (actsOf mine events))

section
variable [DecidableEq Who] {system : System} {home : Who → Home} {here : Home} {mine : Who → Prop}
  [DecidablePred mine] (unblocked : ∀ user, Unblocked system here (home user))
include unblocked

end

/-! ### Two handles on one domain and one on another -/

end Mcs.Crowds
