import Mathlib.Data.List.Basic
import Mathlib.Logic.Function.Basic

/-!
Users that share a state by copies: each takes a copy when it opens, changes its
copy, and puts all of it back when it saves. The shared state is then the copy
of the last one to save (`Course.common_after`). For two users `common_of_two` says
in which orders the changes of the first one are lost.
-/
namespace Mcs.Snapshots

variable {Who Change State : Type}

inductive Act (Who Change : Type) where
  | opens (who : Who)
  | changes (who : Who) (change : Change)
  | saves (who : Who)

def Act.who : Act Who Change → Who
  | .opens who => who
  | .changes who _ => who
  | .saves who => who

/-- The shared state, and the copy of each user. -/
structure Shared (Who State : Type) where
  common : State
  copy : Who → State

/-! ## Courses -/

/-- A user opens once, saves once after that, and acts only in between. -/
structure Course (who : Who) (acts before middle last : List (Act Who Change)) : Prop where
  split : acts = before ++ .opens who :: (middle ++ .saves who :: last)
  unborn : ∀ act ∈ before, act.who ≠ who
  inside : ∀ act ∈ middle, act ≠ .opens who ∧ act ≠ .saves who
  gone : ∀ act ∈ last, act.who ≠ who

/-- After the save of this user there is no other. -/
def SavedLast (who : Who) (acts : List (Act Who Change)) : Prop :=
  ∃ before after, acts = before ++ .saves who :: after ∧ ∀ act ∈ after, ∀ user, act ≠ .saves user

/-- The one user has saved when the other one opens. -/
def SavedBefore (who other : Who) (acts : List (Act Who Change)) : Prop :=
  ∃ before after, acts = before ++ .opens other :: after ∧ .saves who ∈ before

section
variable {who other : Who} {acts before middle last front back : List (Act Who Change)}

theorem Course.no_save_before (course : Course who acts before middle last) :
    .saves who ∉ before ++ .opens who :: middle := by
  rw [List.mem_append, List.mem_cons]
  rintro (early | same | inside)
  · exact course.unborn _ early rfl
  · cases same
  · exact (course.inside _ inside).2 rfl

/-- A save of the user found anywhere is the one of its course. -/
theorem Course.save_unique (course : Course who acts before middle last) (split : acts = front ++ .saves who :: back) :
    front = before ++ .opens who :: middle ∧ back = last := by
  have same := course.split
  rw [← List.cons_append, ← List.append_assoc, split] at same
  have result := (List.append_cons_inj_of_notMem course.no_save_before
    (fun late => course.gone _ late rfl)).mp same.symm
  exact ⟨result.1.symm, result.2.2.symm⟩

theorem Course.open_unique (course : Course who acts before middle last) (split : acts = front ++ .opens who :: back) :
    front = before := by
  have same := course.split
  rw [split] at same
  have absent : .opens who ∉ middle ++ .saves who :: last := by
    rw [List.mem_append, List.mem_cons]
    rintro (inside | same | late)
    · exact (course.inside _ inside).1 rfl
    · cases same
    · exact course.gone _ late rfl
  exact ((List.append_cons_inj_of_notMem (fun early => course.unborn _ early rfl) absent).mp same.symm).1.symm

variable {beforeOther middleOther lastOther : List (Act Who Change)}

/-- A user saves last where the other one does not save after it. -/
theorem Course.quiet_last (only : ∀ act ∈ acts, act.who = who ∨ act.who = other)
    (course : Course who acts before middle last) (never : .saves other ∉ last) :
    ∀ act ∈ last, ∀ user, act ≠ .saves user := by
  intro act member user same
  have inActs : act ∈ acts := by rw [course.split]; simp [member]
  rcases only act inActs with mine | others
  · exact course.gone act member mine
  · subst same
    exact never (by rw [← others]; exact member)

/-- Where it does, the other one saves last. -/
theorem Course.quiet_other (only : ∀ act ∈ acts, act.who = who ∨ act.who = other)
    (course : Course who acts before middle last) (courseOther : Course other acts beforeOther middleOther lastOther)
    (later : .saves other ∈ last) : ∀ act ∈ lastOther, ∀ user, act ≠ .saves user := by
  obtain ⟨between, rest, lastSplit⟩ := List.append_of_mem later
  have otherAt : acts = (before ++ .opens who :: (middle ++ .saves who :: between)) ++ .saves other :: rest := by
    rw [course.split, lastSplit]
    simp
  have restOther := (courseOther.save_unique otherAt).2
  intro act member user same
  have inActs : act ∈ acts := by rw [otherAt, restOther]; simp [member]
  rcases only act inActs with mine | others
  · have inRest : act ∈ rest := by rw [restOther]; exact member
    exact course.gone act (by rw [lastSplit]; simp [inRest]) mine
  · exact courseOther.gone act member others

end

/-- Where a user stands after some acts. -/
inductive Stage where
  | unborn
  | active
  | gone
  deriving DecidableEq

def Reached (who : Who) (acts : List (Act Who Change)) : Stage → Prop
  | .unborn => ∀ act ∈ acts, act.who ≠ who
  | .active => ∃ before middle, acts = before ++ .opens who :: middle ∧ (∀ act ∈ before, act.who ≠ who) ∧
      ∀ act ∈ middle, act ≠ .opens who ∧ act ≠ .saves who
  | .gone => ∃ before middle last, Course who acts before middle last

section
variable {who : Who} {acts : List (Act Who Change)}

/-- Acts of others leave a user where it stands. -/
theorem reached_other {stage : Stage} (reached : Reached who acts stage) {act : Act Who Change}
    (other : act.who ≠ who) : Reached who (acts ++ [act]) stage := by
  cases stage with
  | unborn => exact List.forall_mem_append.mpr ⟨reached, List.forall_mem_singleton.mpr other⟩
  | active =>
    obtain ⟨before, middle, rfl, unborn, inside⟩ := reached
    refine ⟨before, middle ++ [act], by simp, unborn, ?_⟩
    refine List.forall_mem_append.mpr ⟨inside, List.forall_mem_singleton.mpr ⟨?_, ?_⟩⟩
    · intro same
      exact other (by rw [same]; rfl)
    · intro same
      exact other (by rw [same]; rfl)
  | gone =>
    obtain ⟨before, middle, last, course⟩ := reached
    refine ⟨before, middle, last ++ [act], ?_, course.unborn, course.inside, ?_⟩
    · rw [course.split]
      simp
    · exact List.forall_mem_append.mpr ⟨course.gone, List.forall_mem_singleton.mpr other⟩

theorem reached_opens (reached : Reached who acts .unborn) : Reached who (acts ++ [.opens who]) .active :=
  ⟨acts, [], rfl, reached, fun _ member => absurd member List.not_mem_nil⟩

theorem reached_changes (reached : Reached who acts .active) (change : Change) :
    Reached who (acts ++ [.changes who change]) .active := by
  obtain ⟨before, middle, rfl, unborn, inside⟩ := reached
  refine ⟨before, middle ++ [.changes who change], by simp, unborn, ?_⟩
  refine List.forall_mem_append.mpr ⟨inside, List.forall_mem_singleton.mpr ⟨?_, ?_⟩⟩ <;> intro same <;> cases same

theorem reached_saves (reached : Reached who acts .active) : Reached who (acts ++ [.saves who]) .gone := by
  obtain ⟨before, middle, rfl, unborn, inside⟩ := reached
  exact ⟨before, middle, [], by simp, unborn, inside, fun _ member => absurd member List.not_mem_nil⟩

end

/-! ## What the users leave -/

variable [DecidableEq Who] (apply : Change → State → State)

def Shared.step (st : Shared Who State) : Act Who Change → Shared Who State
  | .opens who => { st with copy := Function.update st.copy who st.common }
  | .changes who change => { st with copy := Function.update st.copy who (apply change (st.copy who)) }
  | .saves who => { st with common := st.copy who }

def after (st : Shared Who State) (acts : List (Act Who Change)) : Shared Who State := acts.foldl (Shared.step apply) st

def applyAll (changes : List Change) (state : State) : State := changes.foldl (fun state change => apply change state) state

/-- The changes of one user, in order. -/
def changesOf (who : Who) (acts : List (Act Who Change)) : List Change :=
  acts.filterMap fun act => match act with
    | .changes user change => if user = who then some change else none
    | _ => none

theorem changesOf_append (who : Who) (before after : List (Act Who Change)) :
    changesOf who (before ++ after) = changesOf who before ++ changesOf who after := List.filterMap_append

theorem changesOf_eq_nil {who : Who} {acts : List (Act Who Change)} (others : ∀ act ∈ acts, act.who ≠ who) :
    changesOf who acts = [] := by
  refine List.filterMap_eq_nil_iff.mpr ?_
  intro act member
  have differ := others act member
  cases act with
  | changes user change => exact if_neg differ
  | _ => rfl

variable {apply}

theorem after_append (st : Shared Who State) (first second : List (Act Who Change)) :
    after apply st (first ++ second) = after apply (after apply st first) second := List.foldl_append

/-- Where nobody saves, the shared state stays. -/
theorem common_unsaved {acts : List (Act Who Change)} (unsaved : ∀ act ∈ acts, ∀ user, act ≠ .saves user)
    (st : Shared Who State) : (after apply st acts).common = st.common := by
  induction acts generalizing st with
  | nil => rfl
  | cons act rest ih =>
    refine (ih (fun act member => unsaved act (List.mem_cons_of_mem _ member)) _).trans ?_
    cases act with
    | saves user => exact absurd rfl (unsaved _ List.mem_cons_self user)
    | _ => rfl

/-- Where a user does not open, its copy takes its changes. -/
theorem copy_unopened {who : Who} {acts : List (Act Who Change)} (unopened : ∀ act ∈ acts, act ≠ .opens who)
    (st : Shared Who State) : (after apply st acts).copy who = applyAll apply (changesOf who acts) (st.copy who) := by
  induction acts generalizing st with
  | nil => rfl
  | cons act rest ih =>
    refine (ih (fun act member => unopened act (List.mem_cons_of_mem _ member)) _).trans ?_
    cases act with
    | opens user =>
      have differ : who ≠ user := fun same => unopened _ List.mem_cons_self (by rw [same])
      simp only [Shared.step, Function.update_of_ne differ]
      rfl
    | changes user change =>
      by_cases same : user = who
      · subst same
        simp [Shared.step, changesOf, applyAll]
      · simp [Shared.step, changesOf, applyAll, same, Function.update_of_ne (Ne.symm same)]
    | saves user => rfl

section
variable {who other : Who} {acts before middle last : List (Act Who Change)}

theorem Course.changesOf_eq (course : Course who acts before middle last) :
    changesOf who acts = changesOf who middle := by
  have start : changesOf who (.opens who :: (middle ++ .saves who :: last)) =
      changesOf who (middle ++ .saves who :: last) := rfl
  have finish : changesOf who (.saves who :: last) = changesOf who last := rfl
  rw [course.split, changesOf_append, changesOf_eq_nil course.unborn, start, changesOf_append, finish,
    changesOf_eq_nil course.gone, List.nil_append, List.append_nil]

/-- After the last save the shared state is what its user found when it opened,
    with the changes of that user. -/
theorem Course.common_after (course : Course who acts before middle last)
    (unsaved : ∀ act ∈ last, ∀ user, act ≠ .saves user) (st : Shared Who State) :
    (after apply st acts).common = applyAll apply (changesOf who acts) (after apply st before).common := by
  have run : after apply st acts = after apply (Shared.step apply (after apply
      (Shared.step apply (after apply st before) (.opens who)) middle) (.saves who)) last := by
    rw [course.split, after_append]
    exact after_append _ middle _
  rw [run, common_unsaved unsaved, course.changesOf_eq]
  refine (copy_unopened (fun act member => (course.inside act member).1) _).trans ?_
  simp [Shared.step]

variable {beforeOther middleOther lastOther : List (Act Who Change)}

/-- A user that opens before the other one saves finds what both started from. -/
theorem Course.common_kept (only : ∀ act ∈ acts, act.who = who ∨ act.who = other)
    (courseOther : Course other acts beforeOther middleOther lastOther) (late : .saves who ∉ beforeOther) (st : Shared Who State) :
    (after apply st beforeOther).common = st.common := by
  apply common_unsaved
  intro act member user same
  rcases only act (by rw [courseOther.split]; simp [member]) with mine | others
  · subst same
    exact late (by rw [← mine]; exact member)
  · exact courseOther.unborn act member others

section
variable (only : ∀ act ∈ acts, act.who = who ∨ act.who = other) (course : Course who acts before middle last)
  (courseOther : Course other acts beforeOther middleOther lastOther)
include only course courseOther

/-- A user that saves before the other one opens hands its changes over. -/
theorem Course.common_handed (early : .saves who ∈ beforeOther) (st : Shared Who State) :
    (after apply st beforeOther).common = applyAll apply (changesOf who acts) st.common := by
  obtain ⟨front, back, split⟩ := List.append_of_mem early
  obtain ⟨rfl, rest⟩ := course.save_unique (courseOther.split.trans (by rw [split, List.append_assoc]; rfl))
  have courseEarly : Course who beforeOther before middle back :=
    ⟨by rw [split]; simp, course.unborn, course.inside,
      fun act member => course.gone act (by rw [← rest]; simp [member])⟩
  -- Before the other one opens there is only this user.
  have alone : ∀ act ∈ beforeOther, act.who = who := fun act member =>
    (only act (by rw [courseOther.split]; simp [member])).resolve_right (courseOther.unborn act member)
  have found : (after apply st before).common = st.common := common_unsaved (fun act member user same =>
    course.unborn act member (alone act (by rw [courseEarly.split]; simp [member]))) st
  rw [courseEarly.common_after (fun act member user same =>
    courseEarly.gone act member (alone act (by rw [courseEarly.split]; simp [member]))) st, found,
    courseEarly.changesOf_eq, course.changesOf_eq]

variable (apply) in
/-- The changes of a user are there when it saves last, or had saved when the other
    one opened. In every other order only those of the other one are. -/
theorem common_of_two (st : Shared Who State) :
    (SavedLast who acts ∧ ∃ found, (after apply st acts).common = applyAll apply (changesOf who acts) found) ∨
      (SavedBefore who other acts ∧ (after apply st acts).common =
        applyAll apply (changesOf other acts) (applyAll apply (changesOf who acts) st.common)) ∨
      (¬ SavedLast who acts ∧ ¬ SavedBefore who other acts ∧
        (after apply st acts).common = applyAll apply (changesOf other acts) st.common) := by
  by_cases later : .saves other ∈ last
  · right
    rw [courseOther.common_after (course.quiet_other only courseOther later) st]
    by_cases early : .saves who ∈ beforeOther
    · left
      refine ⟨⟨beforeOther, _, courseOther.split, early⟩, ?_⟩
      rw [course.common_handed only courseOther early]
    · right
      refine ⟨?_, ?_, ?_⟩
      · rintro ⟨front, back, split, quiet⟩
        rw [(course.save_unique split).2] at quiet
        exact quiet _ later other rfl
      · rintro ⟨front, back, split, saved⟩
        rw [courseOther.open_unique split] at saved
        exact early saved
      · rw [courseOther.common_kept only early]
  · left
    have savedAt : acts = (before ++ .opens who :: middle) ++ .saves who :: last := by
      rw [course.split]
      simp
    have quiet := course.quiet_last only later
    exact ⟨⟨_, _, savedAt, quiet⟩, _, course.common_after quiet st⟩

end

end

end Mcs.Snapshots
