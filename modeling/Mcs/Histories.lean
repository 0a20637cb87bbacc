import Mathlib.Logic.Function.Basic
import Mathlib.Data.List.Induction

/-!
What a map holds after a history of writes (`replay_eq`), or of places taken and cleared
(`occupy_eq_some_iff`); the rule by which a property that every step keeps holds after
every run (`run_invariant`), the one by which a run is for some as if the others were not
there (`run_filtered`), and the one by which a second system follows a first (`run_related`).
-/
namespace Mcs.Histories

/-! ## Writes to a map -/

section Writes
variable {K V : Type} [DecidableEq K]

/-- A map after some writes, the first one first. A write gives a key its new
    value, or removes it. -/
def replay (map : K → Option V) (writes : List (K × Option V)) : K → Option V :=
  writes.foldl (fun map write => Function.update map write.1 write.2) map

/-- What the last write to a key left there. -/
def latest (key : K) (writes : List (K × Option V)) : Option (Option V) :=
  (writes.reverse.find? fun write => write.1 = key).map Prod.snd

@[simp] theorem replay_nil (map : K → Option V) : replay map [] = map := rfl

theorem replay_append (map : K → Option V) (before after : List (K × Option V)) :
    replay map (before ++ after) = replay (replay map before) after := List.foldl_append

@[simp] theorem latest_nil (key : K) : latest key ([] : List (K × Option V)) = none := rfl

theorem latest_append (key : K) (before after : List (K × Option V)) :
    latest key (before ++ after) = (latest key after).or (latest key before) := by
  simp only [latest, List.reverse_append, List.find?_append]
  cases after.reverse.find? fun write => decide (write.1 = key) <;> rfl

theorem latest_singleton (key : K) (write : K × Option V) :
    latest key [write] = if write.1 = key then some write.2 else none := by
  by_cases same : write.1 = key
  · simp [latest, same]
  · simp [latest, same]

theorem latest_eq_none {key : K} {writes : List (K × Option V)} (untouched : ∀ left, (key, left) ∉ writes) :
    latest key writes = none := by
  rw [latest, Option.map_eq_none_iff, List.find?_eq_none]
  rintro ⟨other, left⟩ member same
  cases of_decide_eq_true same
  exact untouched left (List.mem_reverse.mp member)

theorem latest_map {W : Type} (convert : V → W) (key : K) (writes : List (K × Option V)) :
    latest key (writes.map fun write => (write.1, write.2.map convert)) = (latest key writes).map (Option.map convert) := by
  simp only [latest, ← List.map_reverse, List.find?_map, Option.map_map]
  rfl

/-- Every key holds what its last write left, or what it held before. -/
theorem replay_eq (map : K → Option V) (writes : List (K × Option V)) (key : K) :
    replay map writes key = (latest key writes).getD (map key) := by
  induction writes generalizing map with
  | nil => rfl
  | cons write rest ih =>
    have next := ih (Function.update map write.1 write.2)
    have whole : latest key (write :: rest) = (latest key rest).or (latest key [write]) :=
      latest_append key [write] rest
    rw [whole, latest_singleton]
    refine next.trans ?_
    cases latest key rest with
    | some value => rfl
    | none =>
      by_cases same : write.1 = key
      · subst same
        simp
      · simp [same, Function.update_of_ne (Ne.symm same)]

end Writes

/-- An entry of a list with one more at its end is that one or an earlier one. -/
theorem split_last {Entry : Type} {entries before after : List Entry} {last entry : Entry}
    (split : entries ++ [last] = before ++ entry :: after) :
    (after = [] ∧ entries = before ∧ last = entry) ∨
      ∃ rest, after = rest ++ [last] ∧ entries = before ++ entry :: rest := by
  cases after using List.reverseRecOn with
  | nil =>
    obtain ⟨same, one⟩ := List.append_inj' split rfl
    exact .inl ⟨rfl, same, List.singleton_inj.mp one⟩
  | append_singleton rest other =>
    rw [← List.cons_append, ← List.append_assoc] at split
    obtain ⟨same, one⟩ := List.append_inj' split rfl
    exact .inr ⟨rest, by rw [List.singleton_inj.mp one], same⟩

/-! ## Places -/

section Places
variable {K V : Type}

inductive Turn (K V : Type) where
  | takes (key : K) (value : V)
  | clears (key : K)

/-- Whenever the place was taken, it has been cleared since. -/
def Free (key : K) (turns : List (Turn K V)) : Prop :=
  ∀ before value after, turns = before ++ .takes key value :: after → .clears key ∈ after

/-- The value took the place when it was free, and it has not been cleared since. -/
def FirstSince (key : K) (value : V) (turns : List (Turn K V)) : Prop :=
  ∃ before after, turns = before ++ .takes key value :: after ∧ Free key before ∧ .clears key ∉ after

theorem free_append (key : K) (turns : List (Turn K V)) (turn : Turn K V) :
    Free key (turns ++ [turn]) ↔ turn = .clears key ∨ (Free key turns ∧ ∀ value, turn ≠ .takes key value) := by
  constructor
  · intro free
    rw [or_iff_not_imp_left]
    intro stays
    constructor
    · rintro before value after rfl
      have cleared := free before value (after ++ [turn]) (by simp)
      rcases List.mem_append.mp cleared with inside | last
      · exact inside
      · exact absurd (List.mem_singleton.mp last).symm stays
    · rintro value rfl
      cases free turns value [] rfl
  · intro either before value after split
    rcases split_last split with ⟨rfl, rfl, rfl⟩ | ⟨rest, rfl, earlier⟩
    · rcases either with clears | ⟨_, other⟩
      · cases clears
      · exact absurd rfl (other value)
    · rcases either with rfl | ⟨free, _⟩
      · exact List.mem_append_right _ List.mem_cons_self
      · exact List.mem_append_left _ (free before value rest earlier)

theorem firstSince_append (key : K) (value : V) (turns : List (Turn K V)) (turn : Turn K V) :
    FirstSince key value (turns ++ [turn]) ↔
      (turn = .takes key value ∧ Free key turns) ∨ (FirstSince key value turns ∧ turn ≠ .clears key) := by
  constructor
  · rintro ⟨before, after, split, free, since⟩
    rcases split_last split with ⟨rfl, rfl, rfl⟩ | ⟨rest, rfl, earlier⟩
    · exact .inl ⟨rfl, free⟩
    · refine .inr ⟨⟨before, rest, earlier, free, fun member => since (List.mem_append_left _ member)⟩, ?_⟩
      rintro rfl
      exact since (by simp)
  · rintro (⟨rfl, free⟩ | ⟨⟨before, after, rfl, free, since⟩, stays⟩)
    · exact ⟨turns, [], rfl, free, List.not_mem_nil⟩
    · refine ⟨before, after ++ [turn], by simp, free, ?_⟩
      intro member
      rcases List.mem_append.mp member with inside | last
      · exact since inside
      · exact stays (List.mem_singleton.mp last).symm

variable [DecidableEq K]

/-- A place that is taken stays with its value. -/
def Turn.apply (map : K → Option V) : Turn K V → K → Option V
  | .takes key value => Function.update map key (some ((map key).getD value))
  | .clears key => Function.update map key none

/-- Who has the places, which were all free before. -/
def occupy (turns : List (Turn K V)) : K → Option V := turns.foldl Turn.apply fun _ => none

theorem occupy_append (turns : List (Turn K V)) (turn : Turn K V) :
    occupy (turns ++ [turn]) = turn.apply (occupy turns) := by
  simp [occupy]

theorem occupy_eq_none_iff (turns : List (Turn K V)) (key : K) : occupy turns key = none ↔ Free key turns := by
  induction turns using List.reverseRecOn with
  | nil => simp [occupy, Free]
  | append_singleton before turn ih =>
    rw [occupy_append, free_append, ← ih]
    cases turn with
    | takes other value =>
      by_cases same : other = key
      · subst same
        simp [Turn.apply]
      · simp [Turn.apply, Function.update_of_ne (Ne.symm same), same]
    | clears other =>
      by_cases same : other = key
      · subst same
        simp [Turn.apply]
      · simp [Turn.apply, Function.update_of_ne (Ne.symm same), same]

/-- A place belongs to the first that took it since it was free. -/
theorem occupy_eq_some_iff (turns : List (Turn K V)) (key : K) (value : V) :
    occupy turns key = some value ↔ FirstSince key value turns := by
  induction turns using List.reverseRecOn with
  | nil => simp [occupy, FirstSince]
  | append_singleton before turn ih =>
    rw [occupy_append, firstSince_append, ← ih, ← occupy_eq_none_iff]
    cases turn with
    | takes other taken =>
      by_cases same : other = key
      · subst same
        cases held : occupy before other <;> simp [Turn.apply, held]
      · simp [Turn.apply, Function.update_of_ne (Ne.symm same), same]
    | clears other =>
      by_cases same : other = key
      · subst same
        simp [Turn.apply]
      · simp [Turn.apply, Function.update_of_ne (Ne.symm same), same]

end Places

/-! ## Two parties -/

inductive Side where
  | left
  | right
  deriving DecidableEq

def Side.other : Side → Side
  | .left => .right
  | .right => .left

@[simp] theorem Side.other_other (who : Side) : who.other.other = who := by cases who <;> rfl

theorem Side.other_ne (who : Side) : who.other ≠ who := by cases who <;> exact nofun

theorem Side.eq_or (who side : Side) : side = who ∨ side = who.other := by
  cases who <;> cases side <;> simp [Side.other]

/-! ## Runs -/

section Runs
variable {State Event : Type}

/-- A run: each event must be possible where it happens. -/
def run (step : State → Event → Option State) (start : State) (events : List Event) : Option State :=
  events.foldlM step start

variable {step : State → Event → Option State}

@[simp] theorem run_nil (start : State) : run step start [] = some start := rfl

theorem run_append (start : State) (before after : List Event) :
    run step start (before ++ after) = (run step start before).bind fun st => run step st after :=
  List.foldlM_append

theorem run_singleton (start : State) (event : Event) : run step start [event] = step start event := by
  simp [run]

/-- What holds of the start, and is kept by each step that can happen, holds
    after every run, of the events so far and the state that they lead to. -/
theorem run_invariant (Holds : List Event → State → Prop) {start finish : State} {events : List Event}
    (first : Holds [] start)
    (keeps : ∀ past st, ∀ event ∈ events, ∀ next, Holds past st → step st event = some next →
      Holds (past ++ [event]) next)
    (executed : run step start events = some finish) : Holds events finish := by
  induction events using List.reverseRecOn generalizing finish with
  | nil =>
    cases executed
    exact first
  | append_singleton before event ih =>
    rw [run_append, Option.bind_eq_some_iff] at executed
    obtain ⟨middle, reached, last⟩ := executed
    rw [run_singleton] at last
    have earlier := ih (fun past st event member => keeps past st event (List.mem_append_left _ member)) reached
    exact keeps before middle event (by simp) finish earlier last

/-- Where the events of some are possible, with the same effect for them, in all states
    that are alike to them, and those of the others change nothing that they see, a run
    is for them as if only their own events had happened. -/
theorem run_filtered {Alike : State → State → Prop} {mine : Event → Prop} [DecidablePred mine]
    (respects : ∀ st other event next, ¬ mine event → Alike st other → step st event = some next → Alike next other)
    (follows : ∀ st other event next, mine event → Alike st other → step st event = some next →
      ∃ after, step other event = some after ∧ Alike next after)
    {start other finish : State} {events : List Event} (alike : Alike start other)
    (executed : run step start events = some finish) :
    ∃ after, run step other (events.filter mine) = some after ∧ Alike finish after := by
  induction events generalizing start other with
  | nil =>
    cases executed
    exact ⟨other, rfl, alike⟩
  | cons event rest ih =>
    obtain ⟨middle, first, later⟩ := Option.bind_eq_some_iff.mp (List.foldlM_cons.symm.trans executed)
    by_cases own : mine event
    · obtain ⟨next, moves, alike⟩ := follows start other event middle own alike first
      obtain ⟨after, reached, last⟩ := ih alike later
      refine ⟨after, ?_, last⟩
      rw [List.filter_cons_of_pos (p := fun event => decide (mine event)) (decide_eq_true own)]
      refine List.foldlM_cons.trans ?_
      rw [moves]
      exact reached
    · rw [List.filter_cons_of_neg (p := fun event => decide (mine event)) (by simpa using own)]
      exact ih (respects start other event middle own alike first) later

/-- Where in related states each event that is allowed does what a second system does with
    its own event for it, if it has one, the two runs stay related. -/
theorem run_related {State' Event' : Type} {step' : State' → Event' → Option State'} {project : Event → Option Event'}
    {Related : List Event → State → State' → Prop} {Allowed : List Event → Event → Prop}
    (follows : ∀ past event st other, Allowed past event → Related past st other →
      Option.Rel (Related (past ++ [event])) (step st event) (run step' other (project event).toList))
    {start : State} {other : State'} (first : Related [] start other) {events : List Event}
    (allowed : ∀ before event after, events = before ++ event :: after → Allowed before event) :
    Option.Rel (Related events) (run step start events) (run step' other (events.filterMap project)) := by
  induction events using List.reverseRecOn with
  | nil => exact .some first
  | append_singleton past event ih =>
    have earlier := ih fun before event' after split => allowed before event' (after ++ [event]) (by simp [split])
    have own : [event].filterMap project = (project event).toList := by cases here : project event <;> simp [here]
    rw [run_append, List.filterMap_append, own, run_append]
    generalize run step start past = reached, run step' other (past.filterMap project) = followed at earlier ⊢
    cases earlier with
    | none => exact .none
    | some related =>
      rw [Option.bind_some, Option.bind_some, run_singleton]
      exact follows past event _ _ (allowed past event [] rfl) related

/-- Where a property is kept by an event exactly when the event is allowed, it holds
    of every initial part of a history exactly when all its events are allowed. -/
theorem prefixes_iff {Holds : List Event → Prop} {Allowed : List Event → Event → Prop} (first : Holds [])
    (keeps : ∀ past event, Holds past → (Holds (past ++ [event]) ↔ Allowed past event)) (events : List Event) :
    (∀ before after, events = before ++ after → Holds before) ↔
      ∀ before event after, events = before ++ event :: after → Allowed before event := by
  constructor
  · intro all before event after split
    exact (keeps before event (all before (event :: after) split)).mp (all (before ++ [event]) after (by simp [split]))
  · intro all before
    induction before using List.reverseRecOn with
    | nil => exact fun _ _ => first
    | append_singleton past event ih =>
      intro after split
      rw [List.append_assoc] at split
      exact (keeps past event (ih _ split)).mpr (all past event after split)

end Runs

end Mcs.Histories
