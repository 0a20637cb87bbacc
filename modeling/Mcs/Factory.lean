import Mcs.Enumeration
import Mcs.Registry
import Mcs.Settings

/-!
A process with all its handles, of whatever backends. A backend keeps its name from
when it is registered until any backend of that name is unregistered, and of those that
want one name the first has it (`registered_first_iff`). As long as the built-in backend
has its own name whenever a handle is made, the functions of the others are never
called (`plugins_isolated_iff`), and sessions through the public functions are those of
the built-in backend (`public_uses_total_correct`).
-/
namespace Mcs.Factory
open Mcs.Dictionary Mcs.Dictionary.Patricia Mcs.Strings Mcs.KeyfileModel Mcs.Files Mcs.Histories Mcs.Backend
open Mcs.Enumeration Mcs.Settings
open Mcs.Registry hiding mcsNew
open Mcs.RoundTrip (nameA nameB)
open Mcs.Sessions (directoryA configPath_directoryA room_pathAB sectionOk_nameA)

/-! ## Who has a name -/

section
variable {T : Type → Type} [Patricia CString T] {B H : Type}

def turn (backends : Backends B H) : Call B → Turn CString B
  | .register b => .takes (backends.place b) b
  | .unregister b => .clears (backends.place b)

/-- The backend was the first to be registered under the name, `mcs_init` included,
    since the last call that unregistered the name. -/
def Has (backends : Backends B H) (calls : List (Call B)) (name : CString) (b : B) : Prop :=
  FirstSince name b ((.register backends.keyfileBackend :: calls).map (turn backends))

theorem retrieve_call (backends : Backends B H) (library : Library T B) (call : Call B) :
    retrieve (library.call backends call).mcsBackends = (turn backends call).apply (retrieve library.mcsBackends) := by
  funext name
  cases call with
  | register b =>
    refine (retrieve_register library.mcsBackends b name).trans ?_
    by_cases same : name = backends.place b
    · subst same
      simp [turn, Turn.apply]
    · simp [turn, Turn.apply, same]
  | unregister b =>
    refine (retrieve_unregister library.mcsBackends b name).trans ?_
    by_cases same : name = backends.place b
    · subst same
      simp [turn, Turn.apply]
    · simp [turn, Turn.apply, same]

theorem retrieve_afterCalls (backends : Backends B H) (calls : List (Call B)) :
    retrieve (afterCalls T backends calls).mcsBackends =
      occupy ((.register backends.keyfileBackend :: calls).map (turn backends)) := by
  induction calls using List.reverseRecOn with
  | nil =>
    refine (retrieve_call backends ⟨(create : T B), []⟩ (.register backends.keyfileBackend)).trans ?_
    have empty : retrieve (create : T B) = fun _ => none := funext fun name => retrieve_create name
    rw [empty]
    rfl
  | append_singleton before call ih =>
    rw [afterCalls_append, retrieve_call, ih, ← List.cons_append, List.map_append, List.map_singleton,
      occupy_append]

theorem has_iff (backends : Backends B H) (calls : List (Call B)) (name : CString) (b : B) :
    retrieve (afterCalls T backends calls).mcsBackends name = some b ↔ Has backends calls name b := by
  rw [retrieve_afterCalls, occupy_eq_some_iff]
  rfl

/-- What is listed, and what `mcs_new` finds, after any calls. -/
theorem registered_first_iff (backends : Backends B H) (calls : List (Call B)) :
    (∀ b, b ∈ mcsBackendGetList (afterCalls T backends calls).mcsBackends ↔
        Has backends calls (backends.place b) b) ∧
      (mcsBackendGetList (afterCalls T backends calls).mcsBackends).Nodup ∧
      ∀ domain b made, Registry.mcsNew backends (afterCalls T backends calls).mcsBackends domain = some (b, made) ↔
        Has backends calls (mcsStrcasecanon defaultName) b ∧ made = (backends.vtable b).mcsNew domain := by
  have filed : Filed backends (afterCalls T backends calls).mcsBackends := filed_afterCalls calls
  refine ⟨?_, getList_nodup filed, ?_⟩
  · intro b
    rw [mem_getList filed, has_iff]
  · intro domain b made
    simp only [Registry.mcsNew, mcsBackendSelect, Option.getD_some, Option.map_eq_some_iff, has_iff, Prod.mk.injEq]
    constructor
    · rintro ⟨found, has, rfl, rfl⟩
      exact ⟨has, rfl⟩
    · rintro ⟨has, rfl⟩
      exact ⟨b, has, rfl, rfl⟩

end

/-! ## Handles of all backends -/

/-- What is asked of a handle: `mcs_get_string` to `mcs_unset_key`, `mcs_get_keys`
    and `mcs_get_sections`. -/
inductive Demand where
  | request (request : Request)
  | getKeys (sect : CString)
  | getSections

inductive Returned where
  | answer (answer : Answer)
  | names (names : List CString)

/-- `mcs_handle_t`, where the backends keep data of their own types. -/
structure McsHandle {P : Type} (Own : P → Type) where
  base : P
  privHandle : Own base

/-- The functions of `mcs_backend_t` on its handles. They share a world with all other
    backends, and the destructor depends on what becomes of the calls it makes. -/
structure Functions (Own W E : Type) where
  perform : Demand → Own → W → (Own × W) × Returned
  mcsDestroy : E → Own → W → W

/-- The backend that `mcs_init` registers. The handles that it makes are its own. -/
structure BuiltIn (S W E : Type) extends Functions S W E where
  mcsNew : CString → W → Option S × W

/-- The functions of `keyfile_backend`. -/
def keyfileFunctions (T : Type → Type) [Patricia CString T] (library : Conversions) (env : Environment) :
    BuiltIn (Handle T) (Disk CString) World where
  perform
    | .request request, self, disk =>
      (((request.perform library self).1, disk), .answer (request.perform library self).2)
    | .getKeys sect, self, disk => ((self, disk), .names (mcsKeyfileGetKeys self sect))
    | .getSections, self, disk => ((self, disk), .names (mcsKeyfileGetSections self))
  mcsDestroy world self disk := saved self world disk
  mcsNew domain disk := (mcsKeyfileNew env domain disk, disk)

/-- Pointers to backends. -/
inductive Base (B : Type) where
  | keyfileBackend
  | plugin (b : B)

def Base.Own {B : Type} (S : Type) (Own : B → Type) : Base B → Type
  | .keyfileBackend => S
  | .plugin b => Own b

/-- The backends that a process brings. Their constructors may make any handle. -/
structure Plugins (B S W E : Type) where
  Own : B → Type
  vtable : B → VTable (W → Option (McsHandle (Base.Own S Own)) × W)
  functions : ∀ b, Functions (Own b) W E

variable {T : Type → Type} [Patricia CString T] {B S W E Who : Type}

/-- All handles of a process. -/
abbrev Plugins.Handle (plugins : Plugins B S W E) := McsHandle (Base.Own S plugins.Own)

def table (builtIn : BuiltIn S W E) (plugins : Plugins B S W E) :
    Backends (Base B) (W → Option plugins.Handle × W) where
  vtable
    | .keyfileBackend => ⟨defaultName, fun domain world =>
        ((builtIn.mcsNew domain world).1.map fun own => ⟨.keyfileBackend, own⟩, (builtIn.mcsNew domain world).2)⟩
    | .plugin b => plugins.vtable b
  keyfileBackend := .keyfileBackend
  keyfileName := rfl

def functions (builtIn : BuiltIn S W E) (plugins : Plugins B S W E) :
    (base : Base B) → Functions (base.Own S plugins.Own) W E
  | .keyfileBackend => builtIn.toFunctions
  | .plugin b => plugins.functions b

/-- `mcs_new`. -/
def mcsNew (builtIn : BuiltIn S W E) (plugins : Plugins B S W E) (mcsBackends : T (Base B)) (domain : CString)
    (world : W) : Option plugins.Handle × W :=
  match Registry.mcsNew (table builtIn plugins) mcsBackends domain with
  | some found => found.2 world
  | none => (none, world)

/-- `mcs_get_string` to `mcs_get_sections`, which go to the handle's own backend. -/
def mcsDemand (builtIn : BuiltIn S W E) (plugins : Plugins B S W E) (self : plugins.Handle) (demand : Demand)
    (world : W) : (plugins.Handle × W) × Returned :=
  let done := (functions builtIn plugins self.base).perform demand self.privHandle world
  ((⟨self.base, done.1.1⟩, done.1.2), done.2)

/-- `mcs_destroy`, of a handle to which there is one reference. -/
def mcsDestroy (builtIn : BuiltIn S W E) (plugins : Plugins B S W E) (outcome : E) (self : plugins.Handle)
    (world : W) : W :=
  (functions builtIn plugins self.base).mcsDestroy outcome self.privHandle world

/-! ## Processes -/

/-- What a process does with a handle that it keeps in a variable. -/
inductive Move (Who E : Type) where
  | opens (who : Who) (domain : CString)
  | demands (who : Who) (demand : Demand)
  | destroys (who : Who) (outcome : E)

inductive Event (B Who E : Type) where
  | calls (call : Call (Base B))
  | moves (move : Move Who E)

def Event.call : Event B Who E → Option (Call (Base B))
  | .calls call => some call
  | .moves _ => none

def Event.move : Event B Who E → Option (Move Who E)
  | .calls _ => none
  | .moves move => some move

/-- What the calls on handles have returned. -/
inductive Shown (Who : Type) where
  | opened (who : Who) (found : Bool)
  | gave (who : Who) (outcome : Returned)

structure Process (T : Type → Type) [Patricia CString T] (plugins : Plugins B S W E) (Who : Type) where
  library : Library T (Base B)
  handles : Who → Option plugins.Handle
  world : W
  shown : List (Shown Who)

/-- `mcs_init`. -/
def Process.start (T : Type → Type) [Patricia CString T] (builtIn : BuiltIn S W E) (plugins : Plugins B S W E)
    (Who : Type) (world : W) : Process T plugins Who :=
  ⟨mcsInit (table builtIn plugins), fun _ => none, world, []⟩

/-- One call of the library; a null pointer is not used. -/
def step [DecidableEq Who] (builtIn : BuiltIn S W E) (plugins : Plugins B S W E) (st : Process T plugins Who) :
    Event B Who E → Option (Process T plugins Who)
  | .calls call => some { st with library := st.library.call (table builtIn plugins) call }
  | .moves (.opens who domain) =>
    let made := mcsNew builtIn plugins st.library.mcsBackends domain st.world
    some { st with
      handles := Function.update st.handles who made.1
      world := made.2
      shown := st.shown ++ [.opened who made.1.isSome] }
  | .moves (.demands who demand) =>
    (st.handles who).map fun self =>
      let done := mcsDemand builtIn plugins self demand st.world
      { st with
        handles := Function.update st.handles who (some done.1.1)
        world := done.1.2
        shown := st.shown ++ [.gave who done.2] }
  | .moves (.destroys who outcome) =>
    (st.handles who).map fun self =>
      { st with
        handles := Function.update st.handles who none
        world := mcsDestroy builtIn plugins outcome self st.world }

/-! ## The built-in backend by itself -/

structure Alone (S W Who : Type) where
  handles : Who → Option S
  world : W
  shown : List (Shown Who)

def Alone.start (S Who : Type) (world : W) : Alone S W Who := ⟨fun _ => none, world, []⟩

/-- The same calls on the built-in backend's own functions. -/
def aloneStep [DecidableEq Who] (builtIn : BuiltIn S W E) (st : Alone S W Who) : Move Who E → Option (Alone S W Who)
  | .opens who domain =>
    let made := builtIn.mcsNew domain st.world
    some ⟨Function.update st.handles who made.1, made.2, st.shown ++ [.opened who made.1.isSome]⟩
  | .demands who demand =>
    (st.handles who).map fun own =>
      let done := builtIn.perform demand own st.world
      ⟨Function.update st.handles who (some done.1.1), done.1.2, st.shown ++ [.gave who done.2]⟩
  | .destroys who outcome =>
    (st.handles who).map fun own =>
      ⟨Function.update st.handles who none, builtIn.mcsDestroy outcome own st.world, st.shown⟩

/-- A process whose handles are all the built-in backend's. -/
structure Shows (plugins : Plugins B S W E) (st : Process T plugins Who) (alone : Alone S W Who) : Prop where
  handles : st.handles = fun who => (alone.handles who).map fun own => ⟨.keyfileBackend, own⟩
  world : st.world = alone.world
  shown : st.shown = alone.shown

/-- If this makes a handle, the built-in backend has its name. -/
def Permitted (builtIn : BuiltIn S W E) (plugins : Plugins B S W E) (past : List (Event B Who E))
    (event : Event B Who E) : Prop :=
  ∀ who domain, event = .moves (.opens who domain) →
    Has (table builtIn plugins) (past.filterMap Event.call) (mcsStrcasecanon defaultName) .keyfileBackend

/-- Whenever a handle is made, the built-in backend has its name. -/
def Kept (builtIn : BuiltIn S W E) (plugins : Plugins B S W E) (events : List (Event B Who E)) : Prop :=
  ∀ before event after, events = before ++ event :: after → Permitted builtIn plugins before event

section
variable {builtIn : BuiltIn S W E} {plugins : Plugins B S W E}

theorem mcsNew_of_has {calls : List (Call (Base B))}
    (has : Has (table builtIn plugins) calls (mcsStrcasecanon defaultName) .keyfileBackend) (domain : CString)
    (world : W) :
    mcsNew builtIn plugins (afterCalls T (table builtIn plugins) calls).mcsBackends domain world =
      ((builtIn.mcsNew domain world).1.map fun own => ⟨.keyfileBackend, own⟩, (builtIn.mcsNew domain world).2) := by
  have held := (has_iff (T := T) (table builtIn plugins) calls _ _).mpr has
  simp only [mcsNew, Registry.mcsNew, mcsBackendSelect, Option.getD_some, held, Option.map_some]
  rfl

/-- The registry is as the calls say, and the handles are the built-in backend's. -/
def Follows (T : Type → Type) [Patricia CString T] (builtIn : BuiltIn S W E) (plugins : Plugins B S W E)
    (past : List (Event B Who E)) (st : Process T plugins Who) (alone : Alone S W Who) : Prop :=
  st.library = afterCalls T (table builtIn plugins) (past.filterMap Event.call) ∧ Shows plugins st alone

theorem kept_append (past : List (Event B Who E)) (event : Event B Who E) :
    Kept builtIn plugins (past ++ [event]) ↔ Kept builtIn plugins past ∧ Permitted builtIn plugins past event := by
  constructor
  · intro kept
    exact ⟨fun before other after split => kept before other (after ++ [event]) (by simp [split]),
      kept past event [] rfl⟩
  · rintro ⟨kept, permitted⟩ before other after split
    rcases split_last split with ⟨_, rfl, rfl⟩ | ⟨rest, _, earlier⟩
    · exact permitted
    · exact kept before other rest earlier

/-- Who has a name depends on the names only. -/
theorem permitted_congr {other : Plugins B S W E} (names : ∀ b, (other.vtable b).name = (plugins.vtable b).name)
    {past : List (Event B Who E)} {event : Event B Who E} (permitted : Permitted builtIn plugins past event) :
    Permitted builtIn other past event := by
  have turns : turn (table builtIn other) = turn (table builtIn plugins) := by
    have places : (table builtIn other).place = (table builtIn plugins).place := by
      funext base
      cases base with
      | keyfileBackend => rfl
      | plugin b => exact congrArg mcsStrcasecanon (names b)
    funext call
    cases call <;> simp only [turn, places]
  intro who domain opens
  have has := permitted who domain opens
  unfold Has at has ⊢
  rw [turns]
  exact has

/-- The built-in backend keeps its name until a backend of that name is unregistered. -/
theorem kept_of_registered {events : List (Event B Who E)}
    (stays : ∀ b, .calls (.unregister b) ∈ events →
      (table builtIn plugins).place b ≠ mcsStrcasecanon defaultName) :
    Kept builtIn plugins events := by
  rintro before event after rfl who domain rfl
  refine ⟨[], (before.filterMap Event.call).map (turn (table builtIn plugins)), rfl, ?_, ?_⟩
  · intro past value rest split
    simp at split
  · intro cleared
    obtain ⟨call, member, turns⟩ := List.mem_map.mp cleared
    obtain ⟨event, inside, calls⟩ := List.mem_filterMap.mp member
    cases call with
    | register b => cases turns
    | unregister b =>
      cases event with
      | moves move => cases calls
      | calls call =>
        cases calls
        exact stays b (List.mem_append_left _ inside) (Turn.clears.inj turns)

variable [DecidableEq Who]

/-- Handles are changed on both sides. -/
theorem shown_update {handles : Who → Option S} (who : Who) (own : Option S) :
    Function.update (fun who => (handles who).map fun own => (⟨.keyfileBackend, own⟩ : plugins.Handle)) who
        (own.map fun own => ⟨.keyfileBackend, own⟩) =
      fun other => (Function.update handles who own other).map fun own => ⟨.keyfileBackend, own⟩ :=
  (Function.comp_update (Option.map fun own => (⟨.keyfileBackend, own⟩ : plugins.Handle)) handles who own).symm

theorem follows_event {past : List (Event B Who E)} {event : Event B Who E} {st : Process T plugins Who}
    {alone : Alone S W Who} (permitted : Permitted builtIn plugins past event)
    (follows : Follows T builtIn plugins past st alone) :
    Option.Rel (Follows T builtIn plugins (past ++ [event])) (step builtIn plugins st event)
      (run (aloneStep builtIn) alone event.move.toList) := by
  obtain ⟨library, handles, world, shown⟩ := st
  obtain ⟨owns, world', shown'⟩ := alone
  obtain ⟨known, own, there, said⟩ := follows
  dsimp only at known own there said
  subst known own there said
  cases event with
  | calls call =>
    refine .some ⟨?_, rfl, rfl, rfl⟩
    rw [List.filterMap_append]
    exact (afterCalls_append (past.filterMap Event.call) call).symm
  | moves move =>
    have same : (past ++ [Event.moves move]).filterMap Event.call = past.filterMap Event.call := by simp [Event.call]
    show Option.Rel _ _ (run _ _ [move])
    rw [run_singleton]
    cases move with
    | opens who domain =>
      have made := mcsNew_of_has (T := T) (permitted who domain rfl) domain world
      simp only [step, aloneStep, made]
      refine .some ⟨by rw [same], shown_update who _, rfl, ?_⟩
      rw [Option.isSome_map]
    | demands who demand =>
      simp only [step, aloneStep]
      cases owns who with
      | none => exact .none
      | some own => exact .some ⟨by rw [same], shown_update who (some _), rfl, rfl⟩
    | destroys who outcome =>
      simp only [step, aloneStep]
      cases owns who with
      | none => exact .none
      | some own => exact .some ⟨by rw [same], shown_update who none, rfl, rfl⟩

theorem follows_run {events : List (Event B Who E)} (kept : Kept builtIn plugins events) (world : W) :
    Option.Rel (Follows T builtIn plugins events)
      (run (step builtIn plugins) (Process.start T builtIn plugins Who world) events)
      (run (aloneStep builtIn) (Alone.start S Who world) (events.filterMap Event.move)) :=
  run_related (fun _ _ _ _ permitted follows => follows_event permitted follows) ⟨rfl, rfl, rfl, rfl⟩ kept

/-- What has been shown stays shown. -/
theorem shown_run {events : List (Event B Who E)} {st next : Process T plugins Who}
    (executed : run (step builtIn plugins) st events = some next) : st.shown <+: next.shown := by
  refine run_invariant (fun _ reached => st.shown <+: reached.shown) List.prefix_rfl ?_ executed
  intro _ reached event _ after before taken
  refine before.trans ?_
  cases event with
  | calls call =>
    cases taken
    exact List.prefix_rfl
  | moves move =>
    cases move with
    | opens who domain =>
      cases taken
      exact List.prefix_append _ _
    | demands who demand =>
      obtain ⟨_, _, rfl⟩ := Option.map_eq_some_iff.mp taken
      exact List.prefix_append _ _
    | destroys who outcome =>
      obtain ⟨_, _, rfl⟩ := Option.map_eq_some_iff.mp taken
      exact List.prefix_rfl

theorem shown_alone {moves : List (Move Who E)} {st next : Alone S W Who}
    (executed : run (aloneStep builtIn) st moves = some next) : st.shown <+: next.shown := by
  refine run_invariant (fun _ reached => st.shown <+: reached.shown) List.prefix_rfl ?_ executed
  intro _ reached move _ after before taken
  refine before.trans ?_
  cases move with
  | opens who domain =>
    cases taken
    exact List.prefix_append _ _
  | demands who demand =>
    obtain ⟨_, _, rfl⟩ := Option.map_eq_some_iff.mp taken
    exact List.prefix_append _ _
  | destroys who outcome =>
    obtain ⟨_, _, rfl⟩ := Option.map_eq_some_iff.mp taken
    exact List.prefix_rfl

/-- Backends of the same names, whose constructors make no handle. -/
def barren (plugins : Plugins B S W E) : Plugins B S W E where
  Own _ := Unit
  vtable b := ⟨(plugins.vtable b).name, fun _ world => (none, world)⟩
  functions _ := ⟨fun _ own world => ((own, world), .names []), fun _ _ world => world⟩

theorem mcsNew_barren {calls : List (Call (Base B))}
    (lacks : ¬ Has (table builtIn (barren plugins)) calls (mcsStrcasecanon defaultName) .keyfileBackend)
    (domain : CString) (world : W) :
    mcsNew builtIn (barren plugins) (afterCalls T (table builtIn (barren plugins)) calls).mcsBackends domain world =
      (none, world) := by
  rw [← has_iff (T := T)] at lacks
  simp only [mcsNew, Registry.mcsNew, mcsBackendSelect, Option.getD_some]
  cases held : retrieve (afterCalls T (table builtIn (barren plugins)) calls).mcsBackends
      (mcsStrcasecanon defaultName) with
  | none => rfl
  | some base =>
    cases base with
    | keyfileBackend => exact absurd held lacks
    | plugin b => rfl

/-- A handle that such a backend should have made is missed at once, as what is shown
    then stays shown. -/
theorem permitted_of_barren (makes : ∀ domain world, (builtIn.mcsNew domain world).1.isSome)
    {past after : List (Event B Who E)} {event : Event B Who E} {middle st : Process T (barren plugins) Who}
    {between finish : Alone S W Who}
    (follows : Follows T builtIn (barren plugins) past middle between)
    (reached : run (step builtIn (barren plugins)) middle ([event] ++ after) = some st)
    (executed : run (aloneStep builtIn) between ([event].filterMap Event.move ++ after.filterMap Event.move) =
      some finish)
    (shown : st.shown = finish.shown) : Permitted builtIn (barren plugins) past event := by
  rintro who domain rfl
  by_contra lacks
  rw [run_append, Option.bind_eq_some_iff] at reached executed
  obtain ⟨next, opened, later⟩ := reached
  obtain ⟨following, made, rest⟩ := executed
  have missed : middle.shown ++ [.opened who false] <+: st.shown := by
    have none := mcsNew_barren (T := T) lacks domain middle.world
    rw [run_singleton, step, follows.1, none, Option.some.injEq] at opened
    subst opened
    exact shown_run later
  have there : between.shown ++ [.opened who true] <+: finish.shown := by
    have one : run (aloneStep builtIn) between [.opens who domain] = some following := made
    rw [run_singleton, aloneStep, makes, Option.some.injEq] at one
    subst one
    exact shown_alone rest
  rw [shown, follows.2.shown] at missed
  have same := (List.prefix_of_prefix_length_le missed there (by simp)).eq_of_length (by simp)
  simp at same

theorem kept_of_barren (makes : ∀ domain world, (builtIn.mcsNew domain world).1.isSome) {world : W}
    {events : List (Event B Who E)} {st : Process T (barren plugins) Who} {finish : Alone S W Who}
    (reached : run (step builtIn (barren plugins)) (Process.start T builtIn (barren plugins) Who world) events =
      some st)
    (executed : run (aloneStep builtIn) (Alone.start S Who world) (events.filterMap Event.move) = some finish)
    (shown : st.shown = finish.shown) {past after : List (Event B Who E)} (split : events = past ++ after) :
    Kept builtIn (barren plugins) past := by
  induction past using List.reverseRecOn generalizing after with
  | nil =>
    intro before event rest empty
    simp at empty
  | append_singleton past event ih =>
    rw [List.append_assoc] at split
    have kept := ih split
    have followed := follows_run (T := T) kept world
    rw [split, run_append, Option.bind_eq_some_iff] at reached
    rw [split, List.filterMap_append, run_append, Option.bind_eq_some_iff, List.filterMap_append] at executed
    obtain ⟨middle, first, later⟩ := reached
    obtain ⟨between, begun, rest⟩ := executed
    rw [first, begun] at followed
    cases followed with
    | some follows => exact (kept_append past event).mpr ⟨kept, permitted_of_barren makes follows later rest shown⟩

/-- Whatever the other backends do, given their names, a process sees what it would see
    if there was only the built-in one: exactly when that has its name whenever a handle
    is made. -/
theorem plugins_isolated_iff (T : Type → Type) [Patricia CString T] (plugins : Plugins B S W E)
    (makes : ∀ domain world, (builtIn.mcsNew domain world).1.isSome) (world : W) {events : List (Event B Who E)}
    {finish : Alone S W Who}
    (executed : run (aloneStep builtIn) (Alone.start S Who world) (events.filterMap Event.move) = some finish) :
    (∀ other : Plugins B S W E, (∀ b, (other.vtable b).name = (plugins.vtable b).name) →
        ∃ st, run (step builtIn other) (Process.start T builtIn other Who world) events = some st ∧
          Shows other st finish) ↔
      Kept builtIn plugins events := by
  constructor
  · intro isolated
    obtain ⟨st, reached, shows⟩ := isolated (barren plugins) fun _ => rfl
    have kept := kept_of_barren makes reached executed shows.shown (List.append_nil events).symm
    have names : ∀ b, (plugins.vtable b).name = ((barren plugins).vtable b).name := fun _ => rfl
    exact fun before event after split => permitted_congr names (kept before event after split)
  · intro kept other names
    have keeps : Kept builtIn other events := fun before event after split =>
      permitted_congr names (kept before event after split)
    have followed := follows_run (T := T) keeps world
    rw [executed] at followed
    generalize run (step builtIn other) (Process.start T builtIn other Who world) events = reached at followed ⊢
    cases followed with
    | some follows => exact ⟨_, rfl, follows.2⟩

end

/-! ### A backend of the built-in one's name -/

/-- A backend called `DEFAULT`, whose functions clear the disk. -/
def clearing (S : Type) : Plugins Unit S (Disk CString) World where
  Own _ := Unit
  vtable _ := ⟨otherName, fun _ _ => (some ⟨.plugin (), ()⟩, .empty)⟩
  functions _ := ⟨fun _ own _ => ((own, .empty), .names []), fun _ _ _ => .empty⟩

/-- It is registered before a handle is made. -/
def registering : List (Event Unit Unit World) :=
  [.calls (.register (.plugin ())), .moves (.opens () nameB), .moves (.destroys () (calm 4096))]

/-- The built-in backend where configurations lie in the directory `a`. -/
def keyfileA : BuiltIn (Handle (Assoc false CString)) (Disk CString) World :=
  keyfileFunctions (Assoc false CString) nearestLibrary directoryA

theorem keyfileA_makes (domain : CString) (disk : Disk CString) : (keyfileA.mcsNew domain disk).1.isSome := by
  have path := configPath_eq directoryA domain
  obtain ⟨self, opened, _⟩ := Sessions.mcsKeyfileNew_total_correct (T := Assoc false CString) path disk
  show (mcsKeyfileNew directoryA domain disk).isSome
  rw [opened]
  rfl

theorem kept_registering : Kept keyfileA (clearing _) registering :=
  kept_of_registered fun b member => by simp [registering] at member

theorem plugins_isolated_iff_register : ∃ finish,
    run (aloneStep keyfileA) (Alone.start _ Unit .empty) [.opens () nameB, .destroys () (calm 4096)] = some finish ∧
      ∀ other : Plugins Unit _ (Disk CString) World, (∀ b, (other.vtable b).name = otherName) →
        ∃ st, run (step keyfileA other) (Process.start (Assoc false CString) keyfileA other Unit .empty) registering =
          some st ∧ Shows other st finish := by
  obtain ⟨self, opened, _⟩ :=
    Sessions.mcsKeyfileNew_total_correct (T := Assoc false CString) configPath_directoryA .empty
  obtain ⟨finish, executed⟩ : ∃ finish, run (aloneStep keyfileA) (Alone.start _ Unit .empty)
      [.opens () nameB, .destroys () (calm 4096)] = some finish := by
    simp [run, aloneStep, keyfileA, keyfileFunctions, Alone.start, opened]
  have moved : run (aloneStep keyfileA) (Alone.start _ Unit .empty) (registering.filterMap Event.move) = some finish :=
    executed
  exact ⟨finish, executed,
    (plugins_isolated_iff (Assoc false CString) (clearing _) keyfileA_makes .empty moved).mpr kept_registering⟩

/-! ## Sessions -/

def moves (who : Who) (domain : CString) (use : Use) : List (Move Who World) :=
  [.opens who domain] ++ use.requests.map (fun request => .demands who (.request request)) ++ [.destroys who use.world]

def Shown.answer : Shown Who → Option Answer
  | .gave _ (.answer answer) => some answer
  | _ => none

section
variable [DecidableEq Who] {library : Conversions} {env : Environment} {domain loc : CString}

theorem alone_requests (who : Who) (requests : List Request) {self : Handle T}
    {st : Alone (Handle T) (Disk CString) Who} (held : st.handles who = some self) :
    ∃ next, run (aloneStep (keyfileFunctions T library env)) st
        (requests.map fun request => .demands who (.request request)) = some next ∧
      next.handles who = some (performRequests library self requests).1 ∧ next.world = st.world ∧
      next.shown.filterMap Shown.answer =
        st.shown.filterMap Shown.answer ++ (performRequests library self requests).2 := by
  induction requests generalizing self st with
  | nil => exact ⟨st, rfl, held, rfl, by simp [performRequests]⟩
  | cons request rest ih =>
    let first : Alone (Handle T) (Disk CString) Who :=
      ⟨Function.update st.handles who (some (request.perform library self).1), st.world,
        st.shown ++ [.gave who (.answer (request.perform library self).2)]⟩
    have changed : first.handles who = some (request.perform library self).1 := Function.update_self ..
    obtain ⟨next, executed, holds, world, shown⟩ := ih changed
    refine ⟨next, ?_, holds, world, ?_⟩
    · rw [List.map_cons, ← List.singleton_append, run_append, run_singleton, aloneStep, held, Option.map_some,
        Option.bind_some]
      exact executed
    · rw [shown, List.filterMap_append, List.append_assoc]
      rfl

theorem alone_use (who : Who) {use : Use} {st : Alone (Handle T) (Disk CString) Who}
    {done : Disk CString × List Answer}
    (ran : use.run T library env domain st.world = some done) :
    ∃ next, run (aloneStep (keyfileFunctions T library env)) st (moves who domain use) = some next ∧
      next.world = done.1 ∧ next.shown.filterMap Shown.answer = st.shown.filterMap Shown.answer ++ done.2 := by
  obtain ⟨self, opened, rfl⟩ := Option.map_eq_some_iff.mp ran
  let first : Alone (Handle T) (Disk CString) Who :=
    ⟨Function.update st.handles who (some self), st.world, st.shown ++ [.opened who true]⟩
  have held : first.handles who = some self := Function.update_self ..
  obtain ⟨last, executed, holds, world, shown⟩ := alone_requests who use.requests held
  have start : run (aloneStep (keyfileFunctions T library env)) st [.opens who domain] = some first := by
    rw [run_singleton, aloneStep]
    simp only [keyfileFunctions, opened]
    rfl
  refine ⟨⟨Function.update last.handles who none,
    saved (performRequests library self use.requests).1 use.world last.world, last.shown⟩, ?_, ?_, ?_⟩
  · rw [moves, run_append, run_append, start, Option.bind_some, executed, Option.bind_some, run_singleton, aloneStep,
      holds]
    rfl
  · rw [world]
  · rw [shown, List.filterMap_append]
    simp [Shown.answer]

theorem alone_uses (who : Who) {uses : List Use} {st : Alone (Handle T) (Disk CString) Who}
    {done : Disk CString × List Answer} (ran : runUses T library env domain uses st.world = some done) :
    ∃ next, run (aloneStep (keyfileFunctions T library env)) st (uses.flatMap (moves who domain)) = some next ∧
      next.shown.filterMap Shown.answer = st.shown.filterMap Shown.answer ++ done.2 := by
  induction uses generalizing st done with
  | nil =>
    cases ran
    exact ⟨st, rfl, (List.append_nil _).symm⟩
  | cons use rest ih =>
    obtain ⟨middle, first, later⟩ := Option.bind_eq_some_iff.mp ran
    obtain ⟨last, others, rfl⟩ := Option.map_eq_some_iff.mp later
    obtain ⟨next, executed, world, shown⟩ := alone_use who first
    rw [← world] at others
    obtain ⟨finish, reached, all⟩ := ih others
    refine ⟨finish, ?_, ?_⟩
    · rw [List.flatMap_cons, run_append, executed, Option.bind_some, reached]
    · rw [all, shown, List.append_assoc]

/-- Sessions through the public functions, among any calls that register and unregister
    backends: each read gives what is read of the last setting of its entry. -/
theorem public_uses_total_correct (plugins : Plugins B (Handle T) (Disk CString) World) (library : Conversions)
    (path : configPath env domain = some loc) (room : Room loc) (disk : Disk CString) (absent : disk.content loc = none)
    (uses : List Use) (fine : ∀ use ∈ uses, use.world.Fine)
    (ok : ∀ use ∈ uses, ∀ request ∈ use.requests, request.Ok) (who : Who) {events : List (Event B Who World)}
    (sessions : events.filterMap Event.move = uses.flatMap (moves who domain))
    (kept : Kept (keyfileFunctions T library env) plugins events) :
    ∃ st, run (step (keyfileFunctions T library env) plugins)
        (Process.start T (keyfileFunctions T library env) plugins Who disk) events = some st ∧
      st.shown.filterMap Shown.answer = answers library [] (uses.flatMap Use.requests) := by
  have current : Sessions.Current (([] : List Request).map Request.op) (Reading.loadFile (disk.content loc)) := by
    rw [absent]
    exact Sessions.current_empty
  obtain ⟨after, ran⟩ := runUses_total_correct (T := T) library path room fine ok current
  let start : Alone (Handle T) (Disk CString) Who := Alone.start (Handle T) Who disk
  obtain ⟨finish, executed, shown⟩ : ∃ finish, run _ start _ = some finish ∧ _ := alone_uses who ran
  have followed := follows_run (T := T) kept disk
  rw [sessions, executed] at followed
  generalize run (step (keyfileFunctions T library env) plugins)
    (Process.start T (keyfileFunctions T library env) plugins Who disk) events = reached at followed ⊢
  cases followed with
  | some follows => exact ⟨_, rfl, by rw [follows.2.shown, shown]; rfl⟩

end

/-- An integer is set in one session and read in the next, with a backend of the built-in
    one's name registered in between. -/
theorem public_uses_total_correct_two : ∃ st,
    run (step keyfileA (clearing _))
        (Process.start (Assoc false CString) keyfileA (clearing _) Unit .empty)
        ((moves () nameB ⟨[.set nameA nameA (.int (-12))], calm 4096⟩).map .moves ++
          .calls (.register (.plugin ())) ::
          (moves () nameB ⟨[.get .int nameA nameA 0], calm 4096⟩).map .moves) = some st ∧
      st.shown.filterMap Shown.answer = [⟨.MCS_OK, none⟩, ⟨.MCS_OK, some ⟨.int, (-12 : Int32)⟩⟩] := by
  refine public_uses_total_correct (clearing _) nearestLibrary configPath_directoryA room_pathAB
    .empty rfl [⟨[.set nameA nameA (.int (-12))], calm 4096⟩,
      ⟨[.get .int nameA nameA 0], calm 4096⟩] ?_ ?_ () rfl ?_
  · intro use member
    simp only [List.mem_cons, List.not_mem_nil, or_false] at member
    rcases member with rfl | rfl <;> exact calm_fine 4096
  · intro use member request inUse sect key setting change
    simp only [List.mem_cons, List.not_mem_nil, or_false] at member
    rcases member with rfl | rfl
    · cases List.mem_singleton.mp inUse
      cases change
      exact ⟨sectionOk_nameA, by decide +kernel⟩
    · cases List.mem_singleton.mp inUse
      cases change
  · exact kept_of_registered fun b member => by simp [moves] at member

end Mcs.Factory
