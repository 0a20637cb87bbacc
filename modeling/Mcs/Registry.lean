import Mcs.Backend
import Mcs.Histories

/-!
The registry of backends. It is a tree filed by name, and the names are canonised
to upper case, so that two backends can want one place: the first one keeps it,
though the second one is told that it was registered, and whichever of them is
unregistered, the place is emptied. The list of backends is what the calls say, in
every state of a run, exactly when no call meets another backend of its name
(`registry_iff`).
-/
namespace Mcs.Registry
open Mcs.Dictionary Mcs.Dictionary.Patricia Mcs.Strings Mcs.KeyfileModel Mcs.Files Mcs.Histories Mcs.Backend

/-! ## Names -/

/-- `toupper`, in the C locale. -/
def toupper (byte : UInt8) : UInt8 := if 97 ≤ byte ∧ byte ≤ 122 then byte - 32 else byte

theorem toupper_ne_zero {byte : UInt8} (nonzero : byte ≠ 0) : toupper byte ≠ 0 := by
  unfold toupper
  split
  · rename_i lower
    rw [UInt8.le_iff_toNat_le, UInt8.le_iff_toNat_le] at lower
    intro zero
    have value := congrArg UInt8.toNat zero
    rw [UInt8.toNat_sub_of_le _ _ (by rw [UInt8.le_iff_toNat_le]; exact Nat.le_trans (by decide) lower.1)] at value
    have low : 97 ≤ byte.toNat := lower.1
    have sub : byte.toNat - 32 = 0 := value
    omega
  · exact nonzero

/-- `mcs_strcasecanon`, which rewrites a string byte by byte up to its NUL. -/
def mcsStrcasecanon (str : CString) : CString where
  bytes := str.bytes.map toupper
  noNul := by
    intro nul
    obtain ⟨byte, member, zero⟩ := List.mem_map.mp nul
    exact toupper_ne_zero (fun same => str.noNul (same ▸ member)) zero

/-- The text `default`. -/
def defaultName : CString := ⟨[100, 101, 102, 97, 117, 108, 116], by decide⟩

/-! ## Backends -/

/-- The part of `mcs_backend_t` that the registry reads: a backend's name, and the
    constructor of its handles. -/
structure VTable (H : Type) where
  name : CString
  mcsNew : CString → H

/-- Pointers to backends, and what they point to. One is the built-in backend. -/
structure Backends (B H : Type) where
  vtable : B → VTable H
  keyfileBackend : B
  keyfileName : (vtable keyfileBackend).name = defaultName

variable {T : Type → Type} [Patricia CString T] {B H : Type}

/-- The name that a backend is filed under: the tree was created with
    `mcs_strcasecanon`, which it applies to every key. -/
def Backends.place (backends : Backends B H) (b : B) : CString := mcsStrcasecanon (backends.vtable b).name

/-- `mcs_backend_register` does not look at what `mowgli_patricia_add` returns. -/
def mcsBackendRegister (backends : Backends B H) (mcsBackends : T B) (b : B) : T B × Response :=
  (add mcsBackends (backends.place b) b, .MCS_OK)

def mcsBackendUnregister (backends : Backends B H) (mcsBackends : T B) (b : B) : T B × Response :=
  (delete mcsBackends (backends.place b), .MCS_OK)

/-- `mcs_backend_get_list`; `mowgli_queue_shift` puts a backend in front. -/
def mcsBackendGetList (mcsBackends : T B) : List B := (foreach mcsBackends).foldl (fun l entry => entry.2 :: l) []

def mcsBackendSelect : Option CString := some defaultName

/-- `mcs_new`: the backend that it finds, and the handle that it makes with it. -/
def mcsNew (backends : Backends B H) (mcsBackends : T B) (domain : CString) : Option (B × H) :=
  let magic := mcsBackendSelect.getD defaultName
  (retrieve mcsBackends (mcsStrcasecanon magic)).map fun b => (b, (backends.vtable b).mcsNew domain)

/-! ## Runs -/

inductive Call (B : Type) where
  | register (b : B)
  | unregister (b : B)

def Call.backend : Call B → B
  | .register b => b
  | .unregister b => b

def Call.perform (call : Call B) (backends : Backends B H) (mcsBackends : T B) : T B × Response :=
  match call with
  | .register b => mcsBackendRegister backends mcsBackends b
  | .unregister b => mcsBackendUnregister backends mcsBackends b

/-- The registry, and the calls so far with what they returned. -/
structure Library (T : Type → Type) (B : Type) where
  mcsBackends : T B
  past : List (Call B × Response)

def Library.call (library : Library T B) (backends : Backends B H) (call : Call B) : Library T B where
  mcsBackends := (call.perform backends library.mcsBackends).1
  past := library.past ++ [(call, (call.perform backends library.mcsBackends).2)]

/-- `mcs_init`, which registers the built-in backend. -/
def mcsInit (backends : Backends B H) : Library T B :=
  Library.call ⟨create, []⟩ backends (.register backends.keyfileBackend)

def afterCalls (T : Type → Type) [Patricia CString T] (backends : Backends B H) (calls : List (Call B)) : Library T B :=
  calls.foldl (fun library call => library.call backends call) (mcsInit backends)

/-! ## What the calls say -/

/-- A call that registered the backend returned success, and it has not been
    unregistered since. -/
def Registered (past : List (Call B × Response)) (b : B) : Prop :=
  ∃ before after, past = before ++ (.register b, .MCS_OK) :: after ∧ ∀ response, (.unregister b, response) ∉ after

/-- The list has the registered backends, each once, and `mcs_new` finds the
    built-in one unless it was unregistered. -/
structure Agrees (backends : Backends B H) (library : Library T B) : Prop where
  listed : ∀ b, b ∈ mcsBackendGetList library.mcsBackends ↔ Registered library.past b
  once : (mcsBackendGetList library.mcsBackends).Nodup
  found : (∀ response, (.unregister backends.keyfileBackend, response) ∉ library.past) → ∀ domain,
    mcsNew backends library.mcsBackends domain =
      some (backends.keyfileBackend, (backends.vtable backends.keyfileBackend).mcsNew domain)

/-- No other registered backend has the name of this one, up to case. -/
def Uncontested (backends : Backends B H) (past : List (Call B × Response)) (b : B) : Prop :=
  ∀ other, Registered past other → backends.place other = backends.place b → other = b

theorem registered_append (past : List (Call B × Response)) (event : Call B × Response) (b : B) :
    Registered (past ++ [event]) b ↔
      event = (.register b, .MCS_OK) ∨ (Registered past b ∧ ∀ response, event ≠ (.unregister b, response)) := by
  constructor
  · rintro ⟨before, after, split, since⟩
    cases after using List.reverseRecOn with
    | nil =>
      obtain ⟨_, last⟩ := List.append_inj' split rfl
      exact .inl (List.singleton_inj.mp last)
    | append_singleton after last =>
      rw [← List.cons_append, ← List.append_assoc] at split
      obtain ⟨rest, same⟩ := List.append_inj' split rfl
      rw [List.singleton_inj.mp same]
      refine .inr ⟨⟨before, after, rest, fun response member => since response (List.mem_append_left _ member)⟩, ?_⟩
      rintro response rfl
      exact since response (by simp)
  · rintro (rfl | ⟨⟨before, after, rfl, since⟩, other⟩)
    · exact ⟨past, [], rfl, fun _ member => by cases member⟩
    · refine ⟨before, after ++ [event], by simp, ?_⟩
      intro response member
      rcases List.mem_append.mp member with inside | last
      · exact since response inside
      · exact other response (List.mem_singleton.mp last).symm

theorem registered_register (past : List (Call B × Response)) (c b : B) :
    Registered (past ++ [(.register c, .MCS_OK)]) b ↔ b = c ∨ Registered past b := by
  rw [registered_append]
  simp [eq_comm]

theorem registered_unregister (past : List (Call B × Response)) (c b : B) (response : Response) :
    Registered (past ++ [(.unregister c, response)]) b ↔ b ≠ c ∧ Registered past b := by
  rw [registered_append]
  simp [and_comm, eq_comm]

/-! ## What the tree says -/

/-- Every backend is filed under its own name. -/
def Filed (backends : Backends B H) (mcsBackends : T B) : Prop :=
  ∀ name b, retrieve mcsBackends name = some b → name = backends.place b

/-- The backends that lie in their places are the registered ones. -/
def Listed (backends : Backends B H) (library : Library T B) : Prop :=
  ∀ b, retrieve library.mcsBackends (backends.place b) = some b ↔ Registered library.past b

section
variable {backends : Backends B H}

theorem getList_eq (mcsBackends : T B) : mcsBackendGetList mcsBackends = ((foreach mcsBackends).map Prod.snd).reverse := by
  rw [mcsBackendGetList, List.foldl_flip_cons_eq_append, List.append_nil]

theorem mem_getList {mcsBackends : T B} (filed : Filed backends mcsBackends) (b : B) :
    b ∈ mcsBackendGetList mcsBackends ↔ retrieve mcsBackends (backends.place b) = some b := by
  rw [getList_eq, List.mem_reverse, List.mem_map]
  constructor
  · rintro ⟨⟨name, found⟩, member, rfl⟩
    have held := (mem_foreach mcsBackends name found).mp member
    rw [← filed name found held]
    exact held
  · intro held
    exact ⟨(backends.place b, b), (mem_foreach _ _ _).mpr held, rfl⟩

theorem getList_nodup {mcsBackends : T B} (filed : Filed backends mcsBackends) :
    (mcsBackendGetList mcsBackends).Nodup := by
  rw [getList_eq, List.nodup_reverse]
  have places : ((foreach mcsBackends).map Prod.snd).map backends.place = (foreach mcsBackends).map Prod.fst := by
    rw [List.map_map]
    apply List.map_congr_left
    rintro ⟨name, b⟩ member
    exact (filed name b ((mem_foreach mcsBackends name b).mp member)).symm
  apply List.Nodup.of_map backends.place
  rw [places]
  exact foreach_nodup mcsBackends

/-- Registering leaves a taken place as it is. -/
theorem retrieve_register (mcsBackends : T B) (c : B) (name : CString) :
    retrieve (mcsBackendRegister backends mcsBackends c).1 name =
      if name = backends.place c then some ((retrieve mcsBackends name).getD c) else retrieve mcsBackends name := by
  unfold mcsBackendRegister
  split
  · rename_i same
    rw [same, retrieve_add_self]
  · rename_i differ
    rw [retrieve_add_of_ne _ _ differ]

/-- Unregistering empties the place, whoever has it. -/
theorem retrieve_unregister (mcsBackends : T B) (c : B) (name : CString) :
    retrieve (mcsBackendUnregister backends mcsBackends c).1 name =
      if name = backends.place c then none else retrieve mcsBackends name := by
  unfold mcsBackendUnregister
  split
  · rename_i same
    rw [same, retrieve_delete_self]
  · rename_i differ
    rw [retrieve_delete_of_ne _ differ]

theorem filed_call {library : Library T B} (filed : Filed backends library.mcsBackends) (call : Call B) :
    Filed backends (library.call backends call).mcsBackends := by
  intro name b held
  cases call with
  | register c =>
    simp only [Library.call, Call.perform, retrieve_register] at held
    split at held
    · rename_i same
      cases old : retrieve library.mcsBackends name with
      | none =>
        rw [old] at held
        cases held
        exact same
      | some d =>
        rw [old] at held
        cases held
        exact filed name d old
    · exact filed name b held
  | unregister c =>
    simp only [Library.call, Call.perform, retrieve_unregister] at held
    split at held
    · cases held
    · exact filed name b held

/-- Whoever lies in a place is registered, so no other one of the name can be. -/
theorem uncontested_iff {library : Library T B} (filed : Filed backends library.mcsBackends)
    (listed : Listed backends library) (b : B) : Uncontested backends library.past b ↔
      ∀ other, retrieve library.mcsBackends (backends.place b) = some other → other = b := by
  constructor
  · intro alone other held
    have same := filed _ other held
    refine alone other ((listed other).mp ?_) same.symm
    rw [← same]
    exact held
  · intro alone other registered same
    have held := (listed other).mpr registered
    rw [same] at held
    exact alone other held

/-- After a registration the list is right exactly when the place was free, or
    was this backend's already. -/
theorem listed_register_iff {library : Library T B} (listed : Listed backends library) (c : B) :
    Listed backends (library.call backends (.register c)) ↔
      ∀ other, retrieve library.mcsBackends (backends.place c) = some other → other = c := by
  simp only [Listed, Library.call, Call.perform, retrieve_register]
  have past : ∀ b, Registered (library.past ++ [(.register c, (mcsBackendRegister backends library.mcsBackends c).2)]) b ↔
      b = c ∨ Registered library.past b := registered_register library.past c
  constructor
  · intro after other held
    have own := (after c).mpr ((past c).mpr (.inl rfl))
    rw [if_pos rfl, held] at own
    exact Option.some.inj own
  · intro free b
    rw [past, ← listed b]
    by_cases same : backends.place b = backends.place c
    · rw [if_pos same, same]
      cases held : retrieve library.mcsBackends (backends.place c) with
      | none => simp [eq_comm]
      | some other =>
        rw [free other held]
        simp [eq_comm]
    · rw [if_neg same]
      exact ⟨.inr, fun registered => registered.resolve_left fun equal => same (by rw [equal])⟩

/-- After a deregistration it is right under the same condition. -/
theorem listed_unregister_iff {library : Library T B} (filed : Filed backends library.mcsBackends)
    (listed : Listed backends library) (c : B) : Listed backends (library.call backends (.unregister c)) ↔
      ∀ other, retrieve library.mcsBackends (backends.place c) = some other → other = c := by
  simp only [Listed, Library.call, Call.perform, retrieve_unregister]
  have past := fun b => registered_unregister library.past c b (mcsBackendUnregister backends library.mcsBackends c).2
  constructor
  · intro after other held
    have same := filed _ other held
    by_contra differ
    have there := (after other).mpr ((past other).mpr ⟨differ, (listed other).mp (by rw [← same]; exact held)⟩)
    rw [if_pos same.symm] at there
    cases there
  · intro free b
    rw [past, ← listed b]
    by_cases same : backends.place b = backends.place c
    · rw [if_pos same, same]
      refine ⟨fun none => (by cases none), ?_⟩
      rintro ⟨differ, held⟩
      exact absurd (free b held) differ
    · rw [if_neg same]
      exact ⟨fun held => ⟨fun equal => same (by rw [equal]), held⟩, And.right⟩

/-- A call keeps the list right exactly when it meets no other backend of its name. -/
theorem listed_call_iff {library : Library T B} (filed : Filed backends library.mcsBackends)
    (listed : Listed backends library) (call : Call B) :
    Listed backends (library.call backends call) ↔ Uncontested backends library.past call.backend := by
  rw [uncontested_iff filed listed]
  cases call with
  | register c => exact listed_register_iff listed c
  | unregister c => exact listed_unregister_iff filed listed c

/-! ## What holds after every run -/

/-- The built-in backend was registered before all other calls. -/
def Started (backends : Backends B H) (library : Library T B) : Prop :=
  ∃ rest, library.past = (.register backends.keyfileBackend, .MCS_OK) :: rest

theorem afterCalls_append (calls : List (Call B)) (call : Call B) :
    afterCalls T backends (calls ++ [call]) = (afterCalls T backends calls).call backends call := by
  simp [afterCalls]

theorem filed_afterCalls (calls : List (Call B)) : Filed backends (afterCalls T backends calls).mcsBackends := by
  induction calls using List.reverseRecOn with
  | nil =>
    apply filed_call
    intro name b held
    simp at held
  | append_singleton before call ih =>
    rw [afterCalls_append]
    exact filed_call ih call

theorem started_afterCalls (calls : List (Call B)) : Started backends (afterCalls T backends calls) := by
  induction calls using List.reverseRecOn with
  | nil => exact ⟨[], rfl⟩
  | append_singleton before call ih =>
    rw [afterCalls_append]
    obtain ⟨rest, past⟩ := ih
    exact ⟨rest ++ [_], by rw [Library.call, past]; rfl⟩

/-- Right lists are all that the calls promise. -/
theorem agrees_iff_listed {library : Library T B} (filed : Filed backends library.mcsBackends)
    (started : Started backends library) : Agrees backends library ↔ Listed backends library := by
  constructor
  · intro agrees b
    rw [← mem_getList filed]
    exact agrees.listed b
  · intro listed
    refine ⟨?_, getList_nodup filed, ?_⟩
    · intro b
      rw [mem_getList filed]
      exact listed b
    · intro kept domain
      obtain ⟨rest, past⟩ := started
      have registered : Registered library.past backends.keyfileBackend := by
        refine ⟨[], rest, past, ?_⟩
        intro response member
        apply kept response
        rw [past]
        exact List.mem_cons_of_mem _ member
      have held := (listed backends.keyfileBackend).mpr registered
      rw [Backends.place, backends.keyfileName] at held
      simp only [mcsNew, mcsBackendSelect, Option.getD_some, held, Option.map_some]

theorem listed_mcsInit : Listed backends (mcsInit backends : Library T B) := by
  have empty : Filed backends (create : T B) := by
    intro name b held
    simp at held
  have none : Listed backends ⟨(create : T B), []⟩ := by
    intro b
    simp [Registered]
  refine (listed_call_iff empty none (.register backends.keyfileBackend)).mpr ?_
  rintro other ⟨before, after, split, _⟩
  simp at split

/-- After every initial part of a run the list agrees with the calls exactly when
    no call of the run meets another backend of its name. -/
theorem registry_iff (backends : Backends B H) (calls : List (Call B)) :
    (∀ before after, calls = before ++ after → Agrees backends (afterCalls T backends before)) ↔
      ∀ before call after, calls = before ++ call :: after →
        Uncontested backends (afterCalls T backends before).past call.backend := by
  refine prefixes_iff ?_ ?_ calls
  · rw [agrees_iff_listed (filed_afterCalls []) (started_afterCalls [])]
    exact listed_mcsInit
  · intro past call agrees
    have filed : Filed backends (afterCalls T backends past).mcsBackends := filed_afterCalls past
    rw [agrees_iff_listed filed (started_afterCalls past)] at agrees
    rw [agrees_iff_listed (filed_afterCalls _) (started_afterCalls _), afterCalls_append]
    exact listed_call_iff filed agrees call

end

/-! ### A second backend -/

/-- `keyfile_backend`, whose handles are opened on a disk. -/
def keyfileBackend (T : Type → Type) [Patricia CString T] (env : Environment) :
    VTable (Disk CString → Option (Handle T)) :=
  ⟨defaultName, mcsKeyfileNew env⟩

inductive Pointer where
  | keyfileBackend
  | other
  deriving DecidableEq

/-- The text `DEFAULT`. -/
def otherName : CString := ⟨[68, 69, 70, 65, 85, 76, 84], by decide⟩

/-- The built-in backend and another one that has its name in capitals. -/
def twoBackends (env : Environment) : Backends Pointer (Disk CString → Option (Handle (Assoc false CString))) where
  vtable
    | .keyfileBackend => keyfileBackend (Assoc false CString) env
    | .other => ⟨otherName, fun _ _ => none⟩
  keyfileBackend := .keyfileBackend
  keyfileName := rfl

/-- The second backend is told that it was registered, and is not in the list. -/
theorem second_not_listed : ¬ ∀ (env : Environment) (calls : List (Call Pointer)),
    Agrees (twoBackends env) (afterCalls (Assoc false CString) (twoBackends env) calls) := by
  intro always
  have agrees := always ⟨none, none⟩ [.register .other]
  have registered : Registered
      (afterCalls (Assoc false CString) (twoBackends ⟨none, none⟩) [.register .other]).past .other :=
    ⟨[(.register .keyfileBackend, .MCS_OK)], [], rfl, fun _ member => by cases member⟩
  have listed := (agrees.listed .other).mpr registered
  revert listed
  decide

end Mcs.Registry
