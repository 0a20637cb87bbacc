import Mathlib.Data.List.Nodup

/-!
The dictionary that the callers of `mowgli_patricia` rely on. The tree itself is
not part of this repository, so everything above it is stated for any type of
trees with these operations: a finite map whose `foreach` meets every entry
exactly once, in an order of its own.
-/
namespace Mcs.Dictionary

/-- The operations of `mowgli_patricia` that the library calls, on keys of type
    `K`, with what their callers rely on. `assign` is no call of its own: it is
    what a caller does that writes through the pointer it retrieved. -/
class Patricia (K : outParam Type) (T : Type → Type) where
  create {V : Type} : T V
  retrieve {V : Type} : T V → K → Option V
  add {V : Type} : T V → K → V → T V
  delete {V : Type} : T V → K → T V
  assign {V : Type} : T V → K → (V → V) → T V
  foreach {V : Type} : T V → List (K × V)
  retrieve_create {V : Type} (key : K) : retrieve (create : T V) key = none
  /-- Adding a key that is present changes nothing. -/
  retrieve_add_self {V : Type} (tree : T V) (key : K) (value : V) :
    retrieve (add tree key value) key = some ((retrieve tree key).getD value)
  retrieve_add_of_ne {V : Type} (tree : T V) {key other : K} (value : V) :
    other ≠ key → retrieve (add tree key value) other = retrieve tree other
  retrieve_delete_self {V : Type} (tree : T V) (key : K) : retrieve (delete tree key) key = none
  retrieve_delete_of_ne {V : Type} (tree : T V) {key other : K} :
    other ≠ key → retrieve (delete tree key) other = retrieve tree other
  retrieve_assign_self {V : Type} (tree : T V) (key : K) (change : V → V) :
    retrieve (assign tree key change) key = (retrieve tree key).map change
  retrieve_assign_of_ne {V : Type} (tree : T V) {key other : K} (change : V → V) :
    other ≠ key → retrieve (assign tree key change) other = retrieve tree other
  foreach_nodup {V : Type} (tree : T V) : ((foreach tree).map Prod.fst).Nodup
  mem_foreach {V : Type} (tree : T V) (key : K) (value : V) :
    (key, value) ∈ foreach tree ↔ retrieve tree key = some value

attribute [simp] Patricia.retrieve_create Patricia.retrieve_add_self Patricia.retrieve_delete_self
  Patricia.retrieve_assign_self

/-! ## Association lists -/

/-- Entries with distinct keys. New entries go to the front of the list or to
    its end, as `front` says: two trees with the same entries in different orders. -/
structure Assoc (front : Bool) (K V : Type) where
  entries : List (K × V)
  distinct : (entries.map Prod.fst).Nodup

variable {front : Bool} {K V : Type} [DecidableEq K]

def Assoc.retrieve (tree : Assoc front K V) (key : K) : Option V :=
  (tree.entries.find? (fun entry => entry.1 = key)).map Prod.snd

theorem Assoc.retrieve_eq_some (tree : Assoc front K V) (key : K) (value : V) :
    tree.retrieve key = some value ↔ (key, value) ∈ tree.entries := by
  obtain ⟨entries, distinct⟩ := tree
  unfold Assoc.retrieve
  induction entries with
  | nil => simp
  | cons entry rest ih =>
    obtain ⟨first, held⟩ := entry
    simp only [List.map_cons, List.nodup_cons] at distinct
    by_cases same : first = key
    · subst same
      have absent : (first, value) ∉ rest := fun member =>
        distinct.1 (List.mem_map.mpr ⟨_, member, rfl⟩)
      simp [absent, eq_comm]
    · simp [same, Ne.symm same, ih distinct.2]

theorem Assoc.retrieve_eq_none (tree : Assoc front K V) (key : K) :
    tree.retrieve key = none ↔ key ∉ tree.entries.map Prod.fst := by
  simp only [Assoc.retrieve, Option.map_eq_none_iff, List.find?_eq_none, List.mem_map, not_exists, not_and]
  exact ⟨fun other entry member same => other entry member (by simpa using same),
    fun other entry member same => other entry member (by simpa using same)⟩

/-- Two lists of entries with the same members, looked up, give the same value. -/
theorem Assoc.retrieve_congr {other : Bool} (left : Assoc front K V) (right : Assoc other K V) (key : K)
    (same : ∀ value, (key, value) ∈ left.entries ↔ (key, value) ∈ right.entries) :
    left.retrieve key = right.retrieve key := by
  ext value
  rw [Assoc.retrieve_eq_some, Assoc.retrieve_eq_some, same]

def Assoc.add (tree : Assoc front K V) (key : K) (value : V) : Assoc front K V :=
  if absent : key ∈ tree.entries.map Prod.fst then tree
  else if front then ⟨(key, value) :: tree.entries, by simpa using ⟨by simpa using absent, tree.distinct⟩⟩
  else ⟨tree.entries ++ [(key, value)], by
    simpa [List.nodup_append, tree.distinct] using fun k v member same =>
      absent (List.mem_map.mpr ⟨(k, v), member, same⟩)⟩

theorem Assoc.mem_add (tree : Assoc front K V) (key : K) (value : V) (entry : K × V) :
    entry ∈ (tree.add key value).entries ↔
      entry ∈ tree.entries ∨ (key ∉ tree.entries.map Prod.fst ∧ entry = (key, value)) := by
  unfold Assoc.add
  split
  · simp_all
  · cases front <;> simp_all [or_comm]

def Assoc.delete (tree : Assoc front K V) (key : K) : Assoc front K V :=
  ⟨tree.entries.filter (fun entry => entry.1 ≠ key), tree.distinct.sublist (List.filter_sublist.map _)⟩

def Assoc.assign (tree : Assoc front K V) (key : K) (change : V → V) : Assoc front K V :=
  ⟨tree.entries.map (fun entry => if entry.1 = key then (entry.1, change entry.2) else entry), by
    have keys : (tree.entries.map (fun entry => if entry.1 = key then (entry.1, change entry.2) else entry)).map
        Prod.fst = tree.entries.map Prod.fst := by
      rw [List.map_map]
      refine List.map_congr_left ?_
      intro entry _
      simp only [Function.comp]
      split <;> rfl
    rw [keys]
    exact tree.distinct⟩

instance : Patricia K (Assoc front K) where
  create := ⟨[], by simp⟩
  retrieve := Assoc.retrieve
  add := Assoc.add
  delete := Assoc.delete
  assign := Assoc.assign
  foreach tree := tree.entries
  retrieve_create key := rfl
  retrieve_add_self tree key value := by
    cases held : tree.retrieve key with
    | none =>
      rw [Assoc.retrieve_eq_none] at held
      rw [Assoc.retrieve_eq_some, Assoc.mem_add]
      exact .inr ⟨held, rfl⟩
    | some old =>
      rw [Assoc.retrieve_eq_some] at held
      rw [Option.getD_some, Assoc.retrieve_eq_some, Assoc.mem_add]
      exact .inl held
  retrieve_add_of_ne tree key other value differ := by
    apply Assoc.retrieve_congr
    intro found
    rw [Assoc.mem_add]
    simp [differ]
  retrieve_delete_self tree key := by simp [Assoc.retrieve_eq_none, Assoc.delete]
  retrieve_delete_of_ne tree key other differ := by
    apply Assoc.retrieve_congr
    simp [Assoc.delete, differ]
  retrieve_assign_self tree key change := by
    ext value
    rw [Assoc.retrieve_eq_some]
    simp only [Assoc.assign, List.mem_map, Option.map_eq_some_iff, Assoc.retrieve_eq_some]
    constructor
    · rintro ⟨⟨k, v⟩, member, equal⟩
      by_cases same : k = key
      · subst same
        simp only [↓reduceIte, Prod.mk.injEq, true_and] at equal
        exact ⟨v, member, equal⟩
      · simp only [same, ↓reduceIte, Prod.mk.injEq, false_and] at equal
    · rintro ⟨v, member, rfl⟩
      exact ⟨(key, v), member, by simp⟩
  retrieve_assign_of_ne tree key other change differ := by
    apply Assoc.retrieve_congr
    intro value
    simp only [Assoc.assign, List.mem_map]
    constructor
    · rintro ⟨⟨k, v⟩, member, equal⟩
      by_cases same : k = key
      · subst same
        simp only [↓reduceIte, Prod.mk.injEq] at equal
        exact absurd equal.1.symm differ
      · simp only [same, ↓reduceIte] at equal
        exact equal ▸ member
    · intro member
      exact ⟨(other, value), member, by simp [differ]⟩
  foreach_nodup tree := tree.distinct
  mem_foreach tree key value := (tree.retrieve_eq_some key value).symm

end Mcs.Dictionary
