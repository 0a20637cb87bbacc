import Mathlib.Logic.Function.Basic
import Mathlib.Data.List.Basic
import Mathlib.Data.List.Induction

/-!
Stores of two levels and the files that list them. A store leads from the name of
a section to the section's own map, which may be empty. A file is a list of
items, headers and entries: an entry belongs to the nearest header before it, a
section may be opened more than once, and the first entry for a key wins. What
loading such a list means is said once, by `load_isSome` and `load_get`, and
`load_listing` follows: the listing of a store loads as that store.
-/
namespace Mcs.Sectioned

variable {S K V : Type}

/-- Sections by name, entries of a section by key. -/
abbrev Store (S K V : Type) := S → Option (K → Option V)

/-! ## Stores -/

namespace Store

def empty : Store S K V := fun _ => none

def get (store : Store S K V) (name : S) (key : K) : Option V := (store name).bind (fun lines => lines key)

/-- An entry lies in a section of the store. -/
theorem isSome_of_get {store : Store S K V} {name : S} {key : K} {value : V}
    (held : store.get name key = some value) : (store name).isSome := by
  cases present : store name with
  | none => simp [get, present] at held
  | some lines => rfl

@[simp] theorem get_empty (name : S) (key : K) : get (empty : Store S K V) name key = none := rfl

/-- A store is its sections and what they hold. -/
theorem ext_get {left right : Store S K V} (sections : ∀ name, (left name).isSome = (right name).isSome)
    (lines : ∀ name key, left.get name key = right.get name key) : left = right := by
  funext name
  have present := sections name
  have held := lines name
  cases atLeft : left name with
  | none =>
    rw [atLeft] at present
    exact (Option.isNone_iff_eq_none.mp (by simpa using present.symm)).symm
  | some mapLeft =>
    cases atRight : right name with
    | none => simp [atLeft, atRight] at present
    | some mapRight =>
      congr 1
      funext key
      simpa [get, atLeft, atRight] using held key

variable [DecidableEq S]

/-- Opens a section, which may be there already. -/
def addSection (store : Store S K V) (name : S) : Store S K V :=
  Function.update store name (some ((store name).getD fun _ => none))

theorem isSome_addSection (store : Store S K V) (name other : S) :
    (store.addSection name other).isSome ↔ other = name ∨ (store other).isSome := by
  by_cases same : other = name
  · simp [addSection, same]
  · simp [addSection, same]

@[simp] theorem get_addSection (store : Store S K V) (name other : S) (key : K) :
    (store.addSection name).get other key = store.get other key := by
  by_cases same : other = name
  · subst same
    cases held : store other <;> simp [addSection, get, held]
  · simp [addSection, get, same]

variable [DecidableEq K]

/-- Adds an entry to an open section; a key that is present keeps its value. -/
def addLine (store : Store S K V) (name : S) (key : K) (value : V) : Store S K V :=
  Function.update store name
    ((store name).map fun lines => Function.update lines key (some ((lines key).getD value)))

/-- Sets an entry, opening its section when it has to. -/
def set (store : Store S K V) (name : S) (key : K) (value : V) : Store S K V :=
  Function.update store name (some (Function.update ((store name).getD fun _ => none) key (some value)))

/-- Removes an entry; the section stays. -/
def unset (store : Store S K V) (name : S) (key : K) : Store S K V :=
  Function.update store name ((store name).map fun lines => Function.update lines key none)

@[simp] theorem isSome_addLine (store : Store S K V) (name other : S) (key : K) (value : V) :
    (store.addLine name key value other).isSome = (store other).isSome := by
  by_cases same : other = name
  · simp [addLine, same]
  · simp [addLine, same]

theorem get_addLine (store : Store S K V) {name : S} (inside : (store name).isSome) (key : K) (value : V)
    (other : S) (sought : K) : (store.addLine name key value).get other sought =
      (store.get other sought).or (if other = name ∧ sought = key then some value else none) := by
  obtain ⟨lines, held⟩ := Option.isSome_iff_exists.mp inside
  by_cases same : other = name
  · subst same
    by_cases here : sought = key
    · subst here
      cases old : lines sought <;> simp [addLine, get, held, old]
    · simp [addLine, get, held, here]
  · simp [addLine, get, same]

theorem isSome_set (store : Store S K V) (name other : S) (key : K) (value : V) :
    (store.set name key value other).isSome ↔ other = name ∨ (store other).isSome := by
  by_cases same : other = name
  · simp [set, same]
  · simp [set, same]

theorem get_set (store : Store S K V) (name other : S) (key sought : K) (value : V) :
    (store.set name key value).get other sought =
      if (other, sought) = (name, key) then some value else store.get other sought := by
  by_cases same : other = name
  · subst same
    by_cases here : sought = key
    · simp [set, get, here]
    · cases held : store other <;> simp [set, get, held, here]
  · simp [set, get, same]

@[simp] theorem isSome_unset (store : Store S K V) (name other : S) (key : K) :
    (store.unset name key other).isSome = (store other).isSome := by
  by_cases same : other = name
  · simp [unset, same]
  · simp [unset, same]

theorem get_unset (store : Store S K V) (name other : S) (key sought : K) :
    (store.unset name key).get other sought =
      if (other, sought) = (name, key) then none else store.get other sought := by
  by_cases same : other = name
  · subst same
    by_cases here : sought = key
    · cases held : store other <;> simp [unset, get, held, here]
    · cases held : store other <;> simp [unset, get, held, here]
  · simp [unset, get, same]

/-- What holds of all names, and of the new one, holds of all names after a set. -/
theorem forall_names_set {store : Store S K V} {holds : S → Prop} (before : ∀ other, (store other).isSome → holds other)
    {name : S} (new : holds name) (key : K) (value : V) (other : S)
    (present : (store.set name key value other).isSome) : holds other := by
  rcases (isSome_set store name other key value).mp present with rfl | old
  · exact new
  · exact before other old

/-- What holds of all entries, and of the new one, holds of all entries after a set. -/
theorem forall_entries_set {store : Store S K V} {holds : K → V → Prop}
    (before : ∀ other sought found, store.get other sought = some found → holds sought found) (name : S) {key : K}
    {value : V} (new : holds key value) (other : S) (sought : K) (found : V)
    (held : (store.set name key value).get other sought = some found) : holds sought found := by
  rw [get_set] at held
  split at held
  · rename_i here
    cases here
    cases held
    exact new
  · exact before other sought found held

end Store

/-! ## Files as lists of items -/

/-- What one line of a file says. -/
inductive Item (S K V : Type) where
  | header (name : S)
  | entry (key : K) (value : V)
  deriving DecidableEq

/-- Where a reader stands: what it has loaded, and the section it is in. -/
structure Cursor (S K V : Type) where
  store : Store S K V
  current : Option S

/-- The section after some items. -/
def currentAfter : Option S → List (Item S K V) → Option S
  | current, [] => current
  | _, .header name :: rest => currentAfter (some name) rest
  | current, .entry _ _ :: rest => currentAfter current rest

/-- The entries that belong to a section, in file order, with that section. -/
def owned : Option S → List (Item S K V) → List (S × K × V)
  | _, [] => []
  | _, .header name :: rest => owned (some name) rest
  | none, .entry _ _ :: rest => owned none rest
  | some name, .entry key value :: rest => (name, key, value) :: owned (some name) rest

theorem owned_append (current : Option S) (before after : List (Item S K V)) :
    owned current (before ++ after) = owned current before ++ owned (currentAfter current before) after := by
  induction before generalizing current with
  | nil => rfl
  | cons item rest ih =>
    cases item with
    | header name => simp [owned, currentAfter, ih]
    | entry key value => cases current <;> simp [owned, currentAfter, ih]

/-- Entries are owned by the current section or by one that a header names. -/
theorem owner_mem (current : Option S) (items : List (Item S K V)) {found : S × K × V}
    (member : found ∈ owned current items) :
    (current = some found.1 ∨ .header found.1 ∈ items) ∧ .entry found.2.1 found.2.2 ∈ items := by
  induction items generalizing current with
  | nil => simp [owned] at member
  | cons item rest ih =>
    cases item with
    | header name =>
      obtain ⟨owner, listed⟩ := ih (some name) member
      refine ⟨.inr ?_, List.mem_cons_of_mem _ listed⟩
      rcases owner with same | later
      · cases same; exact List.mem_cons_self
      · exact List.mem_cons_of_mem _ later
    | entry key value =>
      cases current with
      | none =>
        obtain ⟨owner, listed⟩ := ih none member
        exact ⟨owner.imp id (List.mem_cons_of_mem _), List.mem_cons_of_mem _ listed⟩
      | some name =>
        rcases List.mem_cons.mp member with rfl | later
        · exact ⟨.inl rfl, List.mem_cons_self⟩
        · obtain ⟨owner, listed⟩ := ih (some name) later
          exact ⟨owner.imp id (List.mem_cons_of_mem _), List.mem_cons_of_mem _ listed⟩

/-- An entry is owned by the section that is current where it stands. -/
theorem mem_owned_iff (current : Option S) (items : List (Item S K V)) (name : S) (key : K) (value : V) :
    (name, key, value) ∈ owned current items ↔
      ∃ before after, items = before ++ .entry key value :: after ∧ currentAfter current before = some name := by
  constructor
  · intro member
    induction items generalizing current with
    | nil => simp [owned] at member
    | cons item rest ih =>
      cases item with
      | header opened =>
        obtain ⟨before, after, split, here⟩ := ih (some opened) member
        exact ⟨.header opened :: before, after, by rw [split]; rfl, here⟩
      | entry k v =>
        cases current with
        | none =>
          obtain ⟨before, after, split, here⟩ := ih none member
          exact ⟨.entry k v :: before, after, by rw [split]; rfl, here⟩
        | some owner =>
          rcases List.mem_cons.mp member with same | later
          · cases same; exact ⟨[], rest, rfl, rfl⟩
          · obtain ⟨before, after, split, here⟩ := ih (some owner) later
            exact ⟨.entry k v :: before, after, by rw [split]; rfl, here⟩
  · rintro ⟨before, after, rfl, here⟩
    rw [owned_append, here]
    exact List.mem_append_right _ List.mem_cons_self

/-- Parts whose entries do not depend on the section before them. -/
theorem owned_flatMap {Part : Type} {parts : List Part} {items : Part → List (Item S K V)}
    {own : Part → List (S × K × V)} (settled : ∀ part ∈ parts, ∀ current, owned current (items part) = own part)
    (current : Option S) : owned current (parts.flatMap items) = parts.flatMap own := by
  induction parts generalizing current with
  | nil => rfl
  | cons part rest ih =>
    rw [List.flatMap_cons, List.flatMap_cons, owned_append, settled part List.mem_cons_self,
      ih fun part member => settled part (List.mem_cons_of_mem _ member)]

theorem currentAfter_isSome (current : Option S) (items : List (Item S K V)) :
    (currentAfter current items).isSome ↔ current.isSome ∨ ∃ name, .header name ∈ items := by
  induction items generalizing current with
  | nil => simp [currentAfter]
  | cons item rest ih => cases item <;> simp [currentAfter, ih]

theorem currentAfter_append (current : Option S) (before after : List (Item S K V)) :
    currentAfter current (before ++ after) = currentAfter (currentAfter current before) after := by
  induction before generalizing current with
  | nil => rfl
  | cons item rest ih => cases item <;> exact ih _

theorem currentAfter_of_no_header (current : Option S) {items : List (Item S K V)}
    (plain : ∀ name, .header name ∉ items) : currentAfter current items = current := by
  induction items with
  | nil => rfl
  | cons item rest ih =>
    cases item with
    | header name => exact absurd List.mem_cons_self (plain name)
    | entry key value => exact ih fun name member => plain name (List.mem_cons_of_mem _ member)

/-- Items end in the section that the last header among them names. -/
theorem currentAfter_eq_some_iff (items : List (Item S K V)) (name : S) :
    currentAfter none items = some name ↔
      ∃ earlier between, items = earlier ++ .header name :: between ∧ ∀ other, .header other ∉ between := by
  constructor
  · intro here
    induction items using List.reverseRecOn with
    | nil => cases here
    | append_singleton before item ih =>
      rw [currentAfter_append] at here
      cases item with
      | header last =>
        cases here
        exact ⟨before, [], rfl, by simp⟩
      | entry key value =>
        obtain ⟨earlier, between, rfl, plain⟩ := ih here
        exact ⟨earlier, between ++ [.entry key value], by simp, by simpa using plain⟩
  · rintro ⟨earlier, between, rfl, plain⟩
    rw [currentAfter_append]
    exact currentAfter_of_no_header (some name) plain

/-- Pieces that each end in the section they are read in. -/
theorem owned_within {Piece : Type} {pieces : List Piece} {items : Piece → List (Item S K V)} {name : S}
    (back : ∀ piece ∈ pieces, currentAfter (some name) (items piece) = some name) :
    owned (some name) (pieces.flatMap items) = pieces.flatMap fun piece => owned (some name) (items piece) := by
  induction pieces with
  | nil => rfl
  | cons piece rest ih =>
    rw [List.flatMap_cons, List.flatMap_cons, owned_append, back piece List.mem_cons_self,
      ih fun piece member => back piece (List.mem_cons_of_mem _ member)]

/-- Inside a section every entry has an owner. -/
theorem exists_owner (name : S) {items : List (Item S K V)} {key : K} {value : V}
    (listed : .entry key value ∈ items) : ∃ owner, (owner, key, value) ∈ owned (some name) items := by
  obtain ⟨before, after, rfl⟩ := List.append_of_mem listed
  obtain ⟨owner, here⟩ := Option.isSome_iff_exists.mp
    ((currentAfter_isSome (some name) before).mpr (.inl rfl))
  exact ⟨owner, (mem_owned_iff _ _ _ _ _).mpr ⟨before, after, rfl, here⟩⟩

/-- The section the reader is in has been opened. -/
def Cursor.Inside (cursor : Cursor S K V) : Prop :=
  ∀ name, cursor.current = some name → (cursor.store name).isSome

theorem Cursor.start_inside : Cursor.Inside (⟨.empty, none⟩ : Cursor S K V) := by
  intro name current
  cases current

/-! ## Listings -/

/-- The items of one section. -/
def block (part : S × List (K × V)) : List (Item S K V) :=
  .header part.1 :: part.2.map fun line => .entry line.1 line.2

/-- A file with one header for each section. -/
def listing (parts : List (S × List (K × V))) : List (Item S K V) := parts.flatMap block

/-- The parts are the sections of the store, in some order. -/
structure Lists (parts : List (S × List (K × V))) (store : Store S K V) : Prop where
  sections : ∀ name, (store name).isSome ↔ ∃ lines, (name, lines) ∈ parts
  lines : ∀ name key value,
    store.get name key = some value ↔ ∃ lines, (name, lines) ∈ parts ∧ (key, value) ∈ lines

theorem owned_entries (name : S) (lines : List (K × V)) :
    owned (some name) (lines.map fun line => Item.entry line.1 line.2) =
      lines.map fun line => (name, line.1, line.2) := by
  induction lines with
  | nil => rfl
  | cons line rest ih => simp [owned, ih]

theorem owned_listing (current : Option S) (parts : List (S × List (K × V))) :
    owned current (listing parts) = parts.flatMap fun part => part.2.map fun line => (part.1, line.1, line.2) := by
  refine owned_flatMap ?_ current
  intro part _ current
  rw [block, owned, owned_entries]

theorem header_mem_listing (name : S) (parts : List (S × List (K × V))) :
    .header name ∈ listing parts ↔ ∃ lines, (name, lines) ∈ parts := by
  simp only [listing, block, List.mem_flatMap, List.mem_cons, Item.header.injEq, List.mem_map, reduceCtorEq,
    and_false, exists_false, or_false, Prod.exists]
  constructor
  · rintro ⟨_, lines, member, rfl⟩; exact ⟨lines, member⟩
  · rintro ⟨lines, member⟩; exact ⟨name, lines, member, rfl⟩

/-! ## Loading -/

variable [DecidableEq S] [DecidableEq K]

/-- The value of the first entry for a key of a section. -/
def firstFor (name : S) (key : K) (entries : List (S × K × V)) : Option V :=
  (entries.find? fun found => decide (found.1 = name ∧ found.2.1 = key)).map fun found => found.2.2

theorem firstFor_cons (name : S) (key : K) (found : S × K × V) (rest : List (S × K × V)) :
    firstFor name key (found :: rest) =
      (if name = found.1 ∧ key = found.2.1 then some found.2.2 else none).or (firstFor name key rest) := by
  by_cases here : found.1 = name ∧ found.2.1 = key
  · simp [firstFor, here]
  · have other : ¬ (name = found.1 ∧ key = found.2.1) := fun ⟨a, b⟩ => here ⟨a.symm, b.symm⟩
    simp [firstFor, here, other]

theorem firstFor_mem {name : S} {key : K} {entries : List (S × K × V)} {value : V}
    (found : firstFor name key entries = some value) : (name, key, value) ∈ entries := by
  simp only [firstFor, Option.map_eq_some_iff] at found
  obtain ⟨⟨owner, k, v⟩, first, rfl⟩ := found
  have holds := List.find?_some first
  simp only [decide_eq_true_eq] at holds
  obtain ⟨rfl, rfl⟩ := holds
  exact List.mem_of_find?_eq_some first

theorem firstFor_eq_none {name : S} {key : K} {entries : List (S × K × V)} :
    firstFor name key entries = none ↔ ∀ value, (name, key, value) ∉ entries := by
  simp only [firstFor, Option.map_eq_none_iff, List.find?_eq_none, decide_eq_true_eq, Prod.forall]
  constructor
  · intro other value member; exact other name key value member ⟨rfl, rfl⟩
  · rintro absent owner k v member ⟨rfl, rfl⟩; exact absent v member

/-- The first value for a key, where all its entries agree. -/
theorem firstFor_eq {name : S} {key : K} {entries : List (S × K × V)} {held : Option V}
    (members : ∀ value, (name, key, value) ∈ entries ↔ held = some value) : firstFor name key entries = held := by
  cases found : firstFor name key entries with
  | none =>
    rw [firstFor_eq_none] at found
    cases held with
    | none => rfl
    | some value => exact absurd ((members value).mpr rfl) (found value)
  | some first => exact ((members first).mp (firstFor_mem found)).symm

theorem firstFor_of_mem {name : S} {key : K} {entries : List (S × K × V)} {value : V}
    (member : (name, key, value) ∈ entries) : ∃ first, firstFor name key entries = some first := by
  cases found : firstFor name key entries with
  | none => exact absurd member (firstFor_eq_none.mp found value)
  | some first => exact ⟨first, rfl⟩

theorem firstFor_append (name : S) (key : K) (before after : List (S × K × V)) :
    firstFor name key (before ++ after) = (firstFor name key before).or (firstFor name key after) := by
  induction before with
  | nil => rfl
  | cons found rest ih => rw [List.cons_append, firstFor_cons, firstFor_cons, ih, Option.or_assoc]

/-- No entry for a key of a section stands among these items. -/
def Without (current : Option S) (items : List (Item S K V)) (name : S) (key : K) : Prop :=
  ∀ before value after, items = before ++ .entry key value :: after → currentAfter current before ≠ some name

theorem without_iff (current : Option S) (items : List (Item S K V)) (name : S) (key : K) :
    Without current items name key ↔ firstFor name key (owned current items) = none := by
  rw [firstFor_eq_none]
  constructor
  · intro without value member
    obtain ⟨before, after, split, here⟩ := (mem_owned_iff _ _ _ _ _).mp member
    exact without before value after split here
  · intro absent before value after split here
    exact absent value ((mem_owned_iff _ _ _ _ _).mpr ⟨before, after, split, here⟩)

/-- The value for a key of a section is that of its first entry there. -/
theorem firstFor_owned_iff (current : Option S) (items : List (Item S K V)) (name : S) (key : K) (value : V) :
    firstFor name key (owned current items) = some value ↔
      ∃ before after, items = before ++ .entry key value :: after ∧ currentAfter current before = some name ∧
        Without current before name key := by
  constructor
  · intro first
    induction items using List.reverseRecOn with
    | nil => cases first
    | append_singleton before item ih =>
      rw [owned_append, firstFor_append, Option.or_eq_some_iff] at first
      rcases first with earlier | ⟨none, last⟩
      · obtain ⟨start, rest, rfl, here, without⟩ := ih earlier
        exact ⟨start, rest ++ [item], by simp, here, without⟩
      · obtain ⟨start, rest, split, here⟩ := (mem_owned_iff _ _ _ _ _).mp (firstFor_mem last)
        obtain ⟨rfl, same, rfl⟩ : start = [] ∧ item = .entry key value ∧ rest = [] := by
          cases start with
          | nil => simpa using split
          | cons first more => simp at split
        rw [same]
        exact ⟨before, [], rfl, here, (without_iff _ _ _ _).mpr none⟩
  · rintro ⟨before, after, rfl, here, without⟩
    rw [owned_append, firstFor_append, (without_iff _ _ _ _).mp without, here, owned, firstFor_cons]
    simp

def Cursor.read (cursor : Cursor S K V) : Item S K V → Cursor S K V
  | .header name => ⟨cursor.store.addSection name, some name⟩
  | .entry key value =>
    match cursor.current with
    | none => cursor
    | some name => { cursor with store := cursor.store.addLine name key value }

def Cursor.readAll (cursor : Cursor S K V) (items : List (Item S K V)) : Cursor S K V :=
  items.foldl Cursor.read cursor

/-- What a list of items loads as. -/
def load (items : List (Item S K V)) : Store S K V := (Cursor.readAll ⟨.empty, none⟩ items).store

theorem Cursor.read_inside {cursor : Cursor S K V} (inside : cursor.Inside) (item : Item S K V) :
    (cursor.read item).Inside := by
  intro name current
  cases item with
  | header opened =>
    cases current
    exact (Store.isSome_addSection _ _ _).mpr (.inl rfl)
  | entry key value =>
    cases here : cursor.current with
    | none => simp [read, here] at current
    | some owner =>
      simp only [read, here, Store.isSome_addLine] at current ⊢
      exact inside name (here.trans current)

theorem Cursor.readAll_isSome (cursor : Cursor S K V) (items : List (Item S K V)) (name : S) :
    ((cursor.readAll items).store name).isSome ↔ (cursor.store name).isSome ∨ .header name ∈ items := by
  induction items generalizing cursor with
  | nil => simp [readAll]
  | cons item rest ih =>
    have next := ih (cursor.read item)
    simp only [readAll, List.foldl_cons] at next ⊢
    rw [next]
    cases item with
    | header opened =>
      simp only [read, Store.isSome_addSection, List.mem_cons, Item.header.injEq]
      tauto
    | entry key value =>
      cases here : cursor.current <;> simp [read, here]

theorem Cursor.readAll_get {cursor : Cursor S K V} (inside : cursor.Inside) (items : List (Item S K V))
    (name : S) (key : K) : (cursor.readAll items).store.get name key =
      (cursor.store.get name key).or (firstFor name key (owned cursor.current items)) := by
  induction items generalizing cursor with
  | nil => simp [readAll, owned, firstFor]
  | cons item rest ih =>
    have next := ih (cursor.read_inside inside item)
    simp only [readAll, List.foldl_cons] at next ⊢
    rw [next]
    cases item with
    | header opened => simp [read, owned]
    | entry k v =>
      cases here : cursor.current with
      | none => simp [read, here, owned]
      | some owner =>
        simp only [read, here, owned, firstFor_cons]
        rw [Store.get_addLine _ (inside owner here), Option.or_assoc]

/-- The sections of a file are those that a header names. -/
theorem load_isSome (items : List (Item S K V)) (name : S) : (load items name).isSome ↔ .header name ∈ items := by
  simpa [load, Store.empty] using Cursor.readAll_isSome (⟨.empty, none⟩ : Cursor S K V) items name

/-- A key of a section has the value of the first entry for it. -/
theorem load_get (items : List (Item S K V)) (name : S) (key : K) :
    (load items).get name key = firstFor name key (owned none items) := by
  simpa [load] using Cursor.readAll_get Cursor.start_inside items name key

/-- Without a header nothing is loaded. -/
theorem load_of_no_header {items : List (Item S K V)} (plain : ∀ name, .header name ∉ items) :
    load items = .empty := by
  funext name
  have absent := (load_isSome items name).not.mpr (plain name)
  rw [Bool.not_eq_true, Option.isSome_eq_false_iff, Option.isNone_iff_eq_none] at absent
  exact absent

/-- The listing of a store, in any order, loads as the store. -/
theorem load_listing {parts : List (S × List (K × V))} {store : Store S K V} (lists : Lists parts store) :
    load (listing parts) = store := by
  apply Store.ext_get
  · intro name
    rw [Bool.eq_iff_iff, load_isSome, header_mem_listing, lists.sections]
  · intro name key
    rw [load_get, owned_listing]
    have members : ∀ value, (name, key, value) ∈ (parts.flatMap fun part =>
        part.2.map fun line => (part.1, line.1, line.2)) ↔ store.get name key = some value := by
      intro value
      rw [lists.lines]
      simp only [List.mem_flatMap, List.mem_map, Prod.mk.injEq, Prod.exists]
      constructor
      · rintro ⟨_, lines, member, _, _, line, rfl, rfl, rfl⟩; exact ⟨lines, member, line⟩
      · rintro ⟨lines, member, line⟩; exact ⟨name, lines, member, key, value, line, rfl, rfl, rfl⟩
    exact firstFor_eq fun value => by rw [members, eq_comm]

end Mcs.Sectioned
