import Mcs.RoundTrip

/-!
What one entry of a saved store can do to the others. The file is read by lines
without knowing which entry printed them, so a key, a value or a section's name
can print lines that say something else. `Contained` says of the text of one
entry that it does not, and this is exact: for a contained entry no other entry
of any store changes, and for every other one there is a store in which one does
(`isolated_iff`).
-/
namespace Mcs.Isolation
open Mcs.Dictionary Mcs.Dictionary.Patricia Mcs.Strings Mcs.Sectioned Mcs.KeyfileModel Mcs.Reading Mcs.Format
open Mcs.RoundTrip

/-- Setting this entry in a representable store changes no other entry of the
    store that a save and a load give. -/
def Isolated (sect key value : CString) : Prop :=
  ∀ (T : Type → Type) [Patricia CString T] (kf : Keyfile T), Representable (view kf) →
    ∀ other sought, (other, sought) ≠ (sect, key) → ∀ old,
      (resave (keyfileSetString kf sect key value).1).map (fun kf => keyfileGetString kf other sought old) =
        (resave kf).map fun kf => keyfileGetString kf other sought old

/-- The text of the entry says nothing but the entry. In a section that its
    header names, all that its text gives are entries of this key and section,
    and the section is the current one again at the end; where the header does
    not name the section, header and text together give no entry at all. -/
structure Contained (sect key value : CString) : Prop where
  inside : SectionOk sect → (∀ found ∈ owned (some sect) (itemsOf (keyfileWriteLineCb key value)),
      (found.1, found.2.1) = (sect, key)) ∧
    currentAfter (some sect) (itemsOf (keyfileWriteLineCb key value)) = some sect
  outside : ¬ SectionOk sect → ∀ found said,
    .entry found said ∉ itemsOf (keyfileHeaderText sect ++ keyfileWriteLineCb key value)

theorem contained_of_ok {sect key value : CString} (name : SectionOk sect) (entry : EntryOk key value) :
    Contained sect key value := by
  refine ⟨?_, fun bad => absurd name bad⟩
  intro _
  rw [itemsOf_lineText entry]
  exact ⟨fun found member => by simp only [owned, List.mem_singleton] at member; rw [member], rfl⟩

section
variable {T : Type → Type} [Patricia CString T]

theorem map_get_resave (kf : Keyfile T) (sect key : CString) (old : Option CString) :
    (resave kf).map (fun kf => keyfileGetString kf sect key old) =
      some (((loadFile (some (serialise kf))).get sect key).elim (.MCS_FAIL, old) fun val => (.MCS_OK, some val)) := by
  obtain ⟨next, executed, loaded⟩ := Option.map_eq_some_iff.mp (map_view_resave kf)
  rw [executed, Option.map_some, keyfileGetString_eq, loaded]
  cases (loadFile (some (serialise kf))).get sect key <;> rfl

/-! ## Contained entries -/

/-- What the part of a section says, text by text. -/
def partItems (part : CString × List (CString × CString)) : List (Item CString CString CString) :=
  itemsOf (keyfileHeaderText part.1) ++ part.2.flatMap fun line => itemsOf (keyfileWriteLineCb line.1 line.2)

theorem itemsOf_parts (kf : Keyfile T) : itemsOf (serialise kf) = (parts kf).flatMap partItems := by
  rw [serialise, itemsOf_flatten (wholeLines_texts kf), keyfileTexts_eq, List.flatMap_assoc]
  apply List.flatMap_congr
  intro part _
  rw [partTexts, List.flatMap_cons, List.flatMap_map]
  rfl

/-- A store whose printed texts each say nothing but their own entry. -/
structure Tame (store : Store CString CString CString) : Prop where
  entries : ∀ sect key value, store.get sect key = some value → Contained sect key value
  sections : ∀ sect, (store sect).isSome → ¬ SectionOk sect → ∀ found said,
    .entry found said ∉ itemsOf (keyfileHeaderText sect)

theorem tame_of_representable {store : Store CString CString CString} (ok : Representable store) : Tame store :=
  ⟨fun sect key value held => contained_of_ok (ok.sections sect (Store.isSome_of_get held))
      (ok.entries sect key value held),
    fun sect present bad => absurd (ok.sections sect present) bad⟩

/-- Where the header does not name the section, header and text are each silent. -/
theorem Contained.silent {sect key value : CString} (contained : Contained sect key value) (bad : ¬ SectionOk sect)
    (found said : CString) : .entry found said ∉ itemsOf (keyfileHeaderText sect) ∧
      .entry found said ∉ itemsOf (keyfileWriteLineCb key value) := by
  have outside := contained.outside bad found said
  rw [itemsOf_append (wholeLines_headerText sect), List.mem_append, not_or] at outside
  exact outside

theorem tame_set {store : Store CString CString CString} (tame : Tame store) {sect key value : CString}
    (contained : Contained sect key value) : Tame (store.set sect key value) := by
  constructor
  · intro other sought found held
    rw [Store.get_set] at held
    split at held
    · rename_i here
      cases here
      cases held
      exact contained
    · exact tame.entries other sought found held
  · intro other present bad found said
    rcases (Store.isSome_set store sect other key value).mp present with rfl | old
    · exact (contained.silent bad found said).1
    · exact tame.sections other old bad found said

theorem tame_unset {store : Store CString CString CString} (tame : Tame store) (sect key : CString) :
    Tame (store.unset sect key) := by
  constructor
  · intro other sought found held
    rw [Store.get_unset] at held
    split at held
    · cases held
    · exact tame.entries other sought found held
  · intro other present
    rw [Store.isSome_unset] at present
    exact tame.sections other present

/-- What the entries of a part own: nothing where the header names no section. -/
def partOwned (part : CString × List (CString × CString)) : List (CString × CString × CString) :=
  if SectionOk part.1 then
    part.2.flatMap fun line => owned (some part.1) (itemsOf (keyfileWriteLineCb line.1 line.2))
  else []

/-- Wherever a part of a tame store is printed, its entries own the same. -/
theorem owned_part {kf : Keyfile T} (tame : Tame (view kf)) {part : CString × List (CString × CString)}
    (member : part ∈ parts kf) (current : Option CString) : owned current (partItems part) = partOwned part := by
  have lists := lists_parts kf
  have contained : ∀ line ∈ part.2, Contained part.1 line.1 line.2 := fun line inPart =>
    tame.entries part.1 line.1 line.2 ((lists.lines _ _ _).mpr ⟨part.2, member, inPart⟩)
  by_cases name : SectionOk part.1
  · rw [partItems, partOwned, if_pos name, itemsOf_headerText name, List.singleton_append, owned]
    exact owned_within fun line inPart => ((contained line inPart).inside name).2
  · rw [partOwned, if_neg name, List.eq_nil_iff_forall_not_mem]
    rintro ⟨owner, found, said⟩ own
    have listed := (owner_mem _ _ own).2
    rw [partItems] at listed
    rcases List.mem_append.mp listed with inHeader | inLines
    · have present := (lists.sections part.1).mpr ⟨part.2, member⟩
      exact tame.sections part.1 present name found said inHeader
    · obtain ⟨line, inPart, inLine⟩ := List.mem_flatMap.mp inLines
      exact ((contained line inPart).silent name found said).2 inLine

/-- A tame store loses or changes no entry that the format can carry, and gets no
    other entry, when it is saved and loaded. -/
theorem get_of_tame {kf : Keyfile T} (tame : Tame (view kf)) {sect key : CString}
    (ok : ∀ value, (view kf).get sect key = some value → SectionOk sect ∧ EntryOk key value) :
    (loadFile (some (serialise kf))).get sect key = (view kf).get sect key := by
  have lists := lists_parts kf
  rw [loadFile, load_get, itemsOf_parts, owned_flatMap fun part member => owned_part tame member]
  apply firstFor_eq
  intro found
  simp only [List.mem_flatMap]
  constructor
  · rintro ⟨part, member, own⟩
    by_cases name : SectionOk part.1
    · rw [partOwned, if_pos name, List.mem_flatMap] at own
      obtain ⟨line, inPart, own⟩ := own
      have held := (lists.lines part.1 line.1 line.2).mpr ⟨part.2, member, inPart⟩
      -- The text of a line only gives entries of its own key and section.
      have here := ((tame.entries _ _ _ held).inside name).1 _ own
      cases here
      rw [itemsOf_lineText (ok line.2 held).2] at own
      simp only [owned, List.mem_singleton, Prod.mk.injEq, true_and] at own
      rw [own]
      exact held
    · rw [partOwned, if_neg name] at own
      cases own
  · intro held
    obtain ⟨lines, member, line⟩ := (lists.lines sect key found).mp held
    obtain ⟨name, entry⟩ := ok found held
    refine ⟨(sect, lines), member, ?_⟩
    rw [partOwned, if_pos name, List.mem_flatMap]
    refine ⟨(key, found), line, ?_⟩
    rw [itemsOf_lineText entry]
    exact List.mem_singleton.mpr rfl

/-- What a save and a load give for every other key once a contained entry is set. -/
theorem get_other_of_contained {sect key value : CString} (contained : Contained sect key value) {kf : Keyfile T}
    (ok : Representable (view kf)) {other sought : CString} (differ : (other, sought) ≠ (sect, key)) :
    (loadFile (some (serialise (keyfileSetString kf sect key value).1))).get other sought =
      (view kf).get other sought := by
  have store := view_keyfileSetString kf sect key value
  have same : (view (keyfileSetString kf sect key value).1).get other sought = (view kf).get other sought := by
    rw [store, Store.get_set, if_neg differ]
  have tame : Tame (view (keyfileSetString kf sect key value).1) := by
    rw [store]
    exact tame_set (tame_of_representable ok) contained
  rw [← same]
  apply get_of_tame tame
  intro found held
  rw [same] at held
  exact ⟨ok.sections other (Store.isSome_of_get held), ok.entries other sought found held⟩

end

/-! ## Entries that are not contained -/

section
variable (sect key value : CString)

/-- What the sections are of a store with one entry. -/
theorem parts_one : parts (keyfileSetString (keyfileNew : Keyfile (Assoc true CString)) sect key value).1 =
    [(sect, [(key, value)])] := by
  simp [parts, keyfileSetString, keyfileNew, keyfileCreateSection, Keyfile.onLines, foreach, add, retrieve, create,
    assign, Assoc.add, Assoc.assign, Assoc.retrieve]

/-- A new key can come before the keys that were there. -/
theorem parts_before {later held : CString} (differ : key ≠ later) :
    parts (keyfileSetString
      (keyfileSetString (keyfileNew : Keyfile (Assoc true CString)) sect later held).1 sect key value).1 =
      [(sect, [(key, value), (later, held)])] := by
  simp [parts, keyfileSetString, keyfileNew, keyfileCreateSection, Keyfile.onLines, foreach, add, retrieve, create,
    assign, Assoc.add, Assoc.assign, Assoc.retrieve, differ, differ.symm]

/-- A new section can come after the sections that were there. -/
theorem parts_after {first : CString} (differ : sect ≠ first) :
    parts (keyfileSetString
      (keyfileCreateSection (keyfileNew : Keyfile (Assoc false CString)) first) sect key value).1 =
      [(first, []), (sect, [(key, value)])] := by
  simp [parts, keyfileSetString, keyfileNew, keyfileCreateSection, Keyfile.onLines, foreach, add, retrieve, create,
    assign, Assoc.add, Assoc.assign, Assoc.retrieve, differ, differ.symm]

end

/-- Isolation is about what the files say. -/
theorem isolated_get {sect key value : CString} (isolated : Isolated sect key value) {T : Type → Type}
    [Patricia CString T] {kf : Keyfile T} (ok : Representable (view kf)) {other sought : CString}
    (differ : (other, sought) ≠ (sect, key)) :
    (loadFile (some (serialise (keyfileSetString kf sect key value).1))).get other sought =
      (view kf).get other sought := by
  have same := isolated T kf ok other sought differ none
  rw [map_get_resave, map_get_resave, loadFile_serialise ok, Option.some.injEq] at same
  cases new : (loadFile (some (serialise (keyfileSetString kf sect key value).1))).get other sought with
  | none =>
    cases old : (view kf).get other sought with
    | none => rfl
    | some _ => simp [new, old] at same
  | some _ =>
    cases old : (view kf).get other sought with
    | none => simp [new, old] at same
    | some _ => simpa [new, old] using same

/-- An entry that the new file owns is one of the old store, when isolated. -/
theorem owned_of_isolated {sect key value : CString} (isolated : Isolated sect key value) {T : Type → Type}
    [Patricia CString T] {kf : Keyfile T} (ok : Representable (view kf)) (other sought found : CString)
    (own : (other, sought, found) ∈
      owned none ((parts (keyfileSetString kf sect key value).1).flatMap partItems))
    (differ : (other, sought) ≠ (sect, key)) : ((view kf).get other sought).isSome := by
  rw [← isolated_get isolated ok differ, loadFile, load_get, itemsOf_parts]
  obtain ⟨first, held⟩ := firstFor_of_mem own
  rw [held]
  show (some first).isSome = true
  rfl

section
variable {sect key value : CString} (isolated : Isolated sect key value)
include isolated

/-- Alone in its file, an isolated entry gives only itself. -/
theorem owns_of_isolated (name : SectionOk sect) :
    ∀ found ∈ owned (some sect) (itemsOf (keyfileWriteLineCb key value)), (found.1, found.2.1) = (sect, key) := by
  intro found own
  by_contra differ
  have ok : Representable (view (keyfileNew : Keyfile (Assoc true CString))) := by
    rw [view_keyfileNew]
    exact empty_representable
  have held := owned_of_isolated isolated ok found.1 found.2.1 found.2.2 (by
    rw [parts_one]
    simpa [partItems, itemsOf_headerText name, owned] using own) differ
  simp [view_keyfileNew] at held

/-- An entry after it in the section is still in the section. -/
theorem stays_of_isolated (name : SectionOk sect) :
    currentAfter (some sect) (itemsOf (keyfileWriteLineCb key value)) = some sect := by
  obtain ⟨current, here⟩ := Option.isSome_iff_exists.mp
    ((currentAfter_isSome (some sect) (itemsOf (keyfileWriteLineCb key value))).mpr (.inl rfl))
  rw [here]
  by_contra moved
  obtain ⟨later, differ, entry⟩ : ∃ later, key ≠ later ∧ EntryOk later nameA := by
    by_cases same : key = nameA
    · exact ⟨nameB, by rw [same]; decide, by decide⟩
    · exact ⟨nameA, same, by decide⟩
  have store := view_keyfileSetString (keyfileNew : Keyfile (Assoc true CString)) sect later nameA
  rw [view_keyfileNew] at store
  have ok : Representable
      (view (keyfileSetString (keyfileNew : Keyfile (Assoc true CString)) sect later nameA).1) := by
    rw [store]
    exact set_representable empty_representable name entry
  have other : current ≠ sect := fun same => moved (congrArg some same)
  have held := owned_of_isolated isolated ok current later nameA (by
    rw [parts_before _ _ _ differ]
    simp [partItems, itemsOf_headerText name, itemsOf_lineText entry, owned, owned_append, here]) (by simp [other])
  simp [store, Store.get_set, other] at held

/-- Under the section before it, a section that its header does not name gives nothing. -/
theorem silent_of_isolated (bad : ¬ SectionOk sect) (found said : CString) :
    .entry found said ∉ itemsOf (keyfileHeaderText sect ++ keyfileWriteLineCb key value) := by
  intro listed
  have differ : sect ≠ .empty := fun same => bad (by rw [same]; decide)
  have empty : SectionOk .empty := by decide
  have store := view_keyfileCreateSection (keyfileNew : Keyfile (Assoc false CString)) .empty
  rw [view_keyfileNew] at store
  have ok : Representable (view (keyfileCreateSection (keyfileNew : Keyfile (Assoc false CString)) .empty)) := by
    rw [store]
    exact addSection_representable empty_representable empty
  obtain ⟨owner, own⟩ := exists_owner .empty listed
  have named : SectionOk owner := by
    rcases (owner_mem _ _ own).1 with same | header
    · cases same
      exact empty
    · exact header_sectionOk header
  have other : owner ≠ sect := fun same => bad (same ▸ named)
  have held := owned_of_isolated isolated ok owner found said (by
    rw [itemsOf_append (wholeLines_headerText sect)] at own
    rw [parts_after _ _ _ differ]
    simpa [partItems, itemsOf_headerText empty, owned] using own) (by simp [other])
  simp [store] at held

theorem contained_of_isolated : Contained sect key value :=
  ⟨fun name => ⟨owns_of_isolated isolated name, stays_of_isolated isolated name⟩, silent_of_isolated isolated⟩

end

/-- Exactly the contained entries are isolated. -/
theorem isolated_iff (sect key value : CString) : Isolated sect key value ↔ Contained sect key value := by
  refine ⟨contained_of_isolated, ?_⟩
  intro contained T _ kf ok other sought differ old
  rw [map_get_resave, map_get_resave, get_other_of_contained contained ok differ, loadFile_serialise ok]

/-- The text `v`, newline, `b=a`. -/
def twoLines : CString := ⟨[118, 10, 98, 61, 97], by decide⟩

/-- A value of two lines brings an entry of its own. -/
theorem twoLines_not_isolated : ¬ ∀ sect key value, Isolated sect key value := by
  intro isolated
  have same := isolated nameS nameA twoLines (Assoc false CString) keyfileNew
    (by rw [view_keyfileNew]; exact empty_representable) nameS nameB (by decide) none
  revert same
  decide

end Mcs.Isolation
