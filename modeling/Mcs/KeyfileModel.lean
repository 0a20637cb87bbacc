import Mcs.Dictionary
import Mcs.Sectioned
import Mcs.Strings

/-!
The keyfile backend's store, as `keyfile.c` keeps it in memory: its data, the
loop that loads a file, the lines it prints, and the operations on it. `view`
forgets the trees and says what each operation does to the store they hold.
-/
namespace Mcs.KeyfileModel
open Mcs.Dictionary Mcs.Dictionary.Patricia Mcs.Strings
open Mcs.Sectioned (Store)

inductive Response where
  | MCS_FAIL
  | MCS_OK
  deriving DecidableEq, Repr

/-- `keyfile_section_t`. -/
structure Section (T : Type → Type) where
  name : CString
  lines : T CString

/-- `keyfile_t`. A section is filed under its own name. -/
structure Keyfile (T : Type → Type) [Patricia CString T] where
  sections : T (Section T)
  named : ∀ name sec, retrieve sections name = some sec → sec.name = name

variable {T : Type → Type} [Patricia CString T]

def keyfileNew : Keyfile T := ⟨create, by simp⟩

def keyfileCreateSection (parent : Keyfile T) (name : CString) : Keyfile T where
  sections := add parent.sections name ⟨name, create⟩
  named := by
    intro other sec held
    by_cases same : other = name
    · subst same
      rw [retrieve_add_self] at held
      cases old : retrieve parent.sections other with
      | none => rw [old] at held; cases held; rfl
      | some filed =>
        rw [old] at held
        cases held
        exact parent.named other filed old
    · rw [retrieve_add_of_ne _ _ same] at held
      exact parent.named other sec held

/-- What the library does through `sec->lines`, for the section of a name. -/
def Keyfile.onLines (self : Keyfile T) (name : CString) (change : T CString → T CString) : Keyfile T where
  sections := assign self.sections name fun sec => { sec with lines := change sec.lines }
  named := by
    intro other sec held
    by_cases same : other = name
    · subst same
      rw [retrieve_assign_self, Option.map_eq_some_iff] at held
      obtain ⟨filed, old, rfl⟩ := held
      exact self.named other filed old
    · rw [retrieve_assign_of_ne _ _ same] at held
      exact self.named other sec held

/-! ## Loading -/

/-- The variables of the loop in `keyfile_open`. `sec` points into `out`, so it
    is given by the name it is filed under. -/
structure Loading (T : Type → Type) [Patricia CString T] where
  out : Keyfile T
  sec : Option CString

/-- One pass of the loop in `keyfile_open`; `none` stands for a null key handed
    to `mowgli_patricia`. -/
def keyfileOpenLine (st : Loading T) (buffer : CString) : Option (Loading T) :=
  if buffer.byteAt 0 = openBracket then
    match strchr buffer closeBracket with
    | some tmp =>
      let name := (buffer.take tmp).drop 1
      match retrieve st.out.sections name with
      | none => some ⟨keyfileCreateSection st.out name, some name⟩
      | some _ => some { st with sec := some name }
    | none => some st
  else if buffer.byteAt 0 = hashSign then some st
  else
    match st.sec, strchr buffer equals with
    | some sec, some _ =>
      let tmp := strtok buffer [equals]
      let tmp2 := strtok tmp.2 [newline]
      match tmp2.1 with
      | some value =>
        if strlen value > 0 then
          match tmp.1 with
          | none => none
          | some key =>
            some { st with out := st.out.onLines sec fun lines =>
              match retrieve lines key with
              | none => add lines key value
              | some _ => lines }
        else some st
      | none => some st
    | _, _ => some st

/-- The loop, over the buffers that `fgets` fills until it returns null. -/
def keyfileOpenLoop (st : Loading T) (buffers : List Bytes) : Option (Loading T) :=
  buffers.foldlM (fun st buffer => keyfileOpenLine st (.ofBuffer buffer)) st

/-- The room that `fgets(buffer, 4096, f)` has before the NUL. -/
def lineRoom : Nat := 4095

/-- `keyfile_open` on the bytes of a file; `none` when `fopen` returns null. -/
def keyfileOpen (file : Option Bytes) : Option (Keyfile T) :=
  match file with
  | none => some keyfileNew
  | some bytes => (keyfileOpenLoop ⟨keyfileNew, none⟩ (chunks lineRoom bytes)).map Loading.out

/-! ## Printing -/

/-- `fprintf(f, "%s=%s\n", key, value)`. -/
def keyfileWriteLineCb (key value : CString) : Bytes := key.bytes ++ equals :: value.bytes ++ [newline]

/-- `fprintf(f, "[%s]\n", sec->name)`. -/
def keyfileHeaderText (name : CString) : Bytes := openBracket :: name.bytes ++ [closeBracket, newline]

/-- The texts that printing one section hands to `fprintf`, call by call. -/
def keyfileWriteSectionCb (sec : Section T) : List Bytes :=
  keyfileHeaderText sec.name :: (foreach sec.lines).map fun line => keyfileWriteLineCb line.1 line.2

/-- The texts of all `fprintf` calls of `keyfile_write`. -/
def keyfileTexts (self : Keyfile T) : List Bytes :=
  (foreach self.sections).flatMap fun entry => keyfileWriteSectionCb entry.2

/-- All that `keyfile_write` prints. -/
def serialise (self : Keyfile T) : Bytes := (keyfileTexts self).flatten

theorem texts_nonempty {self : Keyfile T} {text : Bytes} (printed : text ∈ keyfileTexts self) : text ≠ [] := by
  obtain ⟨entry, _, inSection⟩ := List.mem_flatMap.mp printed
  rcases List.mem_cons.mp inSection with rfl | inLines
  · simp [keyfileHeaderText]
  · obtain ⟨line, _, rfl⟩ := List.mem_map.mp inLines
    simp [keyfileWriteLineCb]

/-! ## Operations -/

/-- `value` is what the caller's `*value` holds before the call; the second
    component is what it holds after. -/
def keyfileGetString (self : Keyfile T) (sect key : CString) (value : Option CString) :
    Response × Option CString :=
  match retrieve self.sections sect with
  | none => (.MCS_FAIL, value)
  | some sec =>
    match retrieve sec.lines key with
    | none => (.MCS_FAIL, value)
    | some val => (.MCS_OK, some val)

/-- How a setting of another type is read: its string is converted, and the
    caller's variable is left alone where there is none. -/
def keyfileGetAs {V : Type} (convert : CString → V) (self : Keyfile T) (sect key : CString) (value : V) : Response × V :=
  match keyfileGetString self sect key none with
  | (.MCS_OK, some str) => (.MCS_OK, convert str)
  | _ => (.MCS_FAIL, value)

def keyfileSetString (self : Keyfile T) (sect key value : CString) : Keyfile T × Response :=
  let self := match retrieve self.sections sect with
    | none => keyfileCreateSection self sect
    | some _ => self
  let self := self.onLines sect fun lines =>
    match retrieve lines key with
    | some _ => delete lines key
    | none => lines
  (self.onLines sect fun lines => add lines key value, .MCS_OK)

def keyfileSetInt (self : Keyfile T) (sect key : CString) (value : Int32) : Keyfile T × Response :=
  ((keyfileSetString self sect key (snprintf 4096 (decimal value.toInt))).1, .MCS_OK)

def trueText : CString := ⟨[84, 82, 85, 69], by decide⟩

def falseText : CString := ⟨[70, 65, 76, 83, 69], by decide⟩

def keyfileSetBool (self : Keyfile T) (sect key : CString) (value : Int32) : Keyfile T × Response :=
  if value ≠ 0 then ((keyfileSetString self sect key trueText).1, .MCS_OK)
  else ((keyfileSetString self sect key falseText).1, .MCS_OK)

def keyfileUnsetKey (self : Keyfile T) (sect key : CString) : Keyfile T × Response :=
  match retrieve self.sections sect with
  | none => (self, .MCS_OK)
  | some _ => (self.onLines sect fun lines => delete lines key, .MCS_OK)

/-! ## The store that the trees hold -/

def view (self : Keyfile T) : Store CString CString CString :=
  fun name => (retrieve self.sections name).map fun sec key => retrieve sec.lines key

/-- Only a store without sections prints nothing. -/
theorem texts_eq_nil_iff (self : Keyfile T) : keyfileTexts self = [] ↔ view self = .empty := by
  constructor
  · intro silent
    funext name
    cases held : retrieve self.sections name with
    | none => simp [view, held, Store.empty]
    | some sec =>
      have inTree := (mem_foreach self.sections name sec).mpr held
      have header : keyfileHeaderText sec.name ∈ keyfileTexts self :=
        List.mem_flatMap.mpr ⟨_, inTree, List.mem_cons_self⟩
      rw [silent] at header
      cases header
  · intro empty
    refine List.flatMap_eq_nil_iff.mpr ?_
    intro entry inTree
    have held := congrFun empty entry.1
    rw [view, (mem_foreach self.sections entry.1 entry.2).mp inTree] at held
    cases held

theorem view_keyfileNew : view (keyfileNew : Keyfile T) = .empty := by
  funext name
  simp [view, keyfileNew, Store.empty]

theorem view_keyfileCreateSection (parent : Keyfile T) (name : CString) :
    view (keyfileCreateSection parent name) = (view parent).addSection name := by
  funext other
  by_cases same : other = name
  · subst same
    cases old : retrieve parent.sections other <;> simp [view, keyfileCreateSection, Store.addSection, old]
  · simp [view, keyfileCreateSection, Store.addSection, same, retrieve_add_of_ne]

/-- Changing the lines of a section changes the view at that name, as the change
    changes what can be retrieved. -/
theorem view_onLines (self : Keyfile T) (name : CString) (change : T CString → T CString)
    (effect : (CString → Option CString) → CString → Option CString)
    (acts : ∀ lines, (fun key => retrieve (change lines) key) = effect fun key => retrieve lines key) :
    view (self.onLines name change) = Function.update (view self) name ((view self name).map effect) := by
  funext other
  by_cases same : other = name
  · subst same
    simp only [view, Keyfile.onLines, retrieve_assign_self, Option.map_map, Function.update_self]
    congr 1
    funext sec
    exact acts sec.lines
  · simp [view, Keyfile.onLines, same, retrieve_assign_of_ne]

theorem retrieve_delete_eq (lines : T CString) (key : CString) :
    (fun sought => retrieve (delete lines key) sought) =
      Function.update (fun sought => retrieve lines sought) key none := by
  funext sought
  by_cases same : sought = key
  · subst same; simp
  · simp [same, retrieve_delete_of_ne]

theorem retrieve_add_eq (lines : T CString) (key value : CString) :
    (fun sought => retrieve (add lines key value) sought) =
      Function.update (fun sought => retrieve lines sought) key (some ((retrieve lines key).getD value)) := by
  funext sought
  by_cases same : sought = key
  · subst same; simp
  · simp [same, retrieve_add_of_ne]

theorem keyfileGetString_eq (self : Keyfile T) (sect key : CString) (value : Option CString) :
    keyfileGetString self sect key value =
      match (view self).get sect key with
      | some val => (.MCS_OK, some val)
      | none => (.MCS_FAIL, value) := by
  cases held : retrieve self.sections sect with
  | none => simp [keyfileGetString, Store.get, view, held]
  | some sec => cases line : retrieve sec.lines key <;> simp [keyfileGetString, Store.get, view, held, line]

theorem keyfileGetAs_eq {V : Type} (convert : CString → V) (self : Keyfile T) (sect key : CString) (value : V) :
    keyfileGetAs convert self sect key value =
      match (view self).get sect key with
      | some str => (.MCS_OK, convert str)
      | none => (.MCS_FAIL, value) := by
  rw [keyfileGetAs, keyfileGetString_eq]
  cases (view self).get sect key <;> rfl

/-- A read succeeds with a value, or fails and leaves the caller's variable alone. -/
theorem keyfileGetString_found (self : Keyfile T) (sect key value : CString) :
    (∀ old, keyfileGetString self sect key old = (.MCS_OK, some value)) ↔ (view self).get sect key = some value := by
  constructor
  · intro reads
    have read := reads none
    rw [keyfileGetString_eq] at read
    cases held : (view self).get sect key with
    | none =>
      rw [held] at read
      cases read
    | some found =>
      rw [held] at read
      cases read
      rfl
  · intro held old
    rw [keyfileGetString_eq, held]

theorem keyfileGetString_missing (self : Keyfile T) (sect key : CString) :
    (∀ old, keyfileGetString self sect key old = (.MCS_FAIL, old)) ↔ (view self).get sect key = none := by
  constructor
  · intro reads
    have read := reads none
    rw [keyfileGetString_eq] at read
    cases held : (view self).get sect key with
    | none => rfl
    | some found =>
      rw [held] at read
      cases read
  · intro held old
    rw [keyfileGetString_eq, held]

/-- What `keyfile_set_string` does to the lines of the section: it deletes an
    entry that is there before it adds the new one. -/
theorem view_setLines (self : Keyfile T) (sect key value : CString) (present : (view self sect).isSome) :
    view (((self.onLines sect fun lines =>
        match retrieve lines key with
        | some _ => delete lines key
        | none => lines).onLines sect fun lines => add lines key value)) = (view self).set sect key value := by
  obtain ⟨lines, held⟩ := Option.isSome_iff_exists.mp present
  rw [view_onLines _ _ _ (fun lines => Function.update lines key (some ((lines key).getD value)))
      (fun lines => retrieve_add_eq lines key value),
    view_onLines _ _ _ (fun lines => Function.update lines key none)]
  · simp [Store.set, held]
  · intro lines
    cases old : retrieve lines key with
    | none =>
      funext sought
      by_cases same : sought = key
      · simp [same, old]
      · simp [same]
    | some val => exact retrieve_delete_eq lines key

theorem view_keyfileSetString (self : Keyfile T) (sect key value : CString) :
    view (keyfileSetString self sect key value).1 = (view self).set sect key value := by
  simp only [keyfileSetString]
  cases held : retrieve self.sections sect with
  | none =>
    have present : (view (keyfileCreateSection self sect) sect).isSome := by
      rw [view_keyfileCreateSection]
      exact (Store.isSome_addSection _ _ _).mpr (.inl rfl)
    simp only
    rw [view_setLines _ _ _ _ present, view_keyfileCreateSection]
    simp [Store.set, Store.addSection]
  | some sec =>
    simp only
    rw [view_setLines _ _ _ _ (by simp [view, held])]

theorem view_keyfileUnsetKey (self : Keyfile T) (sect key : CString) :
    view (keyfileUnsetKey self sect key).1 = (view self).unset sect key := by
  unfold keyfileUnsetKey
  cases held : retrieve self.sections sect with
  | none =>
    funext other
    by_cases same : other = sect
    · simp [Store.unset, view, same, held]
    · simp [Store.unset, same]
  | some sec =>
    simp only
    rw [view_onLines _ _ _ (fun lines => Function.update lines key none) (fun lines => retrieve_delete_eq lines key)]
    rfl

end Mcs.KeyfileModel
