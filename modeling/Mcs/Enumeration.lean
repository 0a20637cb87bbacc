import Mcs.Meaning
import Mcs.Sessions

/-!
Listing a handle's sections and the keys of a section. The lists are built by
`foreach`, the lookups go through `retrieve`; after any file and any operations
they agree, and a walk over sections and keys meets exactly what a read finds
(`enumeration_correct`).
-/
namespace Mcs.Enumeration
open Mcs.Dictionary Mcs.Dictionary.Patricia Mcs.Strings Mcs.Sectioned Mcs.KeyfileModel Mcs.Reading Mcs.Backend
open Mcs.Sessions Mcs.Meaning

variable {T : Type → Type} [Patricia CString T]

/-- `mowgli_queue_shift` puts the key in front; the null queue is the empty list. -/
def keyfileCollectLinesCb (key : CString) (out : List CString) : List CString := key :: out

/-- `mowgli_patricia_foreach(tree, keyfile_collect_lines_cb, &out)`. -/
def collected {V : Type} (tree : T V) : List CString :=
  (foreach tree).foldl (fun out entry => keyfileCollectLinesCb entry.1 out) []

def mcsKeyfileGetKeys (self : Handle T) (sect : CString) : List CString :=
  match retrieve self.kf.sections sect with
  | none => []
  | some ks => collected ks.lines

def mcsKeyfileGetSections (self : Handle T) : List CString := collected self.kf.sections

/-- The entries that `mcs-walk-config` visits: all keys, section by section. -/
def walked (self : Handle T) : List (CString × CString) :=
  (mcsKeyfileGetSections self).flatMap fun sect => (mcsKeyfileGetKeys self sect).map fun key => (sect, key)

/-! ## Collected keys -/

theorem collected_eq {V : Type} (tree : T V) : collected tree = ((foreach tree).map Prod.fst).reverse := by
  show (foreach tree).foldl (fun out entry => entry.1 :: out) [] = _
  rw [List.foldl_flip_cons_eq_append, List.append_nil]

theorem collected_nodup {V : Type} (tree : T V) : (collected tree).Nodup := by
  rw [collected_eq, List.nodup_reverse]
  exact foreach_nodup tree

theorem mem_collected {V : Type} (tree : T V) (key : CString) :
    key ∈ collected tree ↔ (retrieve tree key).isSome := by
  rw [collected_eq, List.mem_reverse, List.mem_map, Option.isSome_iff_exists]
  constructor
  · rintro ⟨⟨found, value⟩, member, rfl⟩
    exact ⟨value, (mem_foreach tree found value).mp member⟩
  · rintro ⟨value, held⟩
    exact ⟨(key, value), (mem_foreach tree key value).mpr held, rfl⟩

theorem mem_getSections (self : Handle T) (sect : CString) :
    sect ∈ mcsKeyfileGetSections self ↔ (view self.kf sect).isSome := by
  rw [mcsKeyfileGetSections, mem_collected, view, Option.isSome_map]

theorem getKeys_nodup (self : Handle T) (sect : CString) : (mcsKeyfileGetKeys self sect).Nodup := by
  unfold mcsKeyfileGetKeys
  cases retrieve self.kf.sections sect with
  | none => exact List.nodup_nil
  | some ks => exact collected_nodup ks.lines

theorem mem_getKeys (self : Handle T) (sect key : CString) :
    key ∈ mcsKeyfileGetKeys self sect ↔ ((view self.kf).get sect key).isSome := by
  unfold mcsKeyfileGetKeys
  cases held : retrieve self.kf.sections sect with
  | none => simp [Store.get, view, held]
  | some ks =>
    have found : (view self.kf).get sect key = retrieve ks.lines key := by simp [Store.get, view, held]
    rw [found]
    exact mem_collected ks.lines key

/-- A read succeeds where the store has the entry. -/
theorem getString_ok_iff (kf : Keyfile T) (sect key : CString) (value : Option CString) :
    (keyfileGetString kf sect key value).1 = .MCS_OK ↔ ((view kf).get sect key).isSome := by
  rw [keyfileGetString_eq]
  cases (view kf).get sect key with
  | none => simp
  | some found => simp

theorem walked_nodup (self : Handle T) : (walked self).Nodup := by
  rw [walked, List.nodup_flatMap]
  constructor
  · intro sect _
    exact (getKeys_nodup self sect).map fun _ _ same => (Prod.mk.inj same).2
  · have distinct : (mcsKeyfileGetSections self).Nodup := collected_nodup _
    refine distinct.imp ?_
    intro left right differ
    show List.Disjoint ((mcsKeyfileGetKeys self left).map fun key => (left, key))
      ((mcsKeyfileGetKeys self right).map fun key => (right, key))
    rw [List.disjoint_left]
    rintro pair inLeft inRight
    obtain ⟨_, _, rfl⟩ := List.mem_map.mp inLeft
    obtain ⟨_, _, same⟩ := List.mem_map.mp inRight
    exact differ (Prod.mk.inj same).1.symm

theorem mem_walked (self : Handle T) (sect key : CString) :
    (sect, key) ∈ walked self ↔ ((view self.kf).get sect key).isSome := by
  rw [← mem_getKeys]
  simp only [walked, List.mem_flatMap, List.mem_map, Prod.mk.injEq]
  constructor
  · rintro ⟨_, _, _, member, rfl, rfl⟩
    exact member
  · intro member
    refine ⟨sect, ?_, key, member, rfl, rfl⟩
    obtain ⟨value, held⟩ := Option.isSome_iff_exists.mp ((mem_getKeys self sect key).mp member)
    rw [mem_getSections]
    exact Store.isSome_of_get held

/-! ## Sections over a run -/

/-- The operation sets an entry of the section. -/
def Op.Names (op : Op) (sect : CString) : Prop := ∃ key value, op.write = some ((sect, key), some value)

/-- A set opens its section; nothing closes one. -/
theorem perform_isSome (op : Op) (self : Handle T) (sect : CString) :
    (view (op.perform self).1.kf sect).isSome ↔ (view self.kf sect).isSome ∨ Op.Names op sect := by
  rw [view_perform, Op.Names]
  cases op.write with
  | none => simp [afterWrite]
  | some change =>
    obtain ⟨⟨named, key⟩, left⟩ := change
    cases left with
    | none => simp [afterWrite]
    | some value =>
      rw [afterWrite, Store.isSome_set, or_comm]
      refine or_congr_right ⟨fun same => ⟨key, value, by rw [same]⟩, ?_⟩
      rintro ⟨_, _, same⟩
      cases same
      rfl

theorem performAll_isSome (ops : List Op) (self : Handle T) (sect : CString) :
    (view (performAll self ops).1.kf sect).isSome ↔ (view self.kf sect).isSome ∨ ∃ op ∈ ops, Op.Names op sect := by
  induction ops generalizing self with
  | nil => simp [performAll]
  | cons op rest ih =>
    rw [performAll, ih, perform_isSome]
    simp [or_assoc]

/-! ## What is listed -/

/-- The lists of a handle, opened on a file and used, agree with its reads. -/
structure Enumerated (file : Option Bytes) (ops : List Op) (self : Handle T) : Prop where
  sectionsNodup : (mcsKeyfileGetSections self).Nodup
  sections : ∀ sect, sect ∈ mcsKeyfileGetSections self ↔
    (∃ bytes chunk, file = some bytes ∧ chunk ∈ chunks lineRoom bytes ∧ HeaderChunk chunk sect) ∨
      ∃ op ∈ ops, Op.Names op sect
  keysNodup : ∀ sect, (mcsKeyfileGetKeys self sect).Nodup
  keys : ∀ sect key value,
    key ∈ mcsKeyfileGetKeys self sect ↔ (keyfileGetString self.kf sect key value).1 = .MCS_OK
  walkNodup : (walked self).Nodup
  walk : ∀ sect key value,
    (sect, key) ∈ walked self ↔ (keyfileGetString self.kf sect key value).1 = .MCS_OK

theorem loadFile_isSome (file : Option Bytes) (sect : CString) : (loadFile file sect).isSome ↔
    ∃ bytes chunk, file = some bytes ∧ chunk ∈ chunks lineRoom bytes ∧ HeaderChunk chunk sect := by
  cases file with
  | none => simp [loadFile, Store.empty]
  | some bytes =>
    rw [loadFile, load_isSome, header_mem_itemsOf]
    simp

/-- A handle can be opened on every file, and whatever is done with it, its
    sections are those with a header in the file or a set since, its keys are
    those that can be read, and each entry is walked once. -/
theorem enumeration_correct (loc : CString) (file : Option Bytes) (ops : List Op) :
    ∃ kf : Keyfile T, keyfileOpen file = some kf ∧ Enumerated file ops (performAll ⟨loc, kf⟩ ops).1 := by
  obtain ⟨kf, executed, loaded⟩ := keyfileOpen_total_correct (T := T) file
  refine ⟨kf, executed, ?_⟩
  constructor
  · exact collected_nodup _
  · intro sect
    rw [mem_getSections, performAll_isSome, loaded, loadFile_isSome]
  · intro sect
    exact getKeys_nodup _ sect
  · intro sect key value
    rw [mem_getKeys, getString_ok_iff]
  · exact walked_nodup _
  · intro sect key value
    rw [mem_walked, getString_ok_iff]

end Mcs.Enumeration
