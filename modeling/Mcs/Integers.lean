import Mcs.Meaning
import Mcs.Numerals
import Mcs.Sessions

/-!
Integer settings. What `keyfile_set_int` prints `keyfile_get_int` reads back, for
every `int` and whatever else is done in between, also through a file
(`setInt_getInt`). But the string of an entry can be any numeral, and `atoi` does
not tell when its number is no `int`: `keyfile_get_int` reports success all the
same (`faithful_iff`).
-/
namespace Mcs.Integers
open Mcs.Dictionary Mcs.Strings Mcs.Numerals Mcs.Sectioned Mcs.KeyfileModel Mcs.Reading Mcs.Format Mcs.RoundTrip
open Mcs.Files Mcs.Histories Mcs.Backend Mcs.Sessions Mcs.Meaning

variable {T : Type → Type} [Patricia CString T]

/-- `keyfile_get_int`, which `mcs_get_int` calls through the backend. `value` is
    what the caller's `*value` holds before the call. -/
def keyfileGetInt (atoi : Atoi) (self : Keyfile T) (sect key : CString) (value : Int32) : Response × Int32 :=
  keyfileGetAs atoi.value self sect key value

/-! ## What is set is read -/

theorem inRange_toInt (n : Int32) : InRange n.toInt := by
  have low := n.le_toInt
  have high := n.toInt_lt
  unfold InRange
  omega

/-- The buffer of `keyfile_set_int` holds every `int`. -/
theorem snprintf_decimal (n : Int32) : snprintf 4096 (decimal n.toInt) = decimal n.toInt := by
  have short := length_decimal_le (inRange_toInt n)
  exact snprintf_of_short (by omega)

theorem atoi_decimal (atoi : Atoi) (n : Int32) : atoi.value (decimal n.toInt) = n := by
  have read := strtolValue_of_denotes (denotes_decimal n.toInt)
  have same := atoi.exact (decimal n.toInt) (by rw [read]; exact inRange_toInt n)
  rw [read] at same
  exact Int32.toInt_inj.mp same

/-- The entry holds the text of the integer, so the integer is read. -/
theorem getInt_of_get (atoi : Atoi) {kf : Keyfile T} {sect key : CString} {n : Int32}
    (held : (view kf).get sect key = some (snprintf 4096 (decimal n.toInt))) (old : Int32) :
    keyfileGetInt atoi kf sect key old = (.MCS_OK, n) := by
  rw [keyfileGetInt, keyfileGetAs_eq, held, snprintf_decimal]
  show (Response.MCS_OK, atoi.value (decimal n.toInt)) = _
  rw [atoi_decimal]

/-- After an integer is set, and any operations on other entries, it is read: from
    the handle itself, and, where the format carries the store, from what the
    handle prints and from the file that its destruction leaves. -/
theorem setInt_getInt (atoi : Atoi) (self : Handle T) (sect key : CString) (n : Int32) (ops : List Op)
    (others : ∀ left, ((sect, key), left) ∉ writes ops) (last : Handle T)
    (done : (performAll (Op.perform (.setInt sect key n) self).1 ops).1 = last) (old : Int32) :
    keyfileGetInt atoi last.kf sect key old = (.MCS_OK, n) ∧
      (Representable (view last.kf) →
        (∃ next : Keyfile T, resave last.kf = some next ∧ keyfileGetInt atoi next sect key old = (.MCS_OK, n)) ∧
        ∀ (env : Environment) (domain : CString) (world : World) (disk : Disk CString),
          configPath env domain = some self.loc → Room self.loc → world.Fine →
            ∃ next : Handle T, mcsKeyfileNew env domain (saved last world disk) = some next ∧
              keyfileGetInt atoi next.kf sect key old = (.MCS_OK, n)) := by
  have held : (view last.kf).get sect key = some (snprintf 4096 (decimal n.toInt)) := by
    rw [← done, performAll_get others, view_perform]
    exact (Store.get_set _ _ _ _ _ _).trans (if_pos rfl)
  refine ⟨getInt_of_get atoi held old, fun representable => ⟨?_, ?_⟩⟩
  · obtain ⟨next, executed, loaded⟩ := Option.map_eq_some_iff.mp (map_view_resave last.kf)
    rw [loadFile_serialise representable] at loaded
    exact ⟨next, executed, getInt_of_get atoi (by rw [loaded]; exact held) old⟩
  · intro env domain world disk path room fine
    have loc : last.loc = self.loc := by
      rw [← done]
      exact (performAll_loc ops _).trans (perform_loc _ self)
    obtain ⟨next, opened, _, loaded⟩ := mcsKeyfileNew_total_correct (T := T) path (saved last world disk)
    rw [← loc] at room loaded
    rw [saved_content_loc last fine (room.tfile_ne _), loadFile_serialise representable] at loaded
    exact ⟨next, opened, getInt_of_get atoi (by rw [loaded]; exact held) old⟩

/-! ## Which numerals are read -/

/-- The string of an entry, of a handle that was opened on a file and used: what
    was written last, or, where nothing was, what the file has. -/
def Stored (file : Option Bytes) (ops : List Op) (sect key stored : CString) : Prop :=
  latest (sect, key) (writes ops) = some (some stored) ∨
    (latest (sect, key) (writes ops) = none ∧
      ∃ bytes, file = some bytes ∧ FirstValue (chunks lineRoom bytes) sect key stored)

/-- If the entry is a numeral, success means that its number was read, and a number
    that is no `int` makes the read fail. -/
def Faithful (atoi : Atoi) (kf : Keyfile T) (sect key : CString) : Prop :=
  ∀ (stored : CString) (n : Int) (old : Int32),
    (∀ any, keyfileGetString kf sect key any = (.MCS_OK, some stored)) → Denotes stored.bytes n →
      ((keyfileGetInt atoi kf sect key old).1 = .MCS_OK →
        InRange n ∧ (keyfileGetInt atoi kf sect key old).2.toInt = n) ∧
      (¬ InRange n → (keyfileGetInt atoi kf sect key old).1 = .MCS_FAIL)

theorem stored_iff {file : Option Bytes} {self : Handle T} (loaded : view self.kf = loadFile file) (ops : List Op)
    (sect key stored : CString) :
    (view (performAll self ops).1.kf).get sect key = some stored ↔ Stored file ops sect key stored := by
  have now := congrFun (entries_performAll ops self) (sect, key)
  rw [replay_eq, loaded] at now
  refine (Eq.congr_left now).trans ?_
  unfold Stored
  cases latest (sect, key) (writes ops) with
  | some left => simp
  | none =>
    simp only [Option.getD_none, reduceCtorEq, false_or, true_and]
    show (loadFile file).get sect key = some stored ↔ _
    cases file with
    | none => simp [loadFile]
    | some bytes => simp [firstValue_iff]

/-- A read always succeeds, so it is faithful exactly to the numerals of an `int`. -/
theorem faithful_iff_inRange (atoi : Atoi) (kf : Keyfile T) (sect key : CString) :
    Faithful atoi kf sect key ↔
      ∀ stored n, (view kf).get sect key = some stored → Denotes stored.bytes n → InRange n := by
  constructor
  · intro faithful stored n held denotes
    have read := faithful stored n 0 ((keyfileGetString_found kf sect key stored).mpr held) denotes
    rw [keyfileGetInt, keyfileGetAs_eq, held] at read
    exact (read.1 rfl).1
  · intro inside stored n old found denotes
    have held := (keyfileGetString_found kf sect key stored).mp found
    have range := inside stored n held denotes
    have value := strtolValue_of_denotes denotes
    rw [keyfileGetInt, keyfileGetAs_eq, held]
    refine ⟨fun _ => ⟨range, ?_⟩, fun out => absurd range out⟩
    have same := atoi.exact stored (by rw [value]; exact range)
    rw [value] at same
    exact same

/-- On every file, after any operations, `keyfile_get_int` is faithful exactly where
    the entry is not a numeral of a number that is no `int`. -/
theorem faithful_iff (atoi : Atoi) (loc : CString) (file : Option Bytes) (ops : List Op) (sect key : CString) :
    ∃ kf : Keyfile T, keyfileOpen file = some kf ∧
      (Faithful atoi (performAll ⟨loc, kf⟩ ops).1.kf sect key ↔
        ∀ stored n, Stored file ops sect key stored → Denotes stored.bytes n → InRange n) := by
  obtain ⟨kf, executed, loaded⟩ := keyfileOpen_total_correct (T := T) file
  refine ⟨kf, executed, ?_⟩
  rw [faithful_iff_inRange]
  have here : ∀ stored, (view (performAll ⟨loc, kf⟩ ops).1.kf).get sect key = some stored ↔
      Stored file ops sect key stored := fun stored => stored_iff loaded ops sect key stored
  simp only [here]

/-! ### An integer and a numeral -/

/-- The integer with the longest text, set and read behind another setting. -/
theorem setInt_getInt_min : keyfileGetInt atoiOfLong (performAll (Op.perform (.setInt nameA nameA Int32.minValue)
    (⟨pathAB, keyfileNew⟩ : Handle (Assoc false CString))).1 [.setString nameA nameB nameA]).1.kf nameA nameA 0 =
      (.MCS_OK, Int32.minValue) := by
  refine (setInt_getInt atoiOfLong _ nameA nameA Int32.minValue [.setString nameA nameB nameA] ?_ _ rfl 0).1
  intro left member
  cases member with
  | tail _ more => cases more

/-- The text `2147483648`. -/
def tooLarge : CString := ⟨[50, 49, 52, 55, 52, 56, 51, 54, 52, 56], by decide⟩

/-- Set and read, it is a success with some other value. -/
theorem tooLarge_misread : ¬ ∀ (atoi : Atoi) (loc : CString) (file : Option Bytes) (ops : List Op)
    (sect key : CString), ∃ kf : Keyfile (Assoc false CString), keyfileOpen file = some kf ∧
      Faithful atoi (performAll ⟨loc, kf⟩ ops).1.kf sect key := by
  intro always
  obtain ⟨kf, _, faithful⟩ := always atoiOfLong pathAB none [.setString nameA nameA tooLarge] nameA nameA
  rw [faithful_iff_inRange] at faithful
  have held : (view (performAll (⟨pathAB, kf⟩ : Handle (Assoc false CString))
      [.setString nameA nameA tooLarge]).1.kf).get nameA nameA = some tooLarge :=
    (congrArg (fun store => Store.get store nameA nameA) (view_keyfileSetString kf nameA nameA tooLarge)).trans
      ((Store.get_set _ _ _ _ _ _).trans (if_pos rfl))
  have worth : numeric tooLarge.bytes = 2147483648 := by decide
  have denotes : Denotes tooLarge.bytes 2147483648 :=
    ⟨tooLarge.bytes, by decide, .inl ⟨.inl rfl, by rw [worth, Nat.cast_ofNat]⟩⟩
  exact absurd (faithful tooLarge 2147483648 held denotes) (by decide)

end Mcs.Integers
