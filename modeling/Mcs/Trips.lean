import Mcs.Settings

/-!
A program that loads a setting when it starts and stores it again when it ends, over any
number of sessions. What it loads first is what the file says; what it loads ever after
is what one trip through the text makes of that, and no later trip changes it any more
(`trips_settle`).
-/
namespace Mcs.Trips
open Mcs.Dictionary Mcs.Strings Mcs.Numerals Mcs.Decimals Mcs.Binary64 Mcs.Settling Mcs.Sectioned Mcs.KeyfileModel
open Mcs.Reading Mcs.Format Mcs.RoundTrip Mcs.Files Mcs.Backend Mcs.Sessions Mcs.Floats Mcs.Settings

variable {T : Type → Type} [Patricia CString T] {kind : Kind}

/-! ## One trip through the text -/

/-- The setting that a variable is stored as. -/
def stored : (kind : Kind) → kind.Variable → Option Setting
  | .string, value => value.map .string
  | .int, value => some (.int value)
  | .bool, value => some (.bool value)
  | .float, value => some (.float value)
  | .double, value => some (.double value)

/-- What is read of a variable that was stored. -/
def again (library : Conversions) (kind : Kind) (value : kind.Variable) : kind.Variable :=
  (stored kind value).elim value fun setting => setting.as library kind

/-- The variable has a value that every text of it says: no infinity, and a number. -/
def Plain : (kind : Kind) → kind.Variable → Prop
  | .float, value => ∃ negative magnitude fits, value = .finite negative magnitude fits
  | .double, value => ∃ negative magnitude fits, value = .finite negative magnitude fits
  | _, _ => True

/-- A second trip changes nothing. -/
theorem again_again (library : Conversions) {value : kind.Variable} (plain : Plain kind value) :
    again library kind (again library kind value) = again library kind value := by
  cases kind with
  | string => cases value <;> rfl
  | int => rfl
  | bool =>
    by_cases truth : (value : Int32) ≠ 0
    · have said : again library .bool value = (1 : Int32) := if_pos truth
      rw [said]
      rfl
    · have said : again library .bool value = (0 : Int32) := if_neg truth
      rw [said]
      rfl
  | float =>
    obtain ⟨negative, magnitude, fits, rfl⟩ := plain
    have settled := readSingle.read_rounded_read (rounded_nonneg magnitude) (rounded_rounded magnitude)
    exact (Single.finite.injEq ..).mpr ⟨rfl, settled⟩
  | double =>
    obtain ⟨negative, magnitude, fits, rfl⟩ := plain
    have settled := readDouble.read_rounded_read (rounded_nonneg magnitude) (rounded_rounded magnitude)
    exact (Double.finite.injEq ..).mpr ⟨rfl, settled⟩

/-! ## What the file says after it -/

/-- The text of the entry after a trip. -/
def restored (library : Conversions) (kind : Kind) (text : CString) : CString :=
  (stored kind (kind.read library text)).elim text Setting.text

theorem read_restored (library : Conversions) (kind : Kind) (text : CString) :
    kind.read library (restored library kind text) = again library kind (kind.read library text) := by
  unfold restored again
  cases stored kind (kind.read library text) with
  | none => rfl
  | some setting => exact read_text library setting kind

/-- A text of one line. -/
structure OneLine (text : CString) : Prop where
  nonempty : text.bytes ≠ []
  noNewline : newline ∉ text.bytes
  short : strlen text ≤ 14

theorem digits_noNewline {digits : Bytes} (all : Digits digits) : newline ∉ digits := fun member =>
  absurd (all newline member) (by decide)

theorem unsigned_noNewline {text : Bytes} {q : ℚ} (denotes : Unsigned text q) : newline ∉ text := by
  obtain ⟨whole, fraction, middle, scale, exponent, rfl, inWhole, _, inFraction, shape, scaled, _⟩ := denotes
  have front := digits_noNewline inWhole
  have back := digits_noNewline inFraction
  have inMiddle : newline ∉ middle := by
    rcases shape with rfl | ⟨rfl, _⟩
    · exact List.not_mem_cons_of_ne_of_not_mem (by decide) back
    · exact List.not_mem_nil
  have inScale : newline ∉ scale := by
    rcases scaled with ⟨rfl, _⟩ | ⟨text, rfl, digits, all, ⟨rfl | rfl, _⟩ | ⟨rfl, _⟩⟩
    · exact List.not_mem_nil
    all_goals
      have plain := digits_noNewline all
      simp [exponentMark, plusSign, minusSign, newline] at plain ⊢
      exact plain
  simp [front, inMiddle, inScale]

theorem denotes_line {text : CString} {negative : Bool} {q : ℚ} (denotes : DenotesDecimal text.bytes negative q)
    (short : strlen text ≤ 14) : OneLine text := by
  obtain ⟨bytes, unsigned, shape⟩ := denotes
  obtain ⟨byte, rest, split, _⟩ := unsigned_head unsigned
  have plain := unsigned_noNewline unsigned
  have signs : newline ≠ plusSign ∧ newline ≠ minusSign := by decide
  rcases shape with ⟨_, same | same⟩ | ⟨_, same⟩
  · exact ⟨by rw [same, split]; exact List.cons_ne_nil _ _, by rwa [same], short⟩
  · exact ⟨by rw [same]; exact List.cons_ne_nil _ _,
      by rw [same]; exact List.not_mem_cons_of_ne_of_not_mem signs.1 plain, short⟩
  · exact ⟨by rw [same]; exact List.cons_ne_nil _ _,
      by rw [same]; exact List.not_mem_cons_of_ne_of_not_mem signs.2 plain, short⟩

theorem printG_line (value : Double) : OneLine (printG value) := by
  have short := length_printG_le value
  cases value with
  | finite negative magnitude fits => exact denotes_line (text_finite negative fits) short
  | infinite negative => cases negative <;> exact ⟨by decide, by decide, short⟩
  | nan negative => cases negative <;> exact ⟨by decide, by decide, short⟩

/-- The text of all but a string is one short line. -/
theorem text_line {setting : Setting} (number : ∀ value, setting ≠ .string value) : OneLine setting.text := by
  cases setting with
  | string value => exact absurd rfl (number value)
  | int value =>
    have short := length_decimal_le (Integers.inRange_toInt value)
    rw [text_int]
    exact denotes_line (denotesDecimal_decimal value.toInt) (by omega)
  | bool value =>
    rw [Setting.text]
    split <;> exact ⟨by decide, by decide, by decide⟩
  | float value => rw [text_float]; exact printG_line _
  | double value => rw [text_double]; exact printG_line value

theorem entryOk_line {key text line : CString} (ok : EntryOk key text) (short : strlen key ≤ 4080) (one : OneLine line) :
    EntryOk key line := by
  have length := one.short
  unfold strlen at short length
  exact ⟨⟨ok.keyNonempty, ok.keyNoEquals, ok.keyNoNewline, one.nonempty, one.noNewline, by omega⟩, ok.unmarked⟩

theorem entryOk_restored (library : Conversions) (kind : Kind) {key text : CString} (ok : EntryOk key text)
    (short : strlen key ≤ 4080) : EntryOk key (restored library kind text) := by
  have number : ∀ setting : Setting, (∀ value, setting ≠ .string value) → EntryOk key setting.text := fun _ number =>
    entryOk_line ok short (text_line number)
  cases kind with
  | string => exact ok
  | int => exact number (.int _) fun _ same => by cases same
  | bool => exact number (.bool _) fun _ same => by cases same
  | float => exact number (.float _) fun _ same => by cases same
  | double => exact number (.double _) fun _ same => by cases same

/-! ## Sessions -/

/-- A session in which a setting is loaded and stored again, what else is done in it, and
    what the variable holds before it is loaded. -/
structure Trip (kind : Kind) where
  before : List Op
  after : List Op
  value : kind.Variable
  world : World

/-- The program of the session: it stores what it has loaded. -/
def Trip.perform (library : Conversions) (sect key : CString) (trip : Trip kind) (self : Handle T) :
    Handle T × (Response × kind.Variable) :=
  let ready := (performAll self trip.before).1
  let got := kind.get library ready.kf sect key trip.value
  let stored := match stored kind got.2 with
    | some setting => { ready with kf := (setting.set ready.kf sect key).1 }
    | none => ready
  ((performAll stored trip.after).1, got)

/-- The disk after the session, and what was loaded in it. -/
def Trip.run (T : Type → Type) [Patricia CString T] (library : Conversions) (env : Environment) (domain : CString)
    (sect key : CString) (trip : Trip kind) (disk : Disk CString) :
    Option (Disk CString × (Response × kind.Variable)) :=
  (mcsKeyfileNew env domain disk).map fun (self : Handle T) =>
    (saved (trip.perform library sect key self).1 trip.world disk, (trip.perform library sect key self).2)

def runTrips (T : Type → Type) [Patricia CString T] (library : Conversions) (env : Environment) (domain : CString)
    (sect key : CString) : List (Trip kind) → Disk CString → Option (Disk CString × List (Response × kind.Variable))
  | [], disk => some (disk, [])
  | trip :: rest, disk =>
    (trip.run T library env domain sect key disk).bind fun done =>
      (runTrips T library env domain sect key rest done.1).map fun last => (last.1, done.2 :: last.2)

/-- What else is done can be carried, and leaves the entry alone. -/
structure Trip.Aside (sect key : CString) (trip : Trip kind) : Prop where
  fine : trip.world.Fine
  ok : ∀ op ∈ trip.before ++ trip.after, op.Ok
  others : ∀ left, ((sect, key), left) ∉ writes (trip.before ++ trip.after)

/-- A representable store with this text in the entry. -/
structure Holds (sect key text : CString) (store : Store CString CString CString) : Prop where
  representable : Representable store
  entry : store.get sect key = some text

section
variable {sect key text : CString}

theorem Holds.performAll {self : Handle T} (holds : Holds sect key text (view self.kf)) {ops : List Op}
    (ok : ∀ op ∈ ops, op.Ok) (others : ∀ left, ((sect, key), left) ∉ writes ops) :
    Holds sect key text (view (performAll self ops).1.kf) := by
  refine ⟨?_, (performAll_get others self).trans holds.entry⟩
  have first := holds.representable
  clear holds others
  induction ops generalizing self with
  | nil => exact first
  | cons op rest ih =>
    exact ih (fun op member => ok op (List.mem_cons_of_mem _ member)) (perform_representable (ok op List.mem_cons_self) first)

/-- What is stored is what was loaded, as far as the text says it. -/
theorem holds_stored (library : Conversions) (kind : Kind) (short : strlen key ≤ 4080) {self : Handle T}
    (holds : Holds sect key text (view self.kf)) :
    Holds sect key (restored library kind text) (view (match stored kind (kind.read library text) with
      | some setting => { self with kf := (setting.set self.kf sect key).1 }
      | none => self).kf) := by
  have ok := entryOk_restored library kind (holds.representable.entries sect key text holds.entry) short
  have name := holds.representable.sections sect (Store.isSome_of_get holds.entry)
  unfold restored at ok ⊢
  generalize stored kind (kind.read library text) = left at ok ⊢
  cases left with
  | none => exact holds
  | some setting =>
    show Holds sect key setting.text (view (setting.set self.kf sect key).1)
    rw [set_eq, view_keyfileSetString]
    exact ⟨set_representable holds.representable name ok, (Store.get_set _ _ _ _ _ _).trans (if_pos rfl)⟩

/-- The handle after the program of a session. -/
theorem trip_perform (library : Conversions) {trip : Trip kind} (aside : trip.Aside sect key)
    (short : strlen key ≤ 4080) {self : Handle T} (holds : Holds sect key text (view self.kf)) :
    (trip.perform library sect key self).2 = (.MCS_OK, kind.read library text) ∧
      (trip.perform library sect key self).1.loc = self.loc ∧
      Holds sect key (restored library kind text) (view (trip.perform library sect key self).1.kf) := by
  have ready := holds.performAll (fun op member => aside.ok op (List.mem_append_left _ member))
    fun left member => aside.others left (by rw [writes_append]; exact List.mem_append_left _ member)
  have got : kind.get library (performAll self trip.before).1.kf sect key trip.value = (.MCS_OK, kind.read library text) := by
    rw [get_eq, ready.entry]
  have stored := holds_stored library kind short ready
  rw [Trip.perform, got]
  refine ⟨rfl, ?_, ?_⟩
  · refine (performAll_loc _ _).trans (Eq.trans ?_ (performAll_loc trip.before self))
    split <;> rfl
  · exact stored.performAll (fun op member => aside.ok op (List.mem_append_right _ member))
      fun left member => aside.others left (by rw [writes_append]; exact List.mem_append_right _ member)

variable {env : Environment} {domain loc : CString}

theorem trip_total_correct (library : Conversions) (path : configPath env domain = some loc) (room : Room loc)
    {trip : Trip kind} (aside : trip.Aside sect key) (short : strlen key ≤ 4080) {disk : Disk CString}
    (holds : Holds sect key text (loadFile (disk.content loc))) :
    ∃ after, trip.run T library env domain sect key disk = some (after, (.MCS_OK, kind.read library text)) ∧
      Holds sect key (restored library kind text) (loadFile (after.content loc)) := by
  obtain ⟨self, opened, rfl, loaded⟩ := mcsKeyfileNew_total_correct (T := T) path disk
  rw [← loaded] at holds
  obtain ⟨got, same, correct⟩ := trip_perform library aside short holds
  refine ⟨saved (trip.perform library sect key self).1 trip.world disk, ?_, ?_⟩
  · rw [Trip.run, opened, Option.map_some, got]
  · rw [← same] at room ⊢
    rw [saved_content_loc _ aside.fine (room.tfile_ne _), loadFile_serialise correct.representable]
    exact correct

/-- Once a trip does not change what is loaded, no later one does. -/
theorem trips_constant (library : Conversions) (path : configPath env domain = some loc) (room : Room loc)
    (short : strlen key ≤ 4080) {value : kind.Variable} (settled : again library kind value = value)
    {trips : List (Trip kind)} (aside : ∀ trip ∈ trips, trip.Aside sect key) {disk : Disk CString}
    (holds : Holds sect key text (loadFile (disk.content loc))) (read : kind.read library text = value) :
    ∃ after, runTrips T library env domain sect key trips disk =
      some (after, List.replicate trips.length (.MCS_OK, value)) := by
  induction trips generalizing text disk with
  | nil => exact ⟨disk, rfl⟩
  | cons trip rest ih =>
    obtain ⟨middle, executed, next⟩ := trip_total_correct (T := T) library path room (aside trip List.mem_cons_self) short
      holds
    obtain ⟨after, run⟩ := ih (fun trip member => aside trip (List.mem_cons_of_mem _ member)) next
      (by rw [read_restored, read, settled])
    refine ⟨after, ?_⟩
    rw [runTrips, executed, Option.bind_some, run, Option.map_some, read]
    rfl

/-- A program that loads a setting and stores it again, in any number of sessions, loads
    first what the file says, and ever after what one trip through the text makes of it. -/
theorem trips_settle (library : Conversions) (path : configPath env domain = some loc) (room : Room loc)
    (short : strlen key ≤ 4080) (plain : Plain kind (kind.read library text)) (trip : Trip kind)
    (trips : List (Trip kind)) (first : trip.Aside sect key) (aside : ∀ trip ∈ trips, trip.Aside sect key)
    (disk : Disk CString) (holds : Holds sect key text (loadFile (disk.content loc))) :
    ∃ after, runTrips T library env domain sect key (trip :: trips) disk =
      some (after, (.MCS_OK, kind.read library text) ::
        List.replicate trips.length (.MCS_OK, again library kind (kind.read library text))) := by
  obtain ⟨middle, executed, next⟩ := trip_total_correct (T := T) library path room first short holds
  obtain ⟨after, run⟩ := trips_constant (T := T) library path room short (again_again library plain) aside next
    (read_restored library kind text)
  refine ⟨after, ?_⟩
  rw [runTrips, executed, Option.bind_some, run, Option.map_some]

end

/-! ### A number of seven digits -/

/-- The text `1234567`. -/
def sevenDigits : CString := decimal 1234567

/-- A disk on which a handle has left that text. -/
def sevenDisk : Disk CString :=
  saved ⟨pathAB, (keyfileSetString (keyfileNew : Keyfile (Assoc false CString)) nameA nameA sevenDigits).1⟩ (calm 4096)
    .empty

theorem holds_sevenDisk : Holds nameA nameA sevenDigits (loadFile (sevenDisk.content pathAB)) := by
  have representable : Representable ((.empty : Store CString CString CString).set nameA nameA sevenDigits) :=
    set_representable empty_representable sectionOk_nameA (by decide +kernel)
  have printed := view_keyfileSetString (keyfileNew : Keyfile (Assoc false CString)) nameA nameA sevenDigits
  rw [view_keyfileNew] at printed
  have content := saved_content_loc
    ⟨pathAB, (keyfileSetString (keyfileNew : Keyfile (Assoc false CString)) nameA nameA sevenDigits).1⟩
    (calm_fine 4096) (room_pathAB.tfile_ne _) .empty
  rw [sevenDisk, content, loadFile_serialise (by rw [printed]; exact representable), printed]
  exact ⟨representable, (Store.get_set _ _ _ _ _ _).trans (if_pos rfl)⟩

theorem read_sevenDigits : Kind.read nearestLibrary .double sevenDigits = .ofInt 1234567 (by decide) :=
  strtod_decimal strtodNearest (by decide)

theorem again_sevenDigits :
    again nearestLibrary .double (.ofInt 1234567 (by decide)) = .ofInt 1234570 (by decide) := by
  have digits : rounded ((1234567 : Nat) : ℚ) = (123457 : Nat) * 10 ^ (1 : Int) :=
    rounded_eq_of_close (by norm_num) (by norm_num) (by norm_num)
  have value : rounded ((1234567 : Nat) : ℚ) = ((1234570 : Nat) : ℚ) := by
    rw [digits]
    norm_num
  have exact : binary64.nearest ((1234570 : Nat) : ℚ) = (1234570 : Nat) :=
    Precisions.nearest_of_has (fits_natCast (by decide))
  have read : readDouble.read (rounded ((1234567 : Nat) : ℚ)) = (1234570 : Nat) := by
    rw [value]
    exact exact
  exact (Double.finite.injEq ..).mpr ⟨rfl, read⟩

/-- A session in which nothing else is done. -/
def bareTrip : Trip .double := ⟨[], [], .nan false, calm 4096⟩

theorem aside_bareTrip : bareTrip.Aside nameA nameA :=
  ⟨calm_fine 4096, fun _ member => (by cases member), fun _ member => (by cases member)⟩

/-- Only the first session loads the seventh digit. -/
theorem trips_settle_seven : ∃ after, runTrips (Assoc false CString) nearestLibrary directoryA nameB nameA nameA
    [bareTrip, bareTrip, bareTrip] sevenDisk = some (after, [(.MCS_OK, .ofInt 1234567 (by decide)),
      (.MCS_OK, .ofInt 1234570 (by decide)), (.MCS_OK, .ofInt 1234570 (by decide))]) := by
  have plain : Plain .double (Kind.read nearestLibrary .double sevenDigits) := by
    rw [read_sevenDigits]
    exact ⟨_, _, _, rfl⟩
  have both : ∀ trip ∈ [bareTrip, bareTrip], trip.Aside nameA nameA := by
    intro trip member
    simp only [List.mem_cons, List.not_mem_nil, or_false, or_self] at member
    exact member ▸ aside_bareTrip
  obtain ⟨after, run⟩ := trips_settle (T := Assoc false CString) nearestLibrary configPath_directoryA room_pathAB
    (by decide) plain bareTrip [bareTrip, bareTrip] aside_bareTrip both sevenDisk holds_sevenDisk
  rw [read_sevenDigits, again_sevenDigits] at run
  exact ⟨after, run⟩

end Mcs.Trips
