import Mcs.Enumeration
import Mcs.Numerals
import Mcs.Outlines
import Mcs.Registry
import Mcs.Transactions
import Mathlib.Algebra.BigOperators.Group.List.Basic
import Mathlib.Data.List.Perm.Subperm

/-!
The tools `mcs-setconfval`, `mcs-getconfval` and `mcs-walk-config`, from their command
lines to what they print. What the last one prints says which sections and keys there
are, and in which order (`walkConfig_same_iff`). Whatever processes of the three are
run on a configuration, each prints what those that were saved before it have set
(`tools_total_correct`).
-/
namespace Mcs.Tools
open Mcs.Dictionary Mcs.Dictionary.Patricia Mcs.Strings Mcs.Sectioned Mcs.KeyfileModel Mcs.Reading
open Mcs.Format Mcs.RoundTrip Mcs.Files Mcs.Histories Mcs.Backend Mcs.Sessions Mcs.Crashes Mcs.Enumeration
open Mcs.Numerals Mcs.Registry Mcs.Transactions Mcs.Outlines

variable {T : Type → Type} [Patricia CString T]

/-! ## Handles of the tools -/

/-- The backends of a process that registers none of its own. -/
def builtIn (T : Type → Type) [Patricia CString T] (env : Environment) (disk : Disk CString) :
    Backends Unit (Option (Handle T)) where
  vtable _ := ⟨defaultName, fun domain => mcsKeyfileNew env domain disk⟩
  keyfileBackend := ()
  keyfileName := rfl

/-- `mcs_init()` and `mcs_new(domain)`. -/
def newHandle (T : Type → Type) [Patricia CString T] (env : Environment) (disk : Disk CString) (domain : CString) :
    Option (Handle T) :=
  let library : Library T Unit := mcsInit (builtIn T env disk)
  (mcsNew (builtIn T env disk) library.mcsBackends domain).bind Prod.snd

theorem newHandle_eq (env : Environment) (disk : Disk CString) (domain : CString) :
    newHandle T env disk domain = mcsKeyfileNew env domain disk := by
  simp [newHandle, mcsNew, mcsInit, Library.call, Call.perform, mcsBackendRegister, Backends.place, builtIn,
    mcsBackendSelect]

/-! ## What they print -/

/-- The bytes of a text in ASCII. -/
def text (chars : String) : Bytes := chars.toList.map fun char => char.toUInt8

/-- `"%s/%s => %s\n"`. -/
def settingText (sect keyname setting : CString) : Bytes :=
  sect.bytes ++ text "/" ++ keyname.bytes ++ text " => " ++ setting.bytes ++ [newline]

/-- `"\n%s\n"`. -/
def sectionText (sect : CString) : Bytes := newline :: sect.bytes ++ [newline]

/-- `"  %c-- %s\n"`; the character is a backquote for the last key, and a bar for the others. -/
def keyText (last : Bool) (key : CString) : Bytes :=
  32 :: 32 :: (if last then 96 else 124) :: text "-- " ++ key.bytes ++ [newline]

/-- `"%d entries across %d groups, average %d entries per group"`. -/
def summaryLine (entries sections average : Int) : Bytes :=
  (decimal entries).bytes ++ text " entries across " ++ (decimal sections).bytes ++ text " groups, average " ++
    (decimal average).bytes ++ text " entries per group"

/-- `printf("usage: %s ...\n", argv[0])`; `null` is what the library prints for a null
    pointer. -/
def usageText (null : CString) (arguments : Bytes) (argv : List CString) : Bytes :=
  text "usage: " ++ (argv.head?.getD null).bytes ++ arguments ++ [newline]

/-! ## Walking a configuration -/

/-- What the loops of `mcs-walk-config` have printed and counted. -/
structure Walk where
  printed : Bytes
  entries : Int32
  sections : Int32

/-- The loop over the keys of a section. -/
def walkKeys (walk : Walk) : List CString → Walk
  | [] => walk
  | key :: rest =>
    walkKeys { walk with
      printed := walk.printed ++ keyText rest.isEmpty key
      entries := walk.entries + 1 } rest

/-- The loop over the sections. -/
def walkSections (h : Handle T) (walk : Walk) : List CString → Walk
  | [] => walk
  | sect :: rest =>
    let keys := walkKeys { walk with printed := walk.printed ++ sectionText sect } (mcsKeyfileGetKeys h sect)
    walkSections h { keys with sections := keys.sections + 1 } rest

/-- All that is printed. -/
def walkText (h : Handle T) : Bytes :=
  let walk := walkSections h ⟨[], 0, 0⟩ (mcsKeyfileGetSections h)
  let average := if walk.sections ≠ 0 then walk.entries / walk.sections else 0
  walk.printed ++ newline :: summaryLine walk.entries.toInt walk.sections.toInt average.toInt ++ [newline]

/-! ### Listings -/

/-- The sections of a handle, each with its keys. -/
def groups (h : Handle T) : List (CString × List CString) :=
  (mcsKeyfileGetSections h).map fun sect => (sect, mcsKeyfileGetKeys h sect)

/-- How many entries the groups have. -/
def total (groups : List (CString × List CString)) : Nat := (groups.map fun group => group.2.length).sum

def groupText (group : CString × List CString) : Bytes :=
  sectionText group.1 ++ (marked keyText group.2).flatten

/-- Groups in print, with the numbers under them. -/
def listing (groups : List (CString × List CString)) (entries sections average : Int) : Bytes :=
  (groups.map groupText).flatten ++ newline :: summaryLine entries sections average ++ [newline]

theorem walkKeys_eq (walk : Walk) (keys : List CString) : walkKeys walk keys =
    { walk with
      printed := walk.printed ++ (marked keyText keys).flatten
      entries := walk.entries + Int32.ofNat keys.length } := by
  induction keys generalizing walk with
  | nil => simp [walkKeys, marked]
  | cons key rest ih =>
    rw [walkKeys, ih]
    simp only [marked, List.flatten_cons, List.append_assoc, List.length_cons, Int32.ofNat_add]
    rw [Int32.add_assoc, Int32.add_comm 1]
    rfl

theorem walkSections_eq (h : Handle T) (walk : Walk) (sections : List CString) :
    let visited := sections.map fun sect => (sect, mcsKeyfileGetKeys h sect)
    walkSections h walk sections =
      ⟨walk.printed ++ (visited.map groupText).flatten, walk.entries + Int32.ofNat (total visited),
        walk.sections + Int32.ofNat visited.length⟩ := by
  induction sections generalizing walk with
  | nil => simp [walkSections, total]
  | cons sect rest ih =>
    simp only [walkSections, ih, walkKeys_eq, List.map_cons, List.flatten_cons, groupText, total, List.sum_cons,
      List.length_cons, Int32.ofNat_add, List.append_assoc, Walk.mk.injEq, true_and]
    constructor
    · rw [Int32.add_assoc]
    · rw [Int32.add_assoc, Int32.add_comm 1]
      rfl

theorem walkText_eq (h : Handle T) :
    let entries := Int32.ofNat (total (groups h))
    let sections := Int32.ofNat (groups h).length
    walkText h = listing (groups h) entries.toInt sections.toInt (entries / sections).toInt := by
  have loops := walkSections_eq h ⟨[], 0, 0⟩ (mcsKeyfileGetSections h)
  simp only [walkText, loops, listing, groups, List.nil_append, Int32.zero_add]
  split
  · rfl
  · rename_i none
    rw [not_not.mp none, Int32.div_zero]

/-- As long as an `int` can count the entries, the numbers are right. -/
theorem walkText_small {h : Handle T} (entries : total (groups h) < 2 ^ 31) (sections : (groups h).length < 2 ^ 31) :
    walkText h = listing (groups h) (total (groups h)) (groups h).length ↑(total (groups h) / (groups h).length) := by
  have average : total (groups h) / (groups h).length < 2 ^ 31 := Nat.lt_of_le_of_lt (Nat.div_le_self _ _) entries
  rw [walkText_eq, ← Int32.ofNat_div entries sections, Int32.toInt_ofNat_of_lt entries,
    Int32.toInt_ofNat_of_lt sections, Int32.toInt_ofNat_of_lt average]

/-! ### Reading a listing -/

/-- No name has a newline. -/
def Plain (groups : List (CString × List CString)) : Prop :=
  ∀ group ∈ groups, newline ∉ group.1.bytes ∧ ∀ key ∈ group.2, newline ∉ key.bytes

theorem decimal_plain (n : Int) : newline ∉ (decimal n).bytes := by
  obtain ⟨digits, all, ⟨same | same, _⟩ | ⟨same, _⟩⟩ := denotes_decimal n
  all_goals
    have plain : newline ∉ digits := fun inside => absurd (all newline inside) (by decide)
    rw [same]
  · exact plain
  · exact List.not_mem_cons_of_ne_of_not_mem (by decide) plain
  · exact List.not_mem_cons_of_ne_of_not_mem (by decide) plain

theorem summaryLine_plain (entries sections average : Int) : newline ∉ summaryLine entries sections average := by
  have texts : newline ∉ text " entries across " ∧ newline ∉ text " groups, average " ∧
      newline ∉ text " entries per group" := by decide
  simp [summaryLine, decimal_plain, texts.1, texts.2.1, texts.2.2]

theorem keyText_line {key : CString} (plain : newline ∉ key.bytes) (last : Bool) :
    ∃ line, newline ∉ line ∧ keyText last key = line ++ [newline] := by
  have front : newline ∉ (32 :: 32 :: 96 :: text "-- " : Bytes) ∧ newline ∉ (32 :: 32 :: 124 :: text "-- " : Bytes) := by
    decide
  refine ⟨_, ?_, rfl⟩
  cases last
  · exact fun inside => (List.mem_append.mp inside).elim front.2 plain
  · exact fun inside => (List.mem_append.mp inside).elim front.1 plain

theorem keyText_inj (last other : Bool) (key key' : CString) (same : keyText last key = keyText other key') :
    key = key' := by
  have behind := congrArg (List.drop 6) (List.append_cancel_right same)
  ext1
  exact behind

theorem lines_flatten {texts : List Bytes} (plain : ∀ text ∈ texts, ∃ line, newline ∉ line ∧ text = line ++ [newline])
    (rest : Bytes) : lines (texts.flatten ++ rest) = texts ++ lines rest := by
  induction texts with
  | nil => rfl
  | cons first others ih =>
    obtain ⟨line, whole, rfl⟩ := plain first List.mem_cons_self
    have split : (List.flatten ((line ++ [newline]) :: others)) ++ rest = line ++ newline :: (others.flatten ++ rest) := by
      simp
    rw [split, lines_line whole, ih fun text among => plain text (List.mem_cons_of_mem _ among)]
    rfl

/-- The lines of a listing are an outline. -/
def outlined (groups : List (CString × List CString)) : List (Bytes × List Bytes) :=
  groups.map fun group => (group.1.bytes ++ [newline], marked keyText group.2)

theorem lines_listing {groups : List (CString × List CString)} (plain : Plain groups)
    (entries sections average : Int) : lines (listing groups entries sections average) =
      outline [newline] (outlined groups) (summaryLine entries sections average ++ [newline]) := by
  have blank : ∀ rest : Bytes, lines ([] ++ newline :: rest) = [newline] :: lines rest := fun rest =>
    lines_line List.not_mem_nil rest
  induction groups with
  | nil =>
    have last := lines_line (summaryLine_plain entries sections average) []
    have whole : listing [] entries sections average = [] ++ newline :: (summaryLine entries sections average ++ [newline]) := rfl
    rw [whole, blank, last]
    rfl
  | cons group rest ih =>
    obtain ⟨heading, keys⟩ := plain group List.mem_cons_self
    have items : ∀ text ∈ marked keyText group.2, ∃ line, newline ∉ line ∧ text = line ++ [newline] := by
      intro text among
      obtain ⟨last, key, member, rfl⟩ := mem_marked among
      exact keyText_line (keys key member) last
    have split : listing (group :: rest) entries sections average = [] ++ newline :: (group.1.bytes ++ newline ::
        ((marked keyText group.2).flatten ++ listing rest entries sections average)) := by
      simp [listing, groupText, sectionText]
    have after := ih fun other among => plain other (List.mem_cons_of_mem _ among)
    have first : outlined (group :: rest) = (group.1.bytes ++ [newline], marked keyText group.2) :: outlined rest := rfl
    rw [split, blank, lines_line heading, lines_flatten items, after, first, outline_cons]

/-- A listing is read in one way only. -/
theorem listing_inj {groups groups' : List (CString × List CString)} (plain : Plain groups) (plain' : Plain groups')
    {entries sections average entries' sections' average' : Int}
    (same : listing groups entries sections average = listing groups' entries' sections' average') :
    groups = groups' := by
  have blank : ∀ groups : List (CString × List CString), ∀ group ∈ outlined groups, [newline] ∉ group.2 := by
    intro groups group among inside
    obtain ⟨source, _, rfl⟩ := List.mem_map.mp among
    obtain ⟨last, key, _, short⟩ := mem_marked inside
    have length := congrArg List.length short
    simp [keyText] at length
  have read := congrArg lines same
  rw [lines_listing plain, lines_listing plain'] at read
  have outlines := (outline_inj (blank groups) (blank groups') read).1
  refine List.map_injective_iff.mpr ?_ outlines
  rintro ⟨sect, keys⟩ ⟨sect', keys'⟩ group
  obtain ⟨heading, items⟩ := Prod.mk.inj group
  have name : sect = sect' := by
    ext1
    exact List.append_cancel_right heading
  exact Prod.ext name (marked_inj keyText_inj items)

/-- The names that were loaded from a file fit on a line. -/
theorem groups_plain {h : Handle T} {file : Option Bytes} (loaded : view h.kf = loadFile file) : Plain (groups h) := by
  intro group member
  obtain ⟨sect, inSections, rfl⟩ := List.mem_map.mp member
  rw [mem_getSections, loaded] at inSections
  refine ⟨(loaded_section inSections).noNewline, ?_⟩
  intro key inKeys
  obtain ⟨value, held⟩ := Option.isSome_iff_exists.mp ((mem_getKeys h sect key).mp inKeys)
  rw [loaded] at held
  exact (loaded_entry held).keyNoNewline

/-- For any two files, whatever their bytes are, `mcs-walk-config` prints the same
    exactly when it finds the same sections with the same keys in the same order. -/
theorem walkConfig_same_iff (loc loc' : CString) (file file' : Option Bytes) :
    ∃ kf kf' : Keyfile T, keyfileOpen file = some kf ∧ keyfileOpen file' = some kf' ∧
      (walkText ⟨loc, kf⟩ = walkText ⟨loc', kf'⟩ ↔ groups ⟨loc, kf⟩ = groups ⟨loc', kf'⟩) := by
  obtain ⟨kf, executed, loaded⟩ := keyfileOpen_total_correct (T := T) file
  obtain ⟨kf', executed', loaded'⟩ := keyfileOpen_total_correct (T := T) file'
  refine ⟨kf, kf', executed, executed', ?_, ?_⟩
  · intro same
    rw [walkText_eq, walkText_eq] at same
    exact listing_inj (groups_plain loaded) (groups_plain loaded') same
  · intro same
    rw [walkText_eq, walkText_eq, same]

/-! ## Processes -/

inductive Tool where
  | setconfval
  | getconfval
  | walkConfig

/-- A process: the tool, its command line, the world in which its handle is saved, and
    the number of system calls after which it is killed; a save that makes fewer ends
    by itself. -/
structure Invocation where
  tool : Tool
  argv : List CString
  world : World
  count : Nat

/-- What a process has printed, and what its `main` has returned. -/
structure Output where
  printed : Bytes
  status : Int

/-- The disk after a process, its output unless it was killed, and whether its save got
    to the rename. -/
structure Ended where
  disk : Disk CString
  output : Option Output
  published : Bool

/-- `mowgli_object_unref(h)` and the end of the process. -/
def unref (h : Handle T) (printed : Bytes) (invocation : Invocation) (disk : Disk CString) : Ended where
  disk := killed h invocation.world disk invocation.count
  output := if (saving h invocation.world).length ≤ invocation.count then some ⟨printed, 0⟩ else none
  published := published h invocation.world invocation.count

/-- Too few arguments. -/
def usage (null : CString) (arguments : Bytes) (argv : List CString) (disk : Disk CString) : Ended :=
  ⟨disk, some ⟨usageText null arguments argv, -1⟩, false⟩

def Tool.arguments : Tool → Bytes
  | .setconfval => text " domain section keyname setting"
  | .getconfval => text " domain section keyname"
  | .walkConfig => text " domain"

def mainSetconfval (T : Type → Type) [Patricia CString T] (null : CString) (env : Environment)
    (invocation : Invocation) (disk : Disk CString) : Option Ended :=
  match invocation.argv with
  | _ :: domain :: sect :: keyname :: setting :: _ =>
    (newHandle T env disk domain).map fun h =>
      unref (Op.perform (.setString sect keyname setting) h).1 (settingText sect keyname setting) invocation disk
  | argv => some (usage null Tool.setconfval.arguments argv disk)

/-- The pointer that is printed stays null where there is no entry. -/
def mainGetconfval (T : Type → Type) [Patricia CString T] (null : CString) (env : Environment)
    (invocation : Invocation) (disk : Disk CString) : Option Ended :=
  match invocation.argv with
  | _ :: domain :: sect :: keyname :: _ =>
    (newHandle T env disk domain).map fun h =>
      let foo := (keyfileGetString h.kf sect keyname none).2
      unref h (settingText sect keyname (foo.getD null)) invocation disk
  | argv => some (usage null Tool.getconfval.arguments argv disk)

def mainWalkConfig (T : Type → Type) [Patricia CString T] (null : CString) (env : Environment)
    (invocation : Invocation) (disk : Disk CString) : Option Ended :=
  match invocation.argv with
  | _ :: domain :: _ => (newHandle T env disk domain).map fun h => unref h (walkText h) invocation disk
  | argv => some (usage null Tool.walkConfig.arguments argv disk)

def Invocation.main (T : Type → Type) [Patricia CString T] (null : CString) (env : Environment)
    (invocation : Invocation) (disk : Disk CString) : Option Ended :=
  match invocation.tool with
  | .setconfval => mainSetconfval T null env invocation disk
  | .getconfval => mainGetconfval T null env invocation disk
  | .walkConfig => mainWalkConfig T null env invocation disk

/-- Processes one after the other. -/
def runTools (T : Type → Type) [Patricia CString T] (null : CString) (env : Environment) :
    List Invocation → Disk CString → Option (Disk CString × List (Option Output × Bool))
  | [], disk => some (disk, [])
  | invocation :: rest, disk =>
    (invocation.main T null env disk).bind fun ended =>
      (runTools T null env rest ended.disk).map fun last => (last.1, (ended.output, ended.published) :: last.2)

/-! ### Requests -/

/-- What is asked of a tool with enough arguments. -/
inductive Request where
  | set (sect keyname setting : CString)
  | get (sect keyname : CString)
  | walk

/-- The domain that a command line names, and what it asks for. -/
def Invocation.request (invocation : Invocation) : Option (CString × Request) :=
  match invocation.tool, invocation.argv with
  | .setconfval, _ :: domain :: sect :: keyname :: setting :: _ => some (domain, .set sect keyname setting)
  | .getconfval, _ :: domain :: sect :: keyname :: _ => some (domain, .get sect keyname)
  | .walkConfig, _ :: domain :: _ => some (domain, .walk)
  | _, _ => none

def Request.ops : Request → List Op
  | .set sect keyname setting => [.setString sect keyname setting]
  | .get sect keyname => [.getString sect keyname none]
  | .walk => []

/-- What is printed for a request, from the handle before it is destroyed. -/
def Request.text (null : CString) (h : Handle T) : Request → Bytes
  | .set sect keyname setting => settingText sect keyname setting
  | .get sect keyname => settingText sect keyname ((keyfileGetString h.kf sect keyname none).2.getD null)
  | .walk => walkText h

theorem main_eq (null : CString) (env : Environment) (invocation : Invocation) (disk : Disk CString) :
    invocation.main T null env disk =
      match invocation.request with
      | none => some (usage null invocation.tool.arguments invocation.argv disk)
      | some (domain, request) => (mcsKeyfileNew env domain disk).map fun (h : Handle T) =>
        unref (performAll h request.ops).1 (request.text null (performAll h request.ops).1) invocation disk := by
  obtain ⟨tool, argv, world, count⟩ := invocation
  cases tool with
  | setconfval =>
    match argv with
    | _ :: domain :: sect :: keyname :: setting :: _ =>
      simp only [Invocation.main, mainSetconfval, newHandle_eq, Invocation.request]
      rfl
    | [] | [_] | [_, _] | [_, _, _] | [_, _, _, _] => rfl
  | getconfval =>
    match argv with
    | _ :: domain :: sect :: keyname :: _ =>
      simp only [Invocation.main, mainGetconfval, newHandle_eq, Invocation.request]
      rfl
    | [] | [_] | [_, _] | [_, _, _] => rfl
  | walkConfig =>
    match argv with
    | _ :: domain :: _ =>
      simp only [Invocation.main, mainWalkConfig, newHandle_eq, Invocation.request]
      rfl
    | [] | [_] => rfl

/-! ## What is due -/

/-- The groups have each entry under its section, once, and no other sections. -/
structure Lists (past : List Op) (groups : List (CString × List CString)) : Prop where
  sectionsNodup : (groups.map Prod.fst).Nodup
  keysNodup : ∀ group ∈ groups, group.2.Nodup
  nonempty : ∀ group ∈ groups, group.2 ≠ []
  keys : ∀ sect key, (∃ group ∈ groups, group.1 = sect ∧ key ∈ group.2) ↔ (setting past sect key).isSome

def Request.Due (null : CString) (past : List Op) (printed : Bytes) : Request → Prop
  | .set sect keyname setting => printed = settingText sect keyname setting
  | .get sect keyname => printed = settingText sect keyname ((setting past sect keyname).getD null)
  | .walk => ∃ listed, Lists past listed ∧
    printed = listing listed (total listed) listed.length ↑(total listed / listed.length)

/-- A process that is not killed complains about its arguments, or prints what is due. -/
def Invocation.Due (null : CString) (past : List Op) (invocation : Invocation) (output : Option Output) : Prop :=
  ∀ out, output = some out →
    match invocation.request with
    | none => out = ⟨usageText null invocation.tool.arguments invocation.argv, -1⟩
    | some (_, request) => out.status = 0 ∧ request.Due null past out.printed

def Invocation.ops (invocation : Invocation) : List Op :=
  match invocation.request with
  | none => []
  | some (_, request) => request.ops

/-- The session of a process that opens a handle. -/
def Invocation.transaction (invocation : Invocation) : Option Transaction :=
  invocation.request.map fun asked => ⟨⟨asked.2.ops, invocation.world⟩, invocation.count⟩

/-- Each process has printed what is due after those before it that were published. -/
def AllDue (null : CString) (past : List Op) : List Invocation → List (Option Output × Bool) → Prop
  | [], [] => True
  | invocation :: rest, (output, published) :: others =>
    invocation.Due null past output ∧ AllDue null (committed past invocation.ops published) rest others
  | _, _ => False

/-- Every section has an entry. -/
def Filled (store : Store CString CString CString) : Prop :=
  ∀ sect, (store sect).isSome → ∃ key, (store.get sect key).isSome

theorem lists_groups {past : List Op} {h : Handle T}
    (held : entries (view h.kf) = replay (fun _ => none) (writes past)) (filled : Filled (view h.kf)) :
    Lists past (groups h) := by
  have found := get_setting held
  refine ⟨?_, ?_, ?_, fun sect key => ?_⟩
  · rw [groups, List.map_map]
    exact (List.map_id _).symm ▸ collected_nodup h.kf.sections
  · intro group member
    obtain ⟨sect, _, rfl⟩ := List.mem_map.mp member
    exact getKeys_nodup h sect
  · intro group member
    obtain ⟨sect, inSections, rfl⟩ := List.mem_map.mp member
    obtain ⟨key, present⟩ := filled sect ((mem_getSections h sect).mp inSections)
    exact List.ne_nil_of_mem ((mem_getKeys h sect key).mpr present)
  · rw [← found]
    constructor
    · rintro ⟨group, member, rfl, inKeys⟩
      obtain ⟨sect, _, rfl⟩ := List.mem_map.mp member
      exact (mem_getKeys h sect key).mp inKeys
    · intro present
      obtain ⟨value, entry⟩ := Option.isSome_iff_exists.mp present
      have inSections := (mem_getSections h sect).mpr (Store.isSome_of_get entry)
      exact ⟨_, List.mem_map_of_mem inSections, rfl, (mem_getKeys h sect key).mpr present⟩

/-- There are no more entries than operations. -/
theorem total_le {past : List Op} {h : Handle T} (held : entries (view h.kf) = replay (fun _ => none) (writes past)) :
    total (groups h) ≤ past.length := by
  have count : total (groups h) = (walked h).length := by
    rw [walked, List.length_flatMap, total, groups, List.map_map]
    simp [Function.comp_def]
  have among : walked h ⊆ (writes past).map Prod.fst := by
    rintro ⟨sect, key⟩ member
    have present := (mem_walked h sect key).mp member
    rw [get_setting held, setting] at present
    by_contra absent
    rw [latest_eq_none fun left written => absent (List.mem_map.mpr ⟨_, written, rfl⟩)] at present
    cases present
  rw [count]
  calc (walked h).length
      ≤ ((writes past).map Prod.fst).length := ((walked_nodup h).subperm among).length_le
    _ = (writes past).length := List.length_map _
    _ ≤ past.length := List.length_filterMap_le _ _

theorem length_groups_le {past : List Op} {groups : List (CString × List CString)} (lists : Lists past groups) :
    groups.length ≤ total groups := by
  have each : ∀ count ∈ groups.map fun group => group.2.length, 1 ≤ count := by
    intro count member
    obtain ⟨group, inGroups, rfl⟩ := List.mem_map.mp member
    exact List.length_pos_iff.mpr (lists.nonempty group inGroups)
  have bound := List.length_le_sum_of_one_le _ each
  rwa [List.length_map] at bound

theorem request_due (null : CString) {past : List Op} (few : past.length < 2 ^ 31) {h : Handle T}
    (held : entries (view h.kf) = replay (fun _ => none) (writes past)) (filled : Filled (view h.kf))
    (request : Request) : request.Due null past (request.text null (performAll h request.ops).1) := by
  cases request with
  | set sect keyname setting => rfl
  | get sect keyname =>
    show settingText sect keyname ((keyfileGetString h.kf sect keyname none).2.getD null) = _
    rw [keyfileGetString_eq, get_setting held]
    cases setting past sect keyname <;> rfl
  | walk =>
    have lists := lists_groups held filled
    have entries := Nat.lt_of_le_of_lt (total_le held) few
    exact ⟨groups h, lists, walkText_small entries (Nat.lt_of_le_of_lt (length_groups_le lists) entries)⟩

theorem request_filled (request : Request) {h : Handle T} (filled : Filled (view h.kf)) :
    Filled (view (performAll h request.ops).1.kf) := by
  cases request with
  | set sect keyname setting =>
    show Filled (view (keyfileSetString h.kf sect keyname setting).1)
    rw [view_keyfileSetString]
    intro other present
    rcases (Store.isSome_set ..).mp present with rfl | before
    · exact ⟨keyname, by simp [Store.get_set]⟩
    · obtain ⟨key, old⟩ := filled other before
      refine ⟨key, ?_⟩
      rw [Store.get_set]
      split
      · rfl
      · exact old
  | get sect keyname => exact filled
  | walk => exact filled

/-! ## Runs of processes -/

/-- The file holds what has been published, in no other sections. -/
structure Standing (past : List Op) (store : Store CString CString CString) : Prop where
  current : Current past store
  filled : Filled store

theorem standing_empty : Standing [] (.empty : Store CString CString CString) :=
  ⟨current_empty, fun _ present => by cases present⟩

variable {env : Environment} {domain loc : CString}

theorem due_usage (null : CString) (past : List Op) {invocation : Invocation} (asked : invocation.request = none)
    (disk : Disk CString) :
    invocation.Due null past (usage null invocation.tool.arguments invocation.argv disk).output := by
  intro out ended
  cases ended
  rw [asked]

theorem due_unref (null : CString) {past : List Op} {invocation : Invocation} {request : Request}
    (asked : invocation.request = some (domain, request)) (h : Handle T) {printed : Bytes}
    (due : request.Due null past printed) (disk : Disk CString) :
    invocation.Due null past (unref h printed invocation disk).output := by
  intro out ended
  rw [asked]
  unfold unref at ended
  dsimp only at ended
  split at ended
  · cases ended
    exact ⟨rfl, due⟩
  · cases ended

/-- After an atomic save the file holds what has been published by then. -/
theorem standing_killed {past : List Op} {self : Handle T} (room : Room self.loc) {disk : Disk CString}
    (standing : Standing past (view self.kf)) (opened : view self.kf = loadFile (disk.content self.loc))
    (request : Request) {world : World} {count : Nat} (atomic : Atomic (performAll self request.ops).1 world disk count)
    (ok : published (performAll self request.ops).1 world count → ∀ op ∈ request.ops, op.Ok) :
    Standing (committed past request.ops (published (performAll self request.ops).1 world count))
      (loadFile ((killed (performAll self request.ops).1 world disk count).content self.loc)) := by
  refine ⟨killed_current room standing.current opened atomic ok, ?_⟩
  rw [killed_load room opened standing.current.representable atomic ok]
  split
  · exact request_filled request standing.filled
  · exact standing.filled

theorem length_committed_le (past : List Op) (request : Request) (published : Bool) :
    (committed past request.ops published).length ≤ past.length + 1 := by
  have one : request.ops.length ≤ 1 := by cases request <;> simp [Request.ops]
  unfold committed
  split
  · rw [List.length_append]
    omega
  · omega

theorem runTools_total_correct (null : CString) (path : configPath env domain = some loc) (room : Room loc)
    {past : List Op} {invocations : List Invocation} {disk : Disk CString}
    (domains : ∀ invocation ∈ invocations, ∀ asked, invocation.request = some asked → asked.1 = domain)
    (few : past.length + invocations.length < 2 ^ 31)
    (sound : Sound T env domain (invocations.filterMap Invocation.transaction) disk)
    (standing : Standing past (loadFile (disk.content loc))) :
    ∃ after done, runTools T null env invocations disk = some (after, done) ∧ AllDue null past invocations done := by
  induction invocations generalizing past disk with
  | nil => exact ⟨disk, [], rfl, trivial⟩
  | cons invocation rest ih =>
    have others := fun other member => domains other (List.mem_cons_of_mem _ member)
    rw [List.length_cons] at few
    cases asked : invocation.request with
    | none =>
      have silent : invocation.transaction = none := by rw [Invocation.transaction, asked]; rfl
      rw [List.filterMap_cons_none silent] at sound
      obtain ⟨after, done, executed, due⟩ := ih others (by omega) sound standing
      refine ⟨after, (_, false) :: done, ?_, due_usage null past asked disk, ?_⟩
      · rw [runTools, main_eq, asked]
        simp only [Option.bind_some]
        rw [usage, executed]
        rfl
      · exact due
    | some pair =>
      obtain ⟨named, request⟩ := pair
      obtain rfl : named = domain := domains invocation List.mem_cons_self _ asked
      have asking : invocation.transaction = some ⟨⟨request.ops, invocation.world⟩, invocation.count⟩ := by
        rw [Invocation.transaction, asked]
        rfl
      have ops : invocation.ops = request.ops := by rw [Invocation.ops, asked]
      rw [List.filterMap_cons_some asking] at sound
      obtain ⟨self, opened, rfl, loaded⟩ := mcsKeyfileNew_total_correct (T := T) path disk
      obtain ⟨atomic, ok, soundRest⟩ := sound self opened
      rw [← loaded] at standing
      have fewer : (committed past request.ops
          (published (performAll self request.ops).1 invocation.world invocation.count)).length + rest.length < 2 ^ 31 := by
        have bound := length_committed_le past request
          (published (performAll self request.ops).1 invocation.world invocation.count)
        omega
      obtain ⟨after, done, executed, due⟩ :=
        ih others fewer soundRest (standing_killed room standing loaded request atomic ok)
      have printed := request_due null (by omega) standing.current.entries standing.filled request
      refine ⟨after, (_, published (performAll self request.ops).1 invocation.world invocation.count) :: done, ?_,
        due_unref null asked (performAll self request.ops).1 printed disk, ?_⟩
      · rw [runTools, main_eq, asked]
        simp only [opened, Option.map_some, Option.bind_some]
        rw [unref, executed]
        rfl
      · rw [ops]
        exact due

/-- Whatever processes of the tools are run on a configuration, one after the other, with
    any calls of their saves failing and any of them killed while they save, as long as
    each save is atomic: each process prints what the published ones before it have set. -/
theorem tools_total_correct (null : CString) (path : configPath env domain = some loc) (room : Room loc)
    (disk : Disk CString) (absent : disk.content loc = none) (invocations : List Invocation)
    (domains : ∀ invocation ∈ invocations, ∀ asked, invocation.request = some asked → asked.1 = domain)
    (few : invocations.length < 2 ^ 31)
    (sound : Sound T env domain (invocations.filterMap Invocation.transaction) disk) :
    ∃ after done, runTools T null env invocations disk = some (after, done) ∧ AllDue null [] invocations done := by
  apply runTools_total_correct null path room domains (by simpa using few) sound
  rw [absent]
  exact standing_empty

/-- An entry is set; the configuration is walked by a process that cannot open its
    temporary file; and an entry is asked for without naming it. -/
def threeInvocations : List Invocation :=
  [⟨.setconfval, [nameA, nameB, nameA, nameA, nameB], calm 4096, 100⟩,
    ⟨.walkConfig, [nameA, nameB], ⟨fun _ => 0, 4096, fun _ => ⟨false, 0, 0, []⟩⟩, 0⟩,
    ⟨.getconfval, [nameA, nameB], calm 4096, 0⟩]

theorem threeInvocations_sound :
    Sound (Assoc false CString) directoryA nameB (threeInvocations.filterMap Invocation.transaction) .empty := by
  intro first opened
  refine ⟨?_, ?_, fun second _ => ⟨.inl rfl, ?_, trivial⟩⟩
  · rw [mcsKeyfileNew, configPath_directoryA] at opened
    cases opened
    exact ⟨fun _ _ => rfl, .inl rfl⟩
  · intro _ op member sect key value writes
    have same : op = .setString nameA nameA nameB := List.mem_singleton.mp member
    subst same
    cases writes
    exact ⟨sectionOk_nameA, entryOk_nameA_nameB⟩
  · intro never
    cases never

/-- The walk lists the entry that was set. -/
theorem tools_total_correct_three : ∃ after done,
    runTools (Assoc false CString) nameA directoryA threeInvocations .empty = some (after, done) ∧
      AllDue nameA [] threeInvocations done := by
  refine tools_total_correct nameA configPath_directoryA room_pathAB .empty rfl threeInvocations ?_ (by decide)
    threeInvocations_sound
  intro invocation member asked request
  simp only [threeInvocations, List.mem_cons, List.not_mem_nil, or_false] at member
  rcases member with rfl | rfl | rfl <;> cases request <;> rfl

end Mcs.Tools
