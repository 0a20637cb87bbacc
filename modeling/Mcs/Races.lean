import Mcs.Files
import Mcs.Histories

/-!
Two processes that replace the same file at the same time, through the same
temporary name (`saveSteps`), with their system calls in any order. Whether the
file is there at the end depends on the unlinks only (`present_iff`); what is in
it can be said where neither process opens the temporary file while the other
one still writes (`content_of_undisturbed`).
-/
namespace Mcs.Races
open Mcs.Strings (Bytes)
open Mcs.Files Mcs.Histories

variable {Path : Type}

/-- A process: the calls that it has still to make, and its open file. -/
structure Proc (Path : Type) where
  todo : List (Sys Path)
  fd : Option Fd

structure Race (Path : Type) where
  disk : Disk Path
  proc : Side → Proc Path

def Race.start (disk : Disk Path) (programs : Side → List (Sys Path)) : Race Path :=
  ⟨disk, fun who => ⟨programs who, none⟩⟩

def Race.Finished (st : Race Path) : Prop := ∀ who, (st.proc who).todo = []

/-- The next call of a process opens the name while the other one, which has opened
    a file, has bytes left to write. -/
def Race.Intrudes (tmp : Path) (st : Race Path) (who : Side) : Prop :=
  (st.proc who).todo.head? = some (.openTrunc tmp) ∧
    (st.proc who.other).fd ≠ none ∧ written (st.proc who.other).todo ≠ []

/-- The next call of a process unlinks the name while it leads to its own file. -/
def Race.Withdraws (loc : Path) (st : Race Path) (who : Side) : Prop :=
  (st.proc who).todo.head? = some (.unlink loc) ∧ st.disk.dir loc ≠ none ∧
    st.disk.dir loc = (st.proc who).fd.map Fd.ino

/-! ## Phases of one process -/

/-- How far a process is, with the number of its file. -/
inductive Phase (Path : Type) where
  | idle
  | writing (ino : Nat) (printed : Bytes) (rest : List (Sys Path))
  | closed (ino : Nat)
  | unlinked (ino : Nat)
  | renamed (ino : Nat)

def Phase.ino : Phase Path → Option Nat
  | .idle => none
  | .writing ino _ _ => some ino
  | .closed ino => some ino
  | .unlinked ino => some ino
  | .renamed ino => some ino

/-- The file of a process that has opened it and not renamed it yet. -/
def Phase.pending : Phase Path → Option Nat
  | .writing ino _ _ => some ino
  | .closed ino => some ino
  | .unlinked ino => some ino
  | _ => none

/-- What the process has written of its text, and what it has still to write. -/
def Phase.printed (text : Bytes) : Phase Path → Bytes
  | .idle => []
  | .writing _ printed _ => printed
  | _ => text

def Phase.left : Phase Path → Bytes
  | .writing _ _ rest => written rest
  | _ => []

/-- The calls that publish a file. -/
def publish (tmp loc : Path) : List (Sys Path) := [.close, .unlink loc, .rename tmp loc]

/-- The process in each phase of its program. -/
def Phase.proc (tmp loc : Path) (body : List (Sys Path)) : Phase Path → Proc Path
  | .idle => ⟨saveSteps tmp loc body, none⟩
  | .writing ino printed rest => ⟨rest ++ publish tmp loc, some ⟨ino, printed.length, true⟩⟩
  | .closed ino => ⟨[.unlink loc, .rename tmp loc], some ⟨ino, (written body).length, false⟩⟩
  | .unlinked ino => ⟨[.rename tmp loc], some ⟨ino, (written body).length, false⟩⟩
  | .renamed ino => ⟨[], some ⟨ino, (written body).length, false⟩⟩

/-- What is written and what is left of the body make up the whole. -/
def Phase.Ok (body : List (Sys Path)) : Phase Path → Prop
  | .writing _ printed rest => (∀ call ∈ rest, call.Quiet) ∧ printed ++ written rest = written body
  | _ => True

/-! ## Where the names lead -/

/-- Where the names lead, as one process sees it. A file that it has opened and not
    renamed has the temporary name, unless it shares the file and the other process
    has renamed it already. What it has renamed lies at the target, unless the other
    process is about to put its own file there, or has done so. -/
structure Placed (tmp loc : Path) (dir : Path → Option Nat) (mine theirs : Phase Path) : Prop where
  pending : ∀ ino, mine.pending = some ino →
    dir tmp = some ino ∨ (theirs = .renamed ino ∧ dir loc = some ino ∧ dir tmp = none)
  renamed : ∀ ino, mine = .renamed ino → dir loc = some ino ∨
    (∃ other, theirs = .unlinked other ∧ dir tmp = some other) ∨ ∃ other, theirs = .renamed other ∧ dir loc = some other

/-- The target is gone, and so is every file that could get its name. -/
structure Gone (tmp loc : Path) (dir : Path → Option Nat) (mine theirs : Phase Path) : Prop where
  target : dir loc = none
  temporary : dir tmp = none
  mine : ∃ ino, mine = .unlinked ino ∨ mine = .renamed ino
  theirs : ∃ ino, theirs = .unlinked ino ∨ theirs = .renamed ino

section
variable {tmp loc : Path} {mine mine' theirs : Phase Path}

/-- Calls that touch no name, while the file is open. -/
theorem placed_still {dir : Path → Option Nat} (placed : Placed tmp loc dir mine theirs)
    (placedOther : Placed tmp loc dir theirs mine) (pending : mine'.pending = mine.pending)
    (busy : ∀ ino, mine ≠ .unlinked ino ∧ mine ≠ .renamed ino) (still : ∀ ino, mine' ≠ .renamed ino) :
    Placed tmp loc dir mine' theirs ∧ Placed tmp loc dir theirs mine' := by
  refine ⟨⟨fun ino here => placed.pending ino (pending ▸ here), fun ino here => absurd here (still ino)⟩,
    ⟨fun ino here => .inl ?_, fun ino here => .inl ?_⟩⟩
  · exact (placedOther.pending ino here).elim id fun moved => absurd moved.1 (busy ino).2
  · rcases placedOther.renamed ino here with same | ⟨other, moved, _⟩ | ⟨other, moved, _⟩
    · exact same
    · exact absurd moved (busy other).1
    · exact absurd moved (busy other).2

theorem Gone.symm {dir : Path → Option Nat} (gone : Gone tmp loc dir mine theirs) : Gone tmp loc dir theirs mine :=
  ⟨gone.target, gone.temporary, gone.theirs, gone.mine⟩

end

/-! ## What the files hold -/

/-- What is in the file of a process: what it has written, or what the other one has
    written if the two share it and this one writes no more. -/
structure Filled (disk : Disk Path) (text textOther : Bytes) (mine theirs : Phase Path) : Prop where
  file : ∀ ino, mine.ino = some ino → disk.data ino = mine.printed text ∨
    (theirs.ino = some ino ∧ mine.left = [] ∧ disk.data ino = theirs.printed textOther)
  alone : ∀ ino other, mine.ino = some ino → theirs.ino = some other → mine.left = [] ∨ theirs.left = []

section
variable {disk disk' : Disk Path} {mine mine' theirs : Phase Path} {text textOther : Bytes}

/-- Calls that write nothing. -/
theorem filled_still (filled : Filled disk text textOther mine theirs)
    (filledOther : Filled disk textOther text theirs mine) (data : disk'.data = disk.data)
    (ino : mine'.ino = mine.ino) (printed : mine'.printed text = mine.printed text) (left : mine'.left = mine.left) :
    Filled disk' text textOther mine' theirs ∧ Filled disk' textOther text theirs mine' := by
  refine ⟨⟨fun number here => ?_, fun number other here there => ?_⟩,
    ⟨fun number here => ?_, fun number other here there => ?_⟩⟩
  · rw [data, printed, left]
    exact filled.file number (ino ▸ here)
  · rw [left]
    exact filled.alone number other (ino ▸ here) there
  · rw [data, printed, ino]
    exact filledOther.file number here
  · rw [left]
    exact filledOther.alone number other here (ino ▸ there)

end

/-! ## Both processes -/

section
variable {tmp loc : Path} {body : Side → List (Sys Path)}

/-- Each process is in a phase of its program. -/
def Tracks (tmp loc : Path) (body : Side → List (Sys Path)) (phase : Side → Phase Path) (st : Race Path) : Prop :=
  ∀ who, st.proc who = (phase who).proc tmp loc (body who) ∧ (phase who).Ok (body who)

/-- What holds between the two processes, once the phase of one is another. -/
theorem between_update (holds : Side → Phase Path → Phase Path → Prop) {phase : Side → Phase Path} {who : Side}
    {after : Phase Path} (mine : holds who after (phase who.other)) (theirs : holds who.other (phase who.other) after)
    (side : Side) : holds side (Function.update phase who after side) (Function.update phase who after side.other) := by
  rcases Side.eq_or who side with rfl | rfl
  · rw [Function.update_self, Function.update_of_ne (Side.other_ne side)]
    exact mine
  · rw [Side.other_other, Function.update_self, Function.update_of_ne (Side.other_ne who)]
    exact theirs

theorem withdraws_iff {phase : Side → Phase Path} {st : Race Path} (tracks : Tracks tmp loc body phase st) (who : Side) :
    st.Withdraws loc who ↔ ∃ ino, phase who = .closed ino ∧ st.disk.dir loc = some ino := by
  obtain ⟨proc, ok⟩ := tracks who
  cases here : phase who with
  | idle => simp [Race.Withdraws, proc, here, Phase.proc, saveSteps]
  | writing ino printed rest =>
    rw [here] at ok
    cases rest with
    | nil => simp [Race.Withdraws, proc, here, Phase.proc, publish]
    | cons call rest =>
      have quiet := ok.1 call List.mem_cons_self
      cases call <;> simp_all [Race.Withdraws, Phase.proc, Sys.Quiet]
  | closed ino =>
    simp only [Race.Withdraws, proc, here, Phase.proc, List.head?_cons, true_and, Option.map_some, Phase.closed.injEq,
      exists_eq_left']
    exact ⟨fun own => own.2, fun named => ⟨by rw [named]; exact Option.some_ne_none ino, named⟩⟩
  | unlinked ino => simp [Race.Withdraws, proc, here, Phase.proc]
  | renamed ino => simp [Race.Withdraws, proc, here, Phase.proc]

/-- A process that opens the file without intruding finds the other one out of it, or
    done with its writing. -/
theorem not_intrudes {phase : Side → Phase Path} {st : Race Path} (tracks : Tracks tmp loc body phase st) {who : Side}
    (intrudes : ¬ st.Intrudes tmp who) (idle : phase who = .idle) :
    (phase who.other).ino = none ∨ (phase who.other).left = [] := by
  obtain ⟨proc, _⟩ := tracks who
  obtain ⟨procOther, _⟩ := tracks who.other
  have opens : (st.proc who).todo.head? = some (.openTrunc tmp) := by
    rw [proc, idle]
    rfl
  cases there : phase who.other with
  | idle => exact .inl rfl
  | writing ino printed rest =>
    right
    by_contra more
    refine intrudes ⟨opens, ?_, ?_⟩
    · rw [procOther, there]
      exact nofun
    · rw [procOther, there, Phase.proc, written_append]
      exact fun nil => more (List.append_eq_nil_iff.mp nil).1
  | closed ino => exact .inr rfl
  | unlinked ino => exact .inr rfl
  | renamed ino => exact .inr rfl

/-- A process that has finished has renamed its file. -/
theorem finished_renamed {phase : Side → Phase Path} {st : Race Path} (tracks : Tracks tmp loc body phase st)
    (finished : st.Finished) (who : Side) : ∃ ino, phase who = .renamed ino := by
  have done := finished who
  rw [(tracks who).1] at done
  cases here : phase who with
  | idle => rw [here] at done; cases done
  | writing ino printed rest =>
    rw [here, Phase.proc] at done
    cases (List.append_eq_nil_iff.mp done).2
  | closed ino => rw [here] at done; cases done
  | unlinked ino => rw [here] at done; cases done
  | renamed ino => exact ⟨ino, rfl⟩

end

/-! ## Calls -/

variable [DecidableEq Path]

instance (tmp : Path) (st : Race Path) (who : Side) : Decidable (st.Intrudes tmp who) :=
  inferInstanceAs (Decidable (_ ∧ _ ∧ _))

instance (loc : Path) (st : Race Path) (who : Side) : Decidable (st.Withdraws loc who) :=
  inferInstanceAs (Decidable (_ ∧ _ ∧ _))

/-- One call of one process; none where it has finished. -/
def Race.step (st : Race Path) (who : Side) : Option (Race Path) :=
  match (st.proc who).todo with
  | [] => none
  | call :: rest =>
    some ⟨(call.exec st.disk (st.proc who).fd).1,
      Function.update st.proc who ⟨rest, (call.exec st.disk (st.proc who).fd).2⟩⟩

/-- All that one call of a process can do. -/
inductive Move (tmp loc : Path) (body : List (Sys Path)) : Disk Path → Phase Path → Disk Path → Phase Path → Prop
  | opens (disk : Disk Path) :
      Move tmp loc body disk .idle (disk.openTrunc tmp).1 (.writing (disk.openTrunc tmp).2 [] body)
  | writes (disk : Disk Path) (ino : Nat) (printed bytes : Bytes) (rest : List (Sys Path)) :
      Move tmp loc body disk (.writing ino printed (.write bytes :: rest))
        (disk.writeAt ino printed.length bytes) (.writing ino (printed ++ bytes) rest)
  | syncs (disk : Disk Path) (ino : Nat) (printed : Bytes) (rest : List (Sys Path)) :
      Move tmp loc body disk (.writing ino printed (.fsync :: rest)) (disk.sync ino) (.writing ino printed rest)
  | closes (disk : Disk Path) (ino : Nat) :
      Move tmp loc body disk (.writing ino (written body) []) disk (.closed ino)
  | unlinks (disk : Disk Path) (ino : Nat) : Move tmp loc body disk (.closed ino) (disk.unlink loc) (.unlinked ino)
  | renames (disk : Disk Path) (ino : Nat) :
      Move tmp loc body disk (.unlinked ino) (disk.rename tmp loc) (.renamed ino)

theorem step_moves {tmp loc : Path} {body : List (Sys Path)} (quiet : ∀ call ∈ body, call.Quiet)
    {st next : Race Path} {who : Side} {phase : Phase Path} (here : st.proc who = phase.proc tmp loc body)
    (ok : phase.Ok body) (executed : st.step who = some next) :
    ∃ after, Move tmp loc body st.disk phase next.disk after ∧ after.Ok body ∧
      next.proc = Function.update st.proc who (after.proc tmp loc body) := by
  cases phase with
  | idle =>
    simp only [Race.step, here, Phase.proc, saveSteps, Sys.exec, Option.some.injEq] at executed
    subst executed
    exact ⟨_, .opens st.disk, ⟨quiet, rfl⟩, rfl⟩
  | writing ino printed rest =>
    obtain ⟨quietRest, whole⟩ := ok
    cases rest with
    | nil =>
      obtain rfl : printed = written body := by rw [← whole, written_nil, List.append_nil]
      simp only [Race.step, here, Phase.proc, publish, List.nil_append, Sys.exec, Option.some.injEq] at executed
      subst executed
      exact ⟨_, .closes st.disk ino, trivial, rfl⟩
    | cons call rest =>
      have later : ∀ call ∈ rest, call.Quiet := fun call member => quietRest call (List.mem_cons_of_mem _ member)
      cases call with
      | write bytes =>
        simp only [Race.step, here, Phase.proc, List.cons_append, Sys.exec, Option.some.injEq] at executed
        subst executed
        refine ⟨_, .writes st.disk ino printed bytes rest, ⟨later, ?_⟩, ?_⟩
        · rw [List.append_assoc, ← written_write, whole]
        · rw [Phase.proc, List.length_append]
      | fsync =>
        simp only [Race.step, here, Phase.proc, List.cons_append, Sys.exec, Option.some.injEq] at executed
        subst executed
        exact ⟨_, .syncs st.disk ino printed rest, ⟨later, whole⟩, rfl⟩
      | openTrunc path => exact (quietRest _ List.mem_cons_self).elim
      | close => exact (quietRest _ List.mem_cons_self).elim
      | unlink path => exact (quietRest _ List.mem_cons_self).elim
      | rename old new => exact (quietRest _ List.mem_cons_self).elim
  | closed ino =>
    simp only [Race.step, here, Phase.proc, Sys.exec, Option.some.injEq] at executed
    subst executed
    exact ⟨_, .unlinks st.disk ino, trivial, rfl⟩
  | unlinked ino =>
    simp only [Race.step, here, Phase.proc, Sys.exec, Option.some.injEq] at executed
    subst executed
    exact ⟨_, .renames st.disk ino, trivial, rfl⟩
  | renamed ino =>
    simp only [Race.step, here, Phase.proc, reduceCtorEq] at executed

section
variable {tmp loc : Path} {body : List (Sys Path)} {disk disk' : Disk Path} {mine mine' theirs : Phase Path}

/-- One call keeps the names in place, unless it unlinks the process's own file. -/
theorem move_placed (differ : tmp ≠ loc) (move : Move tmp loc body disk mine disk' mine')
    (stays : ∀ ino, mine = .closed ino → disk.dir loc ≠ some ino)
    (placed : Placed tmp loc disk.dir mine theirs) (placedOther : Placed tmp loc disk.dir theirs mine) :
    Placed tmp loc disk'.dir mine' theirs ∧ Placed tmp loc disk'.dir theirs mine' := by
  cases move with
  | opens =>
    obtain ⟨named, _, others, _⟩ := openTrunc_spec disk tmp
    refine ⟨⟨?_, nofun⟩, ⟨fun ino pending => .inl ?_, fun ino renamed => .inl ?_⟩⟩
    · rintro ino ⟨⟩
      exact .inl named
    · rcases placedOther.pending ino pending with held | ⟨gone, _⟩
      · rw [(openTrunc_of_some held).2, held]
      · cases gone
    · rw [others loc (Ne.symm differ)]
      exact (placedOther.renamed ino renamed).elim id nofun
  | writes ino printed bytes rest => exact placed_still placed placedOther rfl (fun _ => ⟨nofun, nofun⟩) nofun
  | syncs ino printed rest => exact placed_still placed placedOther rfl (fun _ => ⟨nofun, nofun⟩) nofun
  | closes ino => exact placed_still placed placedOther rfl (fun _ => ⟨nofun, nofun⟩) nofun
  | unlinks ino =>
    have kept : (disk.unlink loc).dir tmp = disk.dir tmp := Function.update_of_ne differ _ _
    have held : disk.dir tmp = some ino :=
      (placed.pending ino rfl).elim id fun moved => absurd moved.2.1 (stays ino rfl)
    refine ⟨⟨?_, nofun⟩, ⟨fun other pending => .inl ?_, fun other _ => .inr (.inl ⟨ino, rfl, ?_⟩)⟩⟩
    · rintro other ⟨⟩
      exact .inl (kept.trans held)
    · rw [kept]
      exact (placedOther.pending other pending).elim id nofun
    · rw [kept, held]
  | renames ino =>
    rcases placed.pending ino rfl with held | ⟨moved, named, absent⟩
    · have target : (disk.rename tmp loc).dir loc = some ino := (renamed_apply held differ loc).trans (if_pos rfl)
      have temporary : (disk.rename tmp loc).dir tmp = none :=
        ((renamed_apply held differ tmp).trans (if_neg differ)).trans (if_pos rfl)
      refine ⟨⟨nofun, ?_⟩, ⟨fun other pending => .inr ?_, fun other _ => .inr (.inr ⟨ino, rfl, target⟩)⟩⟩
      · rintro other ⟨⟩
        exact .inl target
      · have same : disk.dir tmp = some other := (placedOther.pending other pending).elim id nofun
        rw [held] at same
        cases same
        exact ⟨rfl, target, temporary⟩
    · -- The other process has renamed the shared file; there is nothing left to rename.
      subst moved
      have still : (disk.rename tmp loc).dir = disk.dir := renamed_of_none absent loc
      rw [still]
      refine ⟨⟨nofun, ?_⟩, ⟨nofun, ?_⟩⟩
      · rintro other ⟨⟩
        exact .inl named
      · rintro other ⟨⟩
        exact .inl named

/-- Unlinking its own file, a process finds its temporary name gone. -/
theorem move_withdraws (differ : tmp ≠ loc) {ino : Nat} (move : Move tmp loc body disk (.closed ino) disk' mine')
    (placed : Placed tmp loc disk.dir (.closed ino) theirs) (own : disk.dir loc = some ino) :
    Gone tmp loc disk'.dir mine' theirs := by
  cases move with
  | unlinks =>
    rcases placed.pending ino rfl with held | ⟨moved, _, absent⟩
    · exact absurd (disk.single tmp loc ino held own) differ
    · refine ⟨by simp [Disk.unlink], ?_, ⟨ino, .inl rfl⟩, ⟨ino, .inr moved⟩⟩
      simp [Disk.unlink, differ, absent]

theorem move_gone (move : Move tmp loc body disk mine disk' mine') (gone : Gone tmp loc disk.dir mine theirs) :
    Gone tmp loc disk'.dir mine' theirs := by
  obtain ⟨ino, unlinked | renamed⟩ := gone.mine
  · subst unlinked
    cases move with
    | renames =>
      have still : (disk.rename tmp loc).dir = disk.dir := renamed_of_none gone.temporary loc
      exact ⟨by rw [still]; exact gone.target, by rw [still]; exact gone.temporary, ⟨ino, .inr rfl⟩, gone.theirs⟩
  · subst renamed
    cases move

end

section
variable {tmp loc : Path} {body : List (Sys Path)} {disk disk' : Disk Path} {mine mine' theirs : Phase Path}
  {textOther : Bytes}

/-- One call keeps the files in order, unless it opens the file while the other
    process writes. -/
theorem move_filled (move : Move tmp loc body disk mine disk' mine') (ok : mine.Ok body)
    (undisturbed : mine = .idle → theirs.ino = none ∨ theirs.left = [])
    (filled : Filled disk (written body) textOther mine theirs)
    (filledOther : Filled disk textOther (written body) theirs mine) :
    Filled disk' (written body) textOther mine' theirs ∧ Filled disk' textOther (written body) theirs mine' := by
  cases move with
  | opens =>
    obtain ⟨_, empty, _, kept⟩ := openTrunc_spec disk tmp
    have quiet : ∀ other, theirs.ino = some other → theirs.left = [] := fun other opened =>
      (undisturbed rfl).elim (fun none => by rw [none] at opened; cases opened) id
    refine ⟨⟨?_, fun _ other _ there => .inr (quiet other there)⟩,
      ⟨fun other here => ?_, fun other _ here _ => .inl (quiet other here)⟩⟩
    · rintro ino ⟨⟩
      exact .inl empty
    · by_cases same : other = (disk.openTrunc tmp).2
      · subst same
        exact .inr ⟨rfl, quiet _ here, empty⟩
      · rw [kept other same]
        exact (filledOther.file other here).elim .inl nofun
  | writes ino printed bytes rest =>
    by_cases none : bytes = []
    · subst none
      refine filled_still filled filledOther ?_ rfl (List.append_nil printed) rfl
      simp [Disk.writeAt, overwrite]
    · have writes : (Phase.writing ino printed (.write bytes :: rest)).left ≠ [] := by
        rw [Phase.left, written_write]
        exact fun nil => none (List.append_eq_nil_iff.mp nil).1
      have quiet : ∀ other, theirs.ino = some other → theirs.left = [] := fun other opened =>
        (filled.alone ino other rfl opened).resolve_left writes
      have before : disk.data ino = printed :=
        (filled.file ino rfl).elim id fun shared => absurd shared.2.1 writes
      have data : (disk.writeAt ino printed.length bytes).data =
          Function.update disk.data ino (printed ++ bytes) := by
        simp only [Disk.writeAt, before]
        rw [overwrite_end]
      refine ⟨⟨?_, fun _ other _ there => .inr (quiet other there)⟩,
        ⟨fun other here => ?_, fun other _ here _ => .inl (quiet other here)⟩⟩
      · rintro other ⟨⟩
        rw [data, Function.update_self]
        exact .inl rfl
      · rw [data]
        by_cases same : other = ino
        · subst same
          rw [Function.update_self]
          exact .inr ⟨rfl, quiet _ here, rfl⟩
        · rw [Function.update_of_ne same]
          refine (filledOther.file other here).elim .inl fun shared => absurd ?_ same
          exact (Option.some.inj shared.1).symm
  | syncs ino printed rest => exact filled_still filled filledOther rfl rfl rfl rfl
  | closes ino => exact filled_still filled filledOther rfl rfl rfl rfl
  | unlinks ino => exact filled_still filled filledOther rfl rfl rfl rfl
  | renames ino => exact filled_still filled filledOther rfl rfl rfl rfl

end

/-! ## Runs -/

/-- Somewhere in the run, the next process meets a condition. -/
def Happens (meets : Race Path → Side → Prop) (start : Race Path) (schedule : List Side) : Prop :=
  ∃ before who after st, schedule = before ++ who :: after ∧ run Race.step start before = some st ∧ meets st who

theorem happens_nil (meets : Race Path → Side → Prop) (start : Race Path) : ¬ Happens meets start [] := by
  rintro ⟨before, who, after, st, split, _⟩
  simp at split

theorem happens_cons {meets : Race Path → Side → Prop} {start : Race Path} {who : Side} {rest : List Side} :
    Happens meets start (who :: rest) ↔
      meets start who ∨ ∃ next, start.step who = some next ∧ Happens meets next rest := by
  constructor
  · rintro ⟨before, other, after, st, split, executed, met⟩
    cases before with
    | nil =>
      cases split
      cases executed
      exact .inl met
    | cons first before =>
      cases split
      obtain ⟨next, step, later⟩ := Option.bind_eq_some_iff.mp executed
      exact .inr ⟨next, step, before, other, after, st, rfl, later, met⟩
  · rintro (met | ⟨next, step, before, other, after, st, rfl, later, met⟩)
    · exact ⟨[], who, rest, start, rfl, rfl, met⟩
    · exact ⟨who :: before, other, after, st, rfl, Option.bind_eq_some_iff.mpr ⟨next, step, later⟩, met⟩

/-- Whether it happens can be computed by running the schedule. -/
def decideHappens (meets : Race Path → Side → Prop) [∀ st who, Decidable (meets st who)] :
    (schedule : List Side) → (start : Race Path) → Decidable (Happens meets start schedule)
  | [], start => isFalse (happens_nil meets start)
  | who :: rest, start =>
    match step : start.step who with
    | none => decidable_of_iff (meets start who) (by simp [happens_cons, step])
    | some next =>
      have := decideHappens meets rest next
      decidable_of_iff (meets start who ∨ Happens meets next rest) (by simp [happens_cons, step])

instance (meets : Race Path → Side → Prop) [∀ st who, Decidable (meets st who)] (start : Race Path)
    (schedule : List Side) : Decidable (Happens meets start schedule) := decideHappens meets schedule start

theorem happens_append {meets : Race Path → Side → Prop} {start st : Race Path} {past : List Side} {who : Side}
    (reached : run Race.step start past = some st) :
    Happens meets start (past ++ [who]) ↔ Happens meets start past ∨ meets st who := by
  constructor
  · rintro ⟨before, other, after, found, split, executed, met⟩
    rcases List.eq_nil_or_concat after with rfl | ⟨less, last, rfl⟩
    · obtain ⟨rfl, same⟩ := List.append_inj' split rfl
      cases same
      rw [reached, Option.some.injEq] at executed
      exact .inr (executed ▸ met)
    · rw [List.concat_eq_append, ← List.cons_append, ← List.append_assoc] at split
      obtain ⟨rfl, _⟩ := List.append_inj' split rfl
      exact .inl ⟨before, other, less, found, rfl, executed, met⟩
  · rintro (⟨before, other, after, found, rfl, executed, met⟩ | met)
    · exact ⟨before, other, after ++ [who], found, by simp, executed, met⟩
    · exact ⟨past, who, [], st, rfl, reached, met⟩

section
variable {tmp loc : Path} {body : Side → List (Sys Path)}

theorem tracks_step (quiet : ∀ who, ∀ call ∈ body who, call.Quiet) {phase : Side → Phase Path} {st next : Race Path}
    (tracks : Tracks tmp loc body phase st) {who : Side} (executed : st.step who = some next) :
    ∃ after, Move tmp loc (body who) st.disk (phase who) next.disk after ∧
      Tracks tmp loc body (Function.update phase who after) next := by
  obtain ⟨after, move, ok, procs⟩ := step_moves (quiet who) (tracks who).1 (tracks who).2 executed
  refine ⟨after, move, ?_⟩
  intro side
  rw [procs]
  by_cases same : side = who
  · subst same
    rw [Function.update_self, Function.update_self]
    exact ⟨rfl, ok⟩
  · rw [Function.update_of_ne same, Function.update_of_ne same]
    exact tracks side

/-- What is known of a run so far. -/
structure Known (tmp loc : Path) (body : Side → List (Sys Path)) (start : Race Path) (past : List Side)
    (st : Race Path) (phase : Side → Phase Path) : Prop where
  reached : run Race.step start past = some st
  tracks : Tracks tmp loc body phase st
  placed : ¬ Happens (Race.Withdraws loc) start past →
    ∀ side, Placed tmp loc st.disk.dir (phase side) (phase side.other)
  gone : Happens (Race.Withdraws loc) start past → ∀ side, Gone tmp loc st.disk.dir (phase side) (phase side.other)
  filled : ¬ Happens (Race.Intrudes tmp) start past →
    ∀ side, Filled st.disk (written (body side)) (written (body side.other)) (phase side) (phase side.other)

theorem known_step (differ : tmp ≠ loc) (quiet : ∀ who, ∀ call ∈ body who, call.Quiet) {start st next : Race Path}
    {past : List Side} {phase : Side → Phase Path} (known : Known tmp loc body start past st phase) {who : Side}
    (executed : st.step who = some next) : ∃ phase', Known tmp loc body start (past ++ [who]) next phase' := by
  obtain ⟨after, move, tracks⟩ := tracks_step quiet known.tracks executed
  have reached : run Race.step start (past ++ [who]) = some next := by
    rw [run_append, known.reached, Option.bind_some, run_singleton, executed]
  refine ⟨Function.update phase who after, reached, tracks, ?_, ?_, ?_⟩
  · intro stays
    rw [happens_append known.reached, not_or, withdraws_iff known.tracks] at stays
    have placed := known.placed stays.1
    have other := placed who.other
    rw [Side.other_other] at other
    have both := move_placed differ move (fun ino closed named => stays.2 ⟨ino, closed, named⟩) (placed who) other
    exact between_update (fun _ => Placed tmp loc next.disk.dir) both.1 both.2
  · intro withdrew
    have gone : Gone tmp loc next.disk.dir after (phase who.other) := by
      rw [happens_append known.reached, withdraws_iff known.tracks] at withdrew
      by_cases before : Happens (Race.Withdraws loc) start past
      · exact move_gone move (known.gone before who)
      · obtain ⟨ino, closed, own⟩ := withdrew.resolve_left before
        have placed := known.placed before who
        rw [closed] at placed move
        exact move_withdraws differ move placed own
    exact between_update (fun _ => Gone tmp loc next.disk.dir) gone gone.symm
  · intro apart
    rw [happens_append known.reached, not_or] at apart
    have filled := known.filled apart.1
    have other := filled who.other
    rw [Side.other_other] at other
    have both := move_filled move (known.tracks who).2 (not_intrudes known.tracks apart.2) (filled who) other
    refine between_update (fun side => Filled next.disk (written (body side)) (written (body side.other))) both.1 ?_
    rw [Side.other_other]
    exact both.2

theorem known_run (differ : tmp ≠ loc) (quiet : ∀ who, ∀ call ∈ body who, call.Quiet) {disk : Disk Path}
    {schedule : List Side} {finish : Race Path}
    (executed : run Race.step (Race.start disk fun who => saveSteps tmp loc (body who)) schedule = some finish) :
    ∃ phase, Known tmp loc body (Race.start disk fun who => saveSteps tmp loc (body who)) schedule finish phase := by
  refine run_invariant
    (fun past st => ∃ phase, Known tmp loc body (Race.start disk fun who => saveSteps tmp loc (body who)) past st phase)
    ?_ (fun past st who _ next known step => ?_) executed
  · refine ⟨fun _ => .idle, rfl, fun who => ⟨rfl, trivial⟩, fun _ side => ⟨nofun, nofun⟩, fun withdrew => ?_,
      fun _ side => ⟨nofun, nofun⟩⟩
    exact absurd withdrew (happens_nil _ _)
  · obtain ⟨phase, known⟩ := known
    exact known_step differ quiet known step

section
variable (differ : tmp ≠ loc) (quiet : ∀ who, ∀ call ∈ body who, call.Quiet) {disk : Disk Path} {schedule : List Side}
  {finish : Race Path}
  (executed : run Race.step (Race.start disk fun who => saveSteps tmp loc (body who)) schedule = some finish)
  (finished : finish.Finished)
include differ quiet executed finished

/-- At the end the target leads to the file of one of the processes. -/
theorem target_of_stays
    (stays : ¬ Happens (Race.Withdraws loc) (Race.start disk fun who => saveSteps tmp loc (body who)) schedule) :
    ∃ phase who ino, Known tmp loc body (Race.start disk fun who => saveSteps tmp loc (body who)) schedule finish phase ∧
      phase who = .renamed ino ∧ finish.disk.dir loc = some ino := by
  obtain ⟨phase, known⟩ := known_run differ quiet executed
  obtain ⟨ino, renamed⟩ := finished_renamed known.tracks finished .left
  rcases (known.placed stays .left).renamed ino renamed with named | ⟨other, unlinked, _⟩ | ⟨other, there, named⟩
  · exact ⟨phase, .left, ino, known, renamed, named⟩
  · obtain ⟨number, done⟩ := finished_renamed known.tracks finished (Side.other .left)
    rw [done] at unlinked
    cases unlinked
  · exact ⟨phase, Side.other .left, other, known, there, named⟩

/-- The target is there at the end unless a process unlinked its own file. -/
theorem present_iff : (finish.disk.content loc).isSome ↔
    ¬ Happens (Race.Withdraws loc) (Race.start disk fun who => saveSteps tmp loc (body who)) schedule := by
  constructor
  · intro present withdrew
    obtain ⟨phase, known⟩ := known_run differ quiet executed
    rw [Disk.content, (known.gone withdrew .left).target] at present
    cases present
  · intro stays
    obtain ⟨_, _, ino, _, _, named⟩ := target_of_stays differ quiet executed finished stays
    rw [Disk.content, named]
    show (some _).isSome = true
    rfl

/-- It holds the text of one of them where also neither opened the file while the
    other one was writing it. -/
theorem content_of_undisturbed
    (stays : ¬ Happens (Race.Withdraws loc) (Race.start disk fun who => saveSteps tmp loc (body who)) schedule)
    (apart : ¬ Happens (Race.Intrudes tmp) (Race.start disk fun who => saveSteps tmp loc (body who)) schedule) :
    ∃ who, finish.disk.content loc = some (written (body who)) := by
  obtain ⟨phase, who, ino, known, renamed, named⟩ := target_of_stays differ quiet executed finished stays
  obtain ⟨_, renamedOther⟩ := finished_renamed known.tracks finished who.other
  rw [Disk.content, named, Option.map_some]
  rcases (known.filled apart who).file ino (by rw [renamed]; rfl) with data | ⟨_, _, data⟩
  · exact ⟨who, by rw [data, renamed]; rfl⟩
  · exact ⟨who.other, by rw [data, renamedOther]; rfl⟩

end

end

end Mcs.Races
