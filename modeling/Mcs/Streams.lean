import Mcs.Files

/-!
Buffered output over the system calls of `Files`. What `fprintf` prints waits in a
buffer, of which a prefix goes to the kernel when the buffer fills; `fsync` does
not look at the buffer and `fclose` empties it. How each call ends is the choice
of its environment, one `Outcome` a call.
-/
namespace Mcs.Streams
open Mcs.Strings (Bytes)
open Mcs.Files

variable {Path : Type}

/-- The library calls of a program that saves a file. -/
inductive Call (Path : Type) where
  | fopen (path : Path)
  | fprintf (text : Bytes)
  | fsync
  | fclose
  | unlink (path : Path)
  | rename (old new : Path)
  deriving DecidableEq

/-- How a call ends: whether it does its work at all, how many bytes are missing
    at the end of what it was to pass on, how much of a full buffer it empties and
    where it cuts that into `write` calls. -/
structure Outcome where
  ok : Bool
  lost : Nat
  flush : Nat
  cuts : List Nat

/-- Nothing goes wrong. How buffers are emptied stays open. -/
def Outcome.Fine (outcome : Outcome) : Prop := outcome.ok = true ∧ outcome.lost = 0

def keep (lost : Nat) (bytes : Bytes) : Bytes := bytes.take (bytes.length - lost)

@[simp] theorem keep_zero (bytes : Bytes) : keep 0 bytes = bytes := by simp [keep]

@[simp] theorem keep_length (lost : Nat) (bytes : Bytes) : (keep lost bytes).length = bytes.length - lost := by
  simp [keep]

/-- Bytes handed to the kernel, in pieces. -/
def handOver : List Nat → Bytes → List (Sys Path)
  | [], bytes => [.write bytes]
  | cut :: cuts, bytes => .write (bytes.take cut) :: handOver cuts (bytes.drop cut)

/-- How much leaves a buffer that holds so many bytes: nothing before it is full,
    and always what does not fit. -/
def due (capacity flush held : Nat) : Nat := if held < capacity then 0 else max flush (held - capacity)

/-- The system calls of one library call, and what the buffer holds after it. -/
def Call.issue (capacity : Nat) (outcome : Outcome) (pending : Bytes) : Call Path → List (Sys Path) × Bytes
  | .fopen path => (if outcome.ok then [.openTrunc path] else [], [])
  | .fprintf text =>
    let buffer := pending ++ keep outcome.lost text
    let count := due capacity outcome.flush buffer.length
    (handOver outcome.cuts (buffer.take count), buffer.drop count)
  | .fsync => (if outcome.ok then [.fsync] else [], pending)
  | .fclose => (handOver outcome.cuts (keep outcome.lost pending) ++ [.close], [])
  | .unlink path => (if outcome.ok then [.unlink path] else [], pending)
  | .rename old new => (if outcome.ok then [.rename old new] else [], pending)

/-- The outcomes after the first one. -/
def later (io : Nat → Outcome) : Nat → Outcome := fun index => io (index + 1)

/-- The system calls of a program. -/
def issueAll (capacity : Nat) : (Nat → Outcome) → Bytes → List (Call Path) → List (Sys Path)
  | _, _, [] => []
  | io, pending, call :: rest =>
    (call.issue capacity (io 0) pending).1 ++
      issueAll capacity (later io) (call.issue capacity (io 0) pending).2 rest

/-! ## Printing -/

/-- What the buffer is given of some texts. -/
def accepted : (Nat → Outcome) → List Bytes → Bytes
  | _, [] => []
  | io, text :: rest => keep (io 0).lost text ++ accepted (later io) rest

/-- How many bytes texts of such lengths leave in the buffer. -/
def unflushed (capacity : Nat) : (Nat → Outcome) → Nat → List Nat → Nat
  | _, held, [] => held
  | io, held, length :: rest =>
    let full := held + (length - (io 0).lost)
    unflushed capacity (later io) (full - due capacity (io 0).flush full) rest

theorem handOver_writes (cuts : List Nat) (bytes : Bytes) :
    ∀ call ∈ (handOver cuts bytes : List (Sys Path)), call.IsWrite := by
  induction cuts generalizing bytes with
  | nil => simp [handOver, Sys.IsWrite]
  | cons cut rest ih =>
    intro call member
    rcases List.mem_cons.mp member with rfl | inRest
    · trivial
    · exact ih _ call inRest

@[simp] theorem written_handOver (cuts : List Nat) (bytes : Bytes) :
    written (handOver cuts bytes : List (Sys Path)) = bytes := by
  induction cuts generalizing bytes with
  | nil => simp [handOver, written]
  | cons cut rest ih => simp [handOver, ih]

/-- What one `fprintf` does, and how the program goes on. -/
theorem issueAll_fprintf (capacity : Nat) (io : Nat → Outcome) (pending text : Bytes) (rest : List (Call Path)) :
    ∃ calls left, issueAll capacity io pending (.fprintf text :: rest) =
        calls ++ issueAll capacity (later io) left rest ∧
      (∀ call ∈ calls, call.IsWrite) ∧ written calls ++ left = pending ++ keep (io 0).lost text ∧
      left.length = pending.length + (text.length - (io 0).lost) -
        due capacity (io 0).flush (pending.length + (text.length - (io 0).lost)) := by
  refine ⟨_, _, rfl, handOver_writes _ _, ?_, ?_⟩
  · simp [Call.issue]
  · simp [Call.issue]

/-- Printing only writes; what was accepted is written or waits in the buffer. -/
theorem issueAll_prints (capacity : Nat) (io : Nat → Outcome) (pending : Bytes) (texts : List Bytes)
    (rest : List (Call Path)) :
    ∃ calls left, issueAll capacity io pending (texts.map .fprintf ++ rest) =
        calls ++ issueAll capacity (fun index => io (texts.length + index)) left rest ∧
      (∀ call ∈ calls, call.IsWrite) ∧ written calls ++ left = pending ++ accepted io texts ∧
      left.length = unflushed capacity io pending.length (texts.map List.length) := by
  induction texts generalizing io pending with
  | nil => exact ⟨[], pending, by simp, by simp, by simp [accepted], rfl⟩
  | cons text texts ih =>
    obtain ⟨first, left, start, writes, whole, length⟩ :=
      issueAll_fprintf capacity io pending text (texts.map .fprintf ++ rest)
    obtain ⟨more, last, run, writesMore, wholeMore, lengthLast⟩ := ih (later io) left
    refine ⟨first ++ more, last, ?_, ?_, ?_, ?_⟩
    · rw [List.map_cons, List.cons_append, start, run, List.append_assoc]
      simp only [later, List.length_cons, Nat.add_right_comm]
    · exact List.forall_mem_append.mpr ⟨writes, writesMore⟩
    · rw [written_append, List.append_assoc, wholeMore, ← List.append_assoc, whole, List.append_assoc]
      rfl
    · rw [lengthLast, length]
      rfl

/-! ## What is left in the buffer -/

/-- No more waits than was accepted. -/
theorem unflushed_le (capacity : Nat) (io : Nat → Outcome) (texts : List Bytes) :
    unflushed capacity io 0 (texts.map List.length) ≤ (accepted io texts).length := by
  obtain ⟨calls, left, _, _, whole, length⟩ :=
    issueAll_prints capacity io [] texts ([] : List (Call Unit))
  have total := congrArg List.length whole
  rw [List.length_append, length, List.nil_append, List.length_nil] at total
  omega

/-- Without room in the buffer nothing stays there. -/
theorem unflushed_unbuffered (io : Nat → Outcome) (lengths : List Nat) : unflushed 0 io 0 lengths = 0 := by
  induction lengths generalizing io with
  | nil => rfl
  | cons length rest ih =>
    have all : 0 + (length - (io 0).lost) - due 0 (io 0).flush (0 + (length - (io 0).lost)) = 0 := by
      rw [due, if_neg (Nat.not_lt_zero _)]
      omega
    rw [unflushed]
    simp only [all]
    exact ih (later io)

/-- A buffer that is emptied only when it must be is never empty again. -/
theorem unflushed_pos {capacity : Nat} (buffered : 0 < capacity) {io : Nat → Outcome}
    (lazy : ∀ index, (io index).flush = 0 ∧ (io index).lost = 0) {held : Nat} {lengths : List Nat}
    (printed : ∀ length ∈ lengths, 0 < length) (some : 0 < held ∨ lengths ≠ []) :
    0 < unflushed capacity io held lengths := by
  induction lengths generalizing io held with
  | nil => exact some.resolve_right fun differ => differ rfl
  | cons length rest ih =>
    have more := printed length List.mem_cons_self
    have left : 0 < held + (length - (io 0).lost) - due capacity (io 0).flush (held + (length - (io 0).lost)) := by
      rw [(lazy 0).1, (lazy 0).2, due]
      split <;> omega
    rw [unflushed]
    exact ih (fun index => lazy (index + 1)) (fun length member => printed length (List.mem_cons_of_mem _ member))
      (.inl left)

/-! ## Nothing lost -/

theorem accepted_flatten {io : Nat → Outcome} {texts : List Bytes}
    (whole : ∀ index < texts.length, (io index).lost = 0) : accepted io texts = texts.flatten := by
  induction texts generalizing io with
  | nil => rfl
  | cons text rest ih =>
    have inRest : accepted (later io) rest = rest.flatten :=
      ih fun index inside => whole (index + 1) (Nat.succ_lt_succ inside)
    simp [accepted, inRest, whole 0 (Nat.zero_lt_succ _)]

theorem accepted_length_le (io : Nat → Outcome) (texts : List Bytes) :
    (accepted io texts).length ≤ texts.flatten.length := by
  induction texts generalizing io with
  | nil => simp [accepted]
  | cons text rest ih =>
    have bound := ih (later io)
    simp only [accepted, List.length_append, keep_length, List.flatten_cons]
    omega

/-- As many bytes as the texts have are accepted only when none of them is lost. -/
theorem accepted_whole {io : Nat → Outcome} {texts : List Bytes} (nonempty : ∀ text ∈ texts, text ≠ [])
    (whole : (accepted io texts).length = texts.flatten.length) : ∀ index < texts.length, (io index).lost = 0 := by
  induction texts generalizing io with
  | nil => intro index inside; exact absurd inside (Nat.not_lt_zero _)
  | cons text rest ih =>
    have bound := accepted_length_le (later io) rest
    have some := List.length_pos_iff.mpr (nonempty text List.mem_cons_self)
    simp only [accepted, List.length_append, keep_length, List.flatten_cons] at whole
    intro index inside
    cases index with
    | zero => omega
    | succ index =>
      have inRest : (accepted (later io) rest).length = rest.flatten.length := by omega
      exact ih (fun text member => nonempty text (List.mem_cons_of_mem _ member)) inRest index
        (Nat.lt_of_succ_lt_succ inside)

end Mcs.Streams
