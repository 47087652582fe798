import LinuxDoc.Foundations.Loop
import Mathlib.Data.List.TakeDrop
import Mathlib.Data.Nat.Find
import Mathlib.Data.Prod.Lex
import Mathlib.Order.WellFounded

/-! The transfer loops of the vrl4 generator.
Standard input is the bytes up to end of file. How many bytes a call moves, and whether it
moves any, is up to a schedule that answers the calls one after another.
-/

namespace LinuxDoc.Vrl4

open Foundations.Loop

/-- How the system answers one `read` or `write`: by moving bytes up to a limit, with
`EAGAIN` or `EWOULDBLOCK`, or with another error.
-/
inductive Answer where
  | transfer (limit : Nat)
  | tryAgain
  | fail
  deriving DecidableEq, Repr

abbrev Schedule := Nat → Answer

inductive CallError where
  | tryAgain
  | other
  deriving DecidableEq, Repr

/-- The generator as a process: the input left to read, the output written so far and the
number of calls made.
-/
structure Process where
  stdin : List UInt8
  stdout : List UInt8
  calls : Nat
  deriving DecidableEq, Repr

/-- `read(0, buf, count)` for a positive count. While input is left, at least one byte is
moved; no bytes means end of file.
-/
def read (schedule : Schedule) (count : Nat) (p : Process)
    : Except CallError (List UInt8) × Process :=
  let next := { p with calls := p.calls + 1 }
  match schedule p.calls with
  | .transfer limit =>
      let moved := max 1 (min limit count)
      (.ok (p.stdin.take moved), { next with stdin := p.stdin.drop moved })
  | .tryAgain => (.error .tryAgain, next)
  | .fail => (.error .other, next)

/-- `write(1, buf, count)`, which may move no byte at all. -/
def write (schedule : Schedule) (buf : List UInt8) (p : Process)
    : Except CallError Nat × Process :=
  let next := { p with calls := p.calls + 1 }
  match schedule p.calls with
  | .transfer limit =>
      let moved := min limit buf.length
      (.ok moved, { next with stdout := p.stdout ++ buf.take moved })
  | .tryAgain => (.error .tryAgain, next)
  | .fail => (.error .other, next)

def doReadPass (schedule : Schedule) (count : Nat) (state : List UInt8 × Process)
    : Option (Pass (List UInt8 × Process) (Option (List UInt8) × Process)) :=
  if state.1.length < count then
    match read schedule (count - state.1.length) state.2 with
    | (.ok [], p) => some (.leave (some state.1, p))
    | (.ok data, p) => some (.again (state.1 ++ data, p))
    | (.error .tryAgain, p) => some (.again (state.1, p))
    | (.error .other, p) => some (.leave (none, p))
  else
    some (.leave (some state.1, state.2))

/-- `do_read(0, buf, count)`: the bytes stored in `buf`, or nothing for the result -1. -/
def doRead (schedule : Schedule) (count : Nat) (p : Process) (fuel : Nat)
    : Option (Option (List UInt8) × Process) :=
  run (doReadPass schedule count) fuel ([], p)

def doWritePass (schedule : Schedule) (buf : List UInt8) (state : Nat × Process)
    : Option (Pass (Nat × Process) (Option Nat × Process)) :=
  if state.1 < buf.length then
    match write schedule (buf.drop state.1) state.2 with
    | (.ok moved, p) => some (.again (state.1 + moved, p))
    | (.error .tryAgain, p) => some (.again (state.1, p))
    | (.error .other, p) => some (.leave (none, p))
  else
    some (.leave (some state.1, state.2))

def doWrite (schedule : Schedule) (buf : List UInt8) (p : Process) (fuel : Nat)
    : Option (Option Nat × Process) :=
  run (doWritePass schedule buf) fuel (0, p)

/-- `write_zero(1, len)`: one `do_write` of a zero byte for each count of `i`. -/
def writeZero (schedule : Schedule) (fuel : Nat) : Nat → Process → Option (Option Unit × Process)
  | 0, p => some (some (), p)
  | i + 1, p =>
      match doWrite schedule [0] p fuel with
      | none => none
      | some (none, p) => some (none, p)
      | some (some _, p) => writeZero schedule fuel i p

/-- What one pass of `do_read` can do. -/
theorem doReadPass_cases (schedule : Schedule) (count : Nat) (buf : List UInt8) (p : Process)
    : (count ≤ buf.length
        ∧ doReadPass schedule count (buf, p) = some (.leave (some buf, p)))
      ∨ (p.stdin = []
        ∧ doReadPass schedule count (buf, p)
          = some (.leave (some buf, { p with calls := p.calls + 1 })))
      ∨ (∃ moved,
          0 < moved ∧ buf.length + moved ≤ count ∧ p.stdin ≠ []
          ∧ doReadPass schedule count (buf, p)
            = some (.again (buf ++ p.stdin.take moved,
                { p with stdin := p.stdin.drop moved, calls := p.calls + 1 })))
      ∨ (schedule p.calls = .tryAgain
        ∧ doReadPass schedule count (buf, p)
          = some (.again (buf, { p with calls := p.calls + 1 })))
      ∨ (schedule p.calls = .fail
        ∧ doReadPass schedule count (buf, p)
          = some (.leave (none, { p with calls := p.calls + 1 }))) := by
  by_cases room : buf.length < count
  · cases answer : schedule p.calls with
    | transfer limit =>
        cases input : p.stdin with
        | nil => simp [doReadPass, room, read, answer, input]
        | cons byte rest =>
            have positive : 0 < max 1 (min limit (count - buf.length)) := by omega
            have bounded : buf.length + max 1 (min limit (count - buf.length)) ≤ count := by
              omega
            refine .inr (.inr (.inl ⟨_, positive, bounded, by simp, ?_⟩))
            obtain ⟨moved, size⟩ := Nat.exists_eq_succ_of_ne_zero positive.ne'
            simp [doReadPass, room, read, answer, input, size]
    | tryAgain => simp [doReadPass, room, read, answer]
    | fail => simp [doReadPass, room, read, answer]
  · exact .inl ⟨by omega, by simp [doReadPass, room]⟩

/-- What one pass of `do_write` can do. -/
theorem doWritePass_cases (schedule : Schedule) (buf : List UInt8) (offset : Nat) (p : Process)
    : (buf.length ≤ offset
        ∧ doWritePass schedule buf (offset, p) = some (.leave (some offset, p)))
      ∨ (∃ limit,
          schedule p.calls = .transfer limit ∧ offset < buf.length
          ∧ doWritePass schedule buf (offset, p)
            = some (.again (offset + min limit (buf.length - offset),
                {
                  p with
                  stdout := p.stdout ++ (buf.drop offset).take (min limit (buf.length - offset))
                  calls := p.calls + 1
                })))
      ∨ (schedule p.calls = .tryAgain
        ∧ doWritePass schedule buf (offset, p)
          = some (.again (offset, { p with calls := p.calls + 1 })))
      ∨ (schedule p.calls = .fail
        ∧ doWritePass schedule buf (offset, p)
          = some (.leave (none, { p with calls := p.calls + 1 }))) := by
  by_cases room : offset < buf.length
  · cases answer : schedule p.calls with
    | transfer limit =>
        exact .inr (.inl ⟨limit, rfl, room, by simp [doWritePass, room, write, answer]⟩)
    | tryAgain => simp [doWritePass, room, write, answer]
    | fail => simp [doWritePass, room, write, answer]
  · exact .inl ⟨by omega, by simp [doWritePass, room]⟩

def Fails (schedule : Schedule) : Prop :=
  ∃ n, schedule n = .fail

/-- What `do_read` leaves behind: the next bytes of the input, as many as there are up to the
count, unless a call failed. Nothing is written.
-/
structure Receives (schedule : Schedule) (count : Nat) (p : Process)
    (received : Option (List UInt8)) (q : Process) : Prop where
  stdout : q.stdout = p.stdout
  failed : received = none → Fails schedule
  data
    : ∀ bytes, received = some bytes →
        bytes = p.stdin.take count ∧ q.stdin = p.stdin.drop count

variable {schedule : Schedule} {p q : Process}

/-- Stored bytes and remaining input always make up the input at the call. -/
theorem doRead_receives {count fuel : Nat} {received : Option (List UInt8)}
    (returned : doRead schedule count p fuel = some (received, q))
    : Receives schedule count p received q := by
  refine run_result
    (fun state =>
      state.1 ++ state.2.stdin = p.stdin ∧ state.2.stdout = p.stdout
      ∧ state.1.length ≤ count)
    (fun result => Receives schedule count p result.1 result.2)
    ?_ ⟨rfl, rfl, Nat.zero_le _⟩ returned
  intro state inv
  obtain ⟨buf, s⟩ := state
  obtain ⟨split, written, bounded⟩ := inv
  rcases doReadPass_cases schedule count buf s with
    ⟨full, done⟩ | ⟨empty, done⟩ | ⟨moved, _, fits, _, around⟩ | ⟨_, around⟩ | ⟨failed, done⟩
  · have size : buf.length = count := Nat.le_antisymm bounded full
    rw [done]
    exact .leave ⟨written, by simp, by simp [← split, ← size]⟩
  · have whole : buf = p.stdin := by simpa [empty] using split
    rw [done]
    refine .leave ⟨written, by simp, ?_⟩
    subst whole
    simp [empty, List.take_of_length_le bounded, List.drop_of_length_le bounded]
  · have taken := List.length_take_le moved s.stdin
    rw [around]
    refine .again ⟨by simpa using split, written, ?_⟩
    simp only [List.length_append]
    omega
  · rw [around]
    exact .again ⟨split, written, bounded⟩
  · rw [done]
    exact .leave ⟨written, fun _ => ⟨_, failed⟩, by simp⟩

/-- A program that goes on after `do_read` did so in one of three ways. -/
theorem doRead_then {ρ : Type} {count fuel : Nat} {p : Process} {stop eof : Process → Option ρ}
    {next : List UInt8 → Process → Option ρ} {result : ρ}
    (returned
      : (match doRead schedule count p fuel with
          | none => none
          | some (none, q) => stop q
          | some (some [], q) => eof q
          | some (some bytes, q) => next bytes q) = some result)
    : (∃ q, Receives schedule count p none q ∧ stop q = some result)
      ∨ (∃ q, Receives schedule count p (some []) q ∧ eof q = some result)
      ∨ ∃ bytes q,
          bytes ≠ [] ∧ Receives schedule count p (some bytes) q ∧ next bytes q = some result := by
  cases reading : doRead schedule count p fuel with
  | none => simp [reading] at returned
  | some outcome =>
      obtain ⟨received, q⟩ := outcome
      have receives := doRead_receives reading
      rw [reading] at returned
      cases received with
      | none => exact .inl ⟨q, receives, returned⟩
      | some bytes =>
          cases bytes with
          | nil => exact .inr (.inl ⟨q, receives, returned⟩)
          | cons byte rest => exact .inr (.inr ⟨_, q, by simp, receives, returned⟩)

/-- What a writing function leaves behind: the bytes appended to the output, or the first of
them if a call failed. Nothing is read.
-/
structure Sends (schedule : Schedule) (bytes : List UInt8) (p : Process) (complete : Bool)
    (q : Process) : Prop where
  stdin : q.stdin = p.stdin
  stdout : ∃ sent, sent <+: bytes ∧ q.stdout = p.stdout ++ sent
  failed : complete = false → Fails schedule
  done : complete = true → q.stdout = p.stdout ++ bytes

/-- The output always ends in the first `offset` bytes of the buffer. -/
theorem doWrite_sends {buf : List UInt8} {fuel : Nat} {written : Option Nat}
    (returned : doWrite schedule buf p fuel = some (written, q))
    : Sends schedule buf p written.isSome q := by
  refine run_result
    (fun state => state.2.stdin = p.stdin ∧ state.2.stdout = p.stdout ++ buf.take state.1)
    (fun result => Sends schedule buf p result.1.isSome result.2)
    ?_ (by simp) returned
  intro state inv
  obtain ⟨offset, s⟩ := state
  obtain ⟨unread, output⟩ := inv
  rcases doWritePass_cases schedule buf offset s with
    ⟨full, done⟩ | ⟨limit, _, room, around⟩ | ⟨_, around⟩ | ⟨failed, done⟩
  · rw [done]
    refine .leave ⟨unread, ⟨_, List.take_prefix _ _, output⟩, by simp, ?_⟩
    intro _
    simpa [List.take_of_length_le full] using output
  · rw [around]
    refine .again ⟨unread, ?_⟩
    simp only at output
    simp only [output, List.append_assoc, List.take_add]
  · rw [around]
    exact .again ⟨unread, output⟩
  · rw [done]
    exact .leave ⟨unread, ⟨_, List.take_prefix _ _, output⟩, fun _ => ⟨_, failed⟩, by simp⟩

/-- A program that goes on after `do_write` did so in one of two ways. -/
theorem doWrite_then {ρ : Type} {buf : List UInt8} {p : Process} {fuel : Nat}
    {stop next : Process → Option ρ} {result : ρ}
    (returned
      : (match doWrite schedule buf p fuel with
          | none => none
          | some (none, q) => stop q
          | some (some _, q) => next q) = some result)
    : (∃ q, Sends schedule buf p false q ∧ stop q = some result)
      ∨ ∃ q, Sends schedule buf p true q ∧ next q = some result := by
  cases writing : doWrite schedule buf p fuel with
  | none => simp [writing] at returned
  | some outcome =>
      obtain ⟨written, q⟩ := outcome
      have sends := doWrite_sends writing
      rw [writing] at returned
      cases written with
      | none => exact .inl ⟨q, sends, returned⟩
      | some _ => exact .inr ⟨q, sends, returned⟩

/-- Writing one piece completely and then another is writing both. -/
theorem Sends.append {first second : List UInt8} {p q r : Process} {complete : Bool}
    (before : Sends schedule first p true q) (after : Sends schedule second q complete r)
    : Sends schedule (first ++ second) p complete r := by
  have output := before.done rfl
  obtain ⟨sent, initial, more⟩ := after.stdout
  refine ⟨after.stdin.trans before.stdin, ⟨first ++ sent, ?_, ?_⟩, after.failed, ?_⟩
  · exact (List.prefix_append_right_inj first).mpr initial
  · rw [more, output, List.append_assoc]
  · intro all
    rw [after.done all, output, List.append_assoc]

/-- Stopping after an incomplete piece leaves the first bytes of everything that was to come.
-/
theorem Sends.stop {first : List UInt8} (before : Sends schedule first p false q)
    (second : List UInt8)
    : Sends schedule (first ++ second) p false q := by
  obtain ⟨sent, initial, output⟩ := before.stdout
  exact ⟨before.stdin, ⟨sent, initial.trans (List.prefix_append _ _), output⟩, before.failed,
    by simp⟩

theorem writeZero_sends {fuel len : Nat} {written : Option Unit}
    (returned : writeZero schedule fuel len p = some (written, q))
    : Sends schedule (List.replicate len 0) p written.isSome q := by
  induction len generalizing p with
  | zero =>
      obtain ⟨rfl, rfl⟩ : some () = written ∧ p = q := by simpa [writeZero] using returned
      exact ⟨rfl, ⟨[], by simp⟩, by simp, by simp⟩
  | succ i ih =>
      rw [writeZero] at returned
      rw [List.replicate_succ, ← List.singleton_append]
      rcases doWrite_then returned with ⟨s, sends, stopped⟩ | ⟨s, sends, rest⟩
      · cases stopped
        exact sends.stop _
      · exact sends.append (ih rest)

/-- A program that goes on after `write_zero` did so in one of two ways. -/
theorem writeZero_then {ρ : Type} {fuel len : Nat} {p : Process} {stop next : Process → Option ρ}
    {result : ρ}
    (returned
      : (match writeZero schedule fuel len p with
          | none => none
          | some (none, q) => stop q
          | some (some _, q) => next q) = some result)
    : (∃ q, Sends schedule (List.replicate len 0) p false q ∧ stop q = some result)
      ∨ ∃ q, Sends schedule (List.replicate len 0) p true q ∧ next q = some result := by
  cases writing : writeZero schedule fuel len p with
  | none => simp [writing] at returned
  | some outcome =>
      obtain ⟨written, q⟩ := outcome
      have sends := writeZero_sends writing
      rw [writing] at returned
      cases written with
      | none => exact .inl ⟨q, sends, returned⟩
      | some _ => exact .inr ⟨q, sends, returned⟩

-- Schedules under which every transfer completes

def Answer.Moves (answer : Answer) : Prop :=
  ∃ limit, 0 < limit ∧ answer = .transfer limit

/-- No call fails, and calls that can move a byte keep coming. -/
structure Fair (schedule : Schedule) : Prop where
  noFail : ¬ Fails schedule
  moves : ∀ n, ∃ wait, (schedule (n + wait)).Moves

open Classical in
noncomputable def Fair.gap {schedule : Schedule} (fair : Fair schedule) (n : Nat) : Nat :=
  Nat.find (fair.moves n)

/-- A call that cannot move a byte brings the next one that can nearer. -/
theorem Fair.gap_succ (fair : Fair schedule) {n : Nat} (still : ¬ (schedule n).Moves)
    : fair.gap (n + 1) < fair.gap n := by
  classical
  have moves := Nat.find_spec (fair.moves n)
  cases wait : Nat.find (fair.moves n) with
  | zero =>
      rw [wait] at moves
      exact absurd moves still
  | succ k =>
      rw [wait, show n + (k + 1) = n + 1 + k by omega] at moves
      have found : fair.gap (n + 1) ≤ k := Nat.find_min' (fair.moves (n + 1)) moves
      have current : fair.gap n = k + 1 := wait
      omega

theorem not_moves_tryAgain : ¬ Answer.tryAgain.Moves := by
  intro h
  rcases h with ⟨_, _, h⟩
  cases h

/-- The order in which the transfer loops make progress: by bytes still to move, then by
calls to wait.
-/
theorem wellFounded_progress {σ : Type*} (left : σ → Nat) (wait : σ → Nat)
    : WellFounded
        (InvImage (Prod.Lex (· < ·) (· < ·)) (fun s : σ => (left s, wait s))) :=
  InvImage.wf _ (WellFounded.prod_lex wellFounded_lt wellFounded_lt)

/-- `do_read` returns under a fair schedule, and succeeds. -/
theorem Fair.doRead_returns (fair : Fair schedule) (count : Nat) (p : Process)
    : ∃ bytes q, Returns (doRead schedule count p) (some bytes, q) := by
  have settles : ∃ result,
      Settles (fun _ => doReadPass schedule count) (([] : List UInt8), p) result := by
    refine settles_of_wellFounded
      (wellFounded_progress (fun s => count - s.1.length) (fun s => fair.gap s.2.calls))
      (fun _ => True) ?_ trivial
    intro state _
    obtain ⟨buf, s⟩ := state
    rcases doReadPass_cases schedule count buf s with
      ⟨_, done⟩ | ⟨_, done⟩ | ⟨moved, positive, fits, input, around⟩ | ⟨again, around⟩
        | ⟨_, done⟩
    · exact .inl ⟨_, .const fun _ => done⟩
    · exact .inl ⟨_, .const fun _ => done⟩
    · refine .inr ⟨_, .const fun _ => around, trivial, .left _ _ ?_⟩
      have some : 0 < s.stdin.length := List.length_pos_iff.mpr input
      simp only [List.length_append, List.length_take]
      omega
    · exact .inr ⟨_, .const fun _ => around, trivial,
        .right _ (fair.gap_succ (again ▸ not_moves_tryAgain))⟩
    · exact .inl ⟨_, .const fun _ => done⟩
  obtain ⟨⟨received, q⟩, settled⟩ := settles
  have returned : Returns (doRead schedule count p) (received, q) := settled.returns
  cases received with
  | none =>
      obtain ⟨bound, returns⟩ := returned
      exact absurd ((doRead_receives (returns bound le_rfl)).failed rfl) fair.noFail
  | some bytes => exact ⟨bytes, q, returned⟩

/-- `do_write` returns under a fair schedule, and succeeds. -/
theorem Fair.doWrite_returns (fair : Fair schedule) (buf : List UInt8) (p : Process)
    : ∃ count q, Returns (doWrite schedule buf p) (some count, q) := by
  have settles : ∃ result, Settles (fun _ => doWritePass schedule buf) (0, p) result := by
    refine settles_of_wellFounded
      (wellFounded_progress (fun s => buf.length - s.1) (fun s => fair.gap s.2.calls))
      (fun _ => True) ?_ trivial
    intro state _
    obtain ⟨offset, s⟩ := state
    rcases doWritePass_cases schedule buf offset s with
      ⟨_, done⟩ | ⟨limit, answer, room, around⟩ | ⟨again, around⟩ | ⟨_, done⟩
    · exact .inl ⟨_, .const fun _ => done⟩
    · refine .inr ⟨_, .const fun _ => around, trivial, ?_⟩
      cases limit with
      | zero =>
          -- No byte was moved, so only the wait gets shorter.
          have still : ¬ (schedule s.calls).Moves := by
            intro h
            rcases h with ⟨limit, positive, same⟩
            rw [answer] at same
            cases same
            exact absurd positive (lt_irrefl 0)
          simpa [InvImage] using Prod.Lex.right _ (fair.gap_succ still)
      | succ limit =>
          refine .left _ _ ?_
          simp only
          omega
    · exact .inr ⟨_, .const fun _ => around, trivial,
        .right _ (fair.gap_succ (again ▸ not_moves_tryAgain))⟩
    · exact .inl ⟨_, .const fun _ => done⟩
  obtain ⟨⟨written, q⟩, settled⟩ := settles
  have returned : Returns (doWrite schedule buf p) (written, q) := settled.returns
  cases written with
  | none =>
      obtain ⟨bound, returns⟩ := returned
      exact absurd ((doWrite_sends (returns bound le_rfl)).failed rfl) fair.noFail
  | some count => exact ⟨count, q, returned⟩

/-- `write_zero` returns under a fair schedule, and succeeds. -/
theorem Fair.writeZero_returns (fair : Fair schedule) (len : Nat) (p : Process)
    : ∃ q, Returns (fun fuel => writeZero schedule fuel len p) (some (), q) := by
  induction len generalizing p with
  | zero => exact ⟨p, .const fun _ => rfl⟩
  | succ i ih =>
      obtain ⟨count, s, first, written⟩ := fair.doWrite_returns [0] p
      obtain ⟨q, later, zeroed⟩ := ih s
      refine ⟨q, max first later, fun fuel enough => ?_⟩
      simp only [writeZero, written fuel (by omega)]
      exact zeroed fuel (by omega)

end LinuxDoc.Vrl4
