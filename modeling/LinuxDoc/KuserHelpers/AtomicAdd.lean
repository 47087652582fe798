import Mathlib.Data.BitVec
import LinuxDoc.Foundations.Runs

/-! `atomic_add` and `atomic_add64`, which retry with the helpers `__kuser_cmpxchg` and
`__kuser_cmpxchg64` until the word is exchanged. Threads call them on their own; an action is
one load or one call of the helper, so that a run is any interleaving. A processor of 32 bits
loads a word of 64 bits in two halves, either one first, between which others may change it.
-/

namespace LinuxDoc.KuserHelpers

open Foundations

/-- The word at `ptr`, of which one load reads the low part and another the high part. -/
abbrev Word (high low : Nat) := BitVec (high + low)

variable {Thread : Type} {high low : Nat}

inductive Point (high low : Nat) where
  | outside
  /-- the first load of `old = *ptr` -/
  | load (val : Word high low)
  /-- the load of the high part, after the low one -/
  | loadHigh (val : Word high low) (old : BitVec low)
  /-- the load of the low part, after the high one -/
  | loadLow (val : Word high low) (old : BitVec high)
  /-- the call of the helper, with `old` -/
  | cmpxchg (val old : Word high low)
  | returns (new : Word high low)
  deriving DecidableEq

structure Entry (Thread : Type) (high low : Nat) where
  thread : Thread
  val : Word high low
  new : Word high low
  deriving DecidableEq

/-- The word, and where each thread is. On record are the calls that have changed the word, the
last one first, what each thread has called with and got back, and how often it had to retry
because the word was not as it had been loaded.
-/
structure State (Thread : Type) (high low : Nat) where
  word : Word high low
  point : Thread → Point high low
  history : List (Entry Thread high low)
  calls : Thread → List (Word high low)
  results : Thread → List (Word high low)
  retries : Thread → Nat

def start (word : Word high low) : State Thread high low where
  word := word
  point := fun _ => .outside
  history := []
  calls := fun _ => []
  results := fun _ => []
  retries := fun _ => 0

inductive Action (Thread : Type) (high low : Nat) where
  | call (t : Thread) (val : Word high low)
  /-- the next load, call of the helper or return; the flag says which part is loaded first -/
  | advance (t : Thread) (lowFirst : Bool)
  /-- a call of the helper without an exchange, whatever the word is -/
  | fail (t : Thread)

section Steps

variable [DecidableEq Thread]

def State.goTo (s : State Thread high low) (t : Thread) (point : Point high low)
    : State Thread high low :=
  { s with point := Function.update s.point t point }

def advance (s : State Thread high low) (t : Thread) (lowFirst : Bool)
    : State Thread high low :=
  match s.point t with
  | .outside => s
  | .load val =>
      s.goTo t <|
        if lowFirst then .loadHigh val (s.word.extractLsb' 0 low)
        else .loadLow val (s.word.extractLsb' low high)
  | .loadHigh val old => s.goTo t (.cmpxchg val (s.word.extractLsb' low high ++ old))
  | .loadLow val old => s.goTo t (.cmpxchg val (old ++ s.word.extractLsb' 0 low))
  | .cmpxchg val old =>
      if s.word = old then
        { s with word := old + val, history := ⟨t, val, old + val⟩ :: s.history }.goTo t
          (.returns (old + val))
      else
        { s with retries := Function.update s.retries t (s.retries t + 1) }.goTo t (.load val)
  | .returns new =>
      { s with results := Function.update s.results t (new :: s.results t) }.goTo t .outside

def step (s : State Thread high low) : Action Thread high low → State Thread high low
  | .call t val =>
      if s.point t = .outside then
        { s with calls := Function.update s.calls t (val :: s.calls t) }.goTo t (.load val)
      else s
  | .advance t lowFirst => advance s t lowFirst
  | .fail t =>
      match s.point t with
      | .cmpxchg val _ => s.goTo t (.load val)
      | _ => s

def atomicAdd : State Thread 0 32 → Action Thread 0 32 → State Thread 0 32 := step

/-- `atomic_add64`: the word is loaded in two registers. -/
def atomicAdd64 : State Thread 32 32 → Action Thread 32 32 → State Thread 32 32 := step

end Steps

def current (word : Word high low) : List (Entry Thread high low) → Word high low
  | [] => word
  | entry :: _ => entry.new

/-- Each call on record has added its value to what the calls before it had left. -/
def Sequential (word : Word high low) : List (Entry Thread high low) → Prop
  | [] => True
  | entry :: before => entry.new = current word before + entry.val ∧ Sequential word before

theorem current_eq_sum {initial : Word high low} {history : List (Entry Thread high low)}
    (sequential : Sequential initial history)
    : current initial history = initial + (history.map (·.val)).sum := by
  induction history with
  | nil => exact (BitVec.add_zero initial).symm
  | cons entry before ih =>
      rw [current, sequential.1, ih sequential.2, List.map_cons, List.sum_cons, BitVec.add_assoc,
        BitVec.add_comm _ entry.val]

def Point.pending : Point high low → List (Word high low)
  | .returns new => [new]
  | _ => []

def Point.unfinished : Point high low → List (Word high low)
  | .load val | .loadHigh val _ | .loadLow val _ | .cmpxchg val _ => [val]
  | _ => []

section Retries

variable [DecidableEq Thread]

def others (t : Thread) (history : List (Entry Thread high low)) : Nat :=
  history.countP (·.thread ≠ t)

def ofThread (t : Thread) (history : List (Entry Thread high low))
    : List (Entry Thread high low) :=
  history.filter (·.thread = t)

/-- What was on record when a thread began to load: since then only others have changed the word,
and if nobody has, what is loaded is still right.
-/
def Loaded (s : State Thread high low) (t : Thread) (right : Prop) : Prop :=
  ∃ since before, s.history = since ++ before ∧ (∀ entry ∈ since, entry.thread ≠ t)
    ∧ s.retries t ≤ others t before ∧ (since = [] → right)

def Fits (s : State Thread high low) (t : Thread) : Point high low → Prop
  | .loadHigh _ old => Loaded s t (old = s.word.extractLsb' 0 low)
  | .loadLow _ old => Loaded s t (old = s.word.extractLsb' low high)
  | .cmpxchg _ old => Loaded s t (old = s.word)
  | _ => s.retries t ≤ others t s.history

structure Accounted (s : State Thread high low) (t : Thread) : Prop where
  calls : s.calls t = (s.point t).unfinished ++ (ofThread t s.history).map (·.val)
  results : (ofThread t s.history).map (·.new) = (s.point t).pending ++ s.results t
  fits : Fits s t (s.point t)

structure Invariant (initial : Word high low) (s : State Thread high low) : Prop where
  word : s.word = current initial s.history
  sequential : Sequential initial s.history
  threads : ∀ t, Accounted s t

variable {initial : Word high low} {s s' : State Thread high low} {t : Thread}
  {point : Point high low}

theorem invariant_start (initial : Word high low)
    : Invariant initial (start initial : State Thread high low) :=
  ⟨rfl, trivial, fun _ => ⟨rfl, rfl, Nat.zero_le _⟩⟩

/-- What is on record for a thread that has loaded nothing. -/
theorem Loaded.retries_le {right : Prop} (loaded : Loaded s t right)
    : s.retries t ≤ others t s.history := by
  obtain ⟨since, before, eq, _, le, _⟩ := loaded
  rw [eq, others, List.countP_append]
  exact Nat.le_trans le (Nat.le_add_left _ _)

/-- If what was loaded is not right, another thread has changed the word since. -/
theorem Loaded.retries_lt {right : Prop} (loaded : Loaded s t right) (wrong : ¬ right)
    : s.retries t < others t s.history := by
  obtain ⟨since, before, eq, others_only, le, right_of⟩ := loaded
  rw [eq, others, List.countP_append]
  cases since with
  | nil => exact absurd (right_of rfl) wrong
  | cons entry rest =>
      have ne := others_only entry List.mem_cons_self
      rw [List.countP_cons_of_pos (by simpa using ne)]
      unfold others at le
      omega

theorem Fits.retries_le (fits : Fits s t point) : s.retries t ≤ others t s.history := by
  cases point with
  | loadHigh val old | loadLow val old | cmpxchg val old => exact Loaded.retries_le fits
  | _ => exact fits

/-- What holds of a thread holds in a state with the same record and word. -/
theorem Fits.congr (fits : Fits s t point) (word : s'.word = s.word)
    (history : s'.history = s.history) (retries : s'.retries t = s.retries t)
    : Fits s' t point := by
  unfold Fits Loaded at fits ⊢
  rw [word, history, retries]
  exact fits

/-- What holds of a thread holds after a call of another has changed the word. -/
theorem Fits.exchange (fits : Fits s t point) {entry : Entry Thread high low}
    (other : entry.thread ≠ t) (history : s'.history = entry :: s.history)
    (retries : s'.retries t = s.retries t)
    : Fits s' t point := by
  have loaded {right right' : Prop} (was : Loaded s t right) : Loaded s' t right' := by
    obtain ⟨since, before, eq, others_only, le, _⟩ := was
    refine ⟨entry :: since, before, by rw [history, eq, List.cons_append], ?_, retries ▸ le,
      by simp⟩
    intro e mem
    rcases List.mem_cons.mp mem with rfl | mem
    · exact other
    · exact others_only e mem
  have le : s.retries t ≤ others t s.history → s'.retries t ≤ others t s'.history := by
    intro le
    rw [history, retries, others, List.countP_cons_of_pos (by simpa using other)]
    exact Nat.le_trans le (Nat.le_succ _)
  cases point with
  | loadHigh val old | loadLow val old | cmpxchg val old => exact loaded fits
  | _ => exact le fits

/-- If nobody has changed the word since, both parts are loaded from the same word. -/
theorem Loaded.imp {right right' : Prop} (loaded : Loaded s t right) (still : right → right')
    : Loaded s t right' := by
  obtain ⟨since, before, eq, others_only, le, right_of⟩ := loaded
  exact ⟨since, before, eq, others_only, le, fun none => still (right_of none)⟩

/-- A thread begins to load. -/
theorem loaded_now (le : s.retries t ≤ others t s.history) {right : Prop} (holds : right)
    : Loaded s t right :=
  ⟨[], s.history, rfl, by simp, le, fun _ => holds⟩

/-- A step of one thread that leaves the word and the record of its changes as they are. -/
theorem Invariant.goTo (inv : Invariant initial s) (word : s'.word = s.word)
    (history : s'.history = s.history)
    (rest : ∀ u ≠ t, s'.calls u = s.calls u ∧ s'.results u = s.results u
      ∧ s'.retries u = s.retries u ∧ s'.point u = s.point u)
    (calls : s'.calls t = point.unfinished ++ (ofThread t s.history).map (·.val))
    (results : (ofThread t s.history).map (·.new) = point.pending ++ s'.results t)
    (fits : Fits s' t point)
    : Invariant initial (s'.goTo t point) := by
  refine ⟨?_, ?_, fun u => ?_⟩
  · simp only [State.goTo, word, history]
    exact inv.word
  · simp only [State.goTo, history]
    exact inv.sequential
  · by_cases same : u = t
    · subst same
      constructor <;> simp only [State.goTo, history, Function.update_self]
      · exact calls
      · exact results
      · exact fits.congr rfl history.symm rfl
    · obtain ⟨calls, results, retries, at_point⟩ := rest u same
      obtain ⟨called, returned, fitted⟩ := inv.threads u
      constructor <;>
        simp only [State.goTo, Function.update_of_ne same, history, calls, results, at_point]
      · exact called
      · exact returned
      · exact fitted.congr word rfl retries

/-- The helper exchanges the word. -/
theorem Invariant.exchange (inv : Invariant initial s) {val old : Word high low}
    (at_point : s.point t = .cmpxchg val old) (same : s.word = old)
    : Invariant initial
        ({ s with word := old + val, history := ⟨t, val, old + val⟩ :: s.history }.goTo t
          (.returns (old + val))) := by
  refine ⟨rfl, ⟨by rw [← inv.word, same], inv.sequential⟩, fun u => ?_⟩
  obtain ⟨called, returned, fitted⟩ := inv.threads u
  by_cases mine : u = t
  · subst mine
    have le := fitted.retries_le
    rw [at_point] at called returned
    refine ⟨?_, ?_, ?_⟩
    · simpa [State.goTo, Point.unfinished, ofThread] using called
    · simpa [State.goTo, Point.pending, ofThread] using returned
    · simp only [State.goTo, Function.update_self, Fits, others]
      rwa [List.countP_cons_of_neg (by simp)]
  · constructor <;> simp only [State.goTo, Function.update_of_ne mine, ofThread]
    · rwa [List.filter_cons_of_neg (by simpa using Ne.symm mine)]
    · rwa [List.filter_cons_of_neg (by simpa using Ne.symm mine)]
    · exact fitted.exchange (Ne.symm mine) rfl rfl

/-- By cases on where the thread is; only an exchange changes the word. -/
theorem Invariant.advance (inv : Invariant initial s) (t : Thread) (lowFirst : Bool)
    : Invariant initial (advance s t lowFirst) := by
  obtain ⟨calls, results, fits⟩ := inv.threads t
  unfold KuserHelpers.advance
  cases at_point : s.point t with
  | outside => exact inv
  | load val =>
      rw [at_point] at fits calls results
      cases lowFirst with
      | true => exact inv.goTo rfl rfl (by simp) calls results (loaded_now fits rfl)
      | false => exact inv.goTo rfl rfl (by simp) calls results (loaded_now fits rfl)
  | loadHigh val old =>
      rw [at_point] at fits calls results
      refine inv.goTo rfl rfl (by simp) calls results (Loaded.imp fits ?_)
      intro right
      rw [right, BitVec.extractLsb'_append_extractLsb']
  | loadLow val old =>
      rw [at_point] at fits calls results
      refine inv.goTo rfl rfl (by simp) calls results (Loaded.imp fits ?_)
      intro right
      rw [right, BitVec.extractLsb'_append_extractLsb']
  | cmpxchg val old =>
      rw [at_point] at fits calls results
      dsimp only
      split
      · next same => exact inv.exchange at_point same
      · next changed =>
          refine inv.goTo rfl rfl (by simp +contextual) calls results ?_
          simp only [Fits, Function.update_self]
          exact fits.retries_lt fun eq => changed eq.symm
  | returns new =>
      rw [at_point] at fits calls results
      refine inv.goTo rfl rfl (by simp +contextual) calls ?_ fits
      simpa [Point.pending] using results

theorem Invariant.step (inv : Invariant initial s) (a : Action Thread high low)
    : Invariant initial (step s a) := by
  cases a with
  | call t val =>
      simp only [KuserHelpers.step]
      split
      · next outside =>
          obtain ⟨calls, results, fits⟩ := inv.threads t
          rw [outside] at calls results
          refine inv.goTo rfl rfl (by simp +contextual) ?_ results fits.retries_le
          simpa [Point.unfinished] using calls
      · exact inv
  | advance t lowFirst => exact inv.advance t lowFirst
  | fail t =>
      simp only [KuserHelpers.step]
      split
      · next at_point =>
          obtain ⟨calls, results, fits⟩ := inv.threads t
          rw [at_point] at calls results
          exact inv.goTo rfl rfl (by simp) calls results fits.retries_le
      · exact inv

/-- What is true of the additions of a run: the word is the start value with all the values on
record added to it, each call on record is a call of its thread and is there once, each call gets
back what its own addition has left, and a thread has retried for a changed word at most once for
each addition of another thread.
-/
structure Atomic (initial : Word high low) (s : State Thread high low) : Prop where
  word : s.word = initial + (s.history.map (·.val)).sum
  sequential : Sequential initial s.history
  calls : ∀ t, s.calls t = (s.point t).unfinished ++ (ofThread t s.history).map (·.val)
  results : ∀ t, (ofThread t s.history).map (·.new) = (s.point t).pending ++ s.results t
  retries : ∀ t, s.retries t ≤ others t s.history

theorem always_atomic (initial : Word high low) (run : List (Action Thread high low))
    : Always step (Atomic initial) (start initial) run := by
  refine Always.imp ?_ (always_of_preserved step (Invariant initial) (fun _ a inv => inv.step a)
    run _ (invariant_start initial))
  intro s inv
  refine ⟨?_, inv.sequential, fun t => (inv.threads t).calls, fun t => (inv.threads t).results,
    fun t => (inv.threads t).fits.retries_le⟩
  rw [inv.word, current_eq_sum inv.sequential]

/-- However the calls of the threads mix, every call adds its value exactly once and returns the
sum it has made; with 64 bits too, where a load may see parts of two values, in either order. The
invariant ties what a thread has loaded to the record of the exchanges since.
-/
theorem atomicAdd_atomic (initial : Word 0 32) (run : List (Action Thread 0 32))
    (initial64 : Word 32 32) (run64 : List (Action Thread 32 32))
    : Always atomicAdd (Atomic initial) (start initial) run
      ∧ Always atomicAdd64 (Atomic initial64) (start initial64) run64 :=
  ⟨always_atomic initial run, always_atomic initial64 run64⟩

end Retries

end LinuxDoc.KuserHelpers
