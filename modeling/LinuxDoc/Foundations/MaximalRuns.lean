import Mathlib.Data.List.SplitBy
import Mathlib.Data.List.ReduceOption

/-! Maximal runs of elements with a property in a list, and how a machine that reads the list
one element at a time counts them.
-/

namespace Foundations

universe u

variable {α : Type u}

def maximalRuns (q : α → Bool) (l : List α) : List (List α) :=
  (l.splitBy fun a b => q a == q b).filter fun run => run.any q

/-- How many runs begin in the list, if one is open before it or not. -/
def runStarts (q : α → Bool) : Bool → List α → Nat
  | _, [] => 0
  | inside, a :: rest =>
      if q a then (if inside then 0 else 1) + runStarts q true rest else runStarts q false rest

variable {q : α → Bool}

/-- A run that is open ends in front of another element. -/
theorem runStarts_of_head {l : List α} (ends : ∀ a ∈ l.head?, q a = false) (inside : Bool)
    : runStarts q inside l = runStarts q false l := by
  cases l with
  | nil => rfl
  | cons a rest =>
      have other : q a = false := ends a rfl
      simp [runStarts, other]

theorem runStarts_append_of_all {run : List α} (all : ∀ a ∈ run, q a = true) (rest : List α)
    : runStarts q true (run ++ rest) = runStarts q true rest := by
  induction run with
  | nil => rfl
  | cons a run ih =>
      rw [List.cons_append, runStarts, if_pos (all a List.mem_cons_self), if_pos rfl, Nat.zero_add,
        ih fun b mem => all b (.tail _ mem)]

theorem runStarts_append_of_none {gap : List α} (none : ∀ a ∈ gap, q a = false) (rest : List α)
    : runStarts q false (gap ++ rest) = runStarts q false rest := by
  induction gap with
  | nil => rfl
  | cons a gap ih =>
      rw [List.cons_append, runStarts, if_neg (by simp [none a List.mem_cons_self]),
        ih fun b mem => none b (.tail _ mem)]

section

variable (q : α → Bool) (a : α) (rest : List α)

theorem eq_of_mem_takeWhile {b : α} (mem : b ∈ a :: rest.takeWhile (q · == q a)) : q b = q a := by
  rcases List.mem_cons.mp mem with rfl | mem
  · rfl
  · simpa using List.all_eq_true.mp List.all_takeWhile b mem

theorem head_dropWhile {b : α} (mem : b ∈ (rest.dropWhile (q · == q a)).head?) : q b ≠ q a := by
  have head := List.head?_dropWhile_not (q · == q a) rest
  rw [mem] at head
  simpa using head

/-- The first group of equal elements, and the rest. -/
theorem splitBy_cons_eq
    : (a :: rest).splitBy (fun a b => q a == q b)
      = (a :: rest.takeWhile (q · == q a))
        :: (rest.dropWhile (q · == q a)).splitBy (fun a b => q a == q b) := by
  have parts : a :: rest = (a :: rest.takeWhile (q · == q a)) ++ rest.dropWhile (q · == q a) := by
    rw [List.cons_append, List.takeWhile_append_dropWhile]
  have chain : (a :: rest.takeWhile (q · == q a)).IsChain fun x y => (q x == q y) = true := by
    refine List.Pairwise.isChain (List.pairwise_of_forall_mem_list fun x memX y memY => ?_)
    rw [eq_of_mem_takeWhile q a rest memX, eq_of_mem_takeWhile q a rest memY]
    exact beq_self_eq_true _
  nth_rewrite 1 [parts]
  rw [List.splitBy_append, List.splitBy_of_isChain (List.cons_ne_nil _ _) chain]
  · rfl
  · intro x memX y memY
    rw [eq_of_mem_takeWhile q a rest (List.mem_of_mem_getLast? memX)]
    exact beq_eq_false_iff_ne.mpr (head_dropWhile q a rest memY).symm

end

/-- Each maximal run begins once. -/
theorem length_maximalRuns (q : α → Bool)
    : (l : List α) → (maximalRuns q l).length = runStarts q false l
  | [] => rfl
  | a :: rest => by
      set run := rest.takeWhile (q · == q a) with run_eq
      set back := rest.dropWhile (q · == q a) with back_eq
      have shorter : back.length < (a :: rest).length := by
        have le := (List.dropWhile_sublist (l := rest) (q · == q a)).length_le
        rw [← back_eq] at le
        rw [List.length_cons]
        omega
      have ih := length_maximalRuns q back
      have parts : rest = run ++ back := (List.takeWhile_append_dropWhile ..).symm
      have same : ∀ b ∈ run, q b = q a :=
        fun b mem => eq_of_mem_takeWhile q a rest (.tail _ mem)
      rw [maximalRuns, splitBy_cons_eq, ← run_eq, ← back_eq, runStarts, parts]
      cases is : q a with
      | true =>
          have ends : ∀ b ∈ back.head?, q b = false :=
            fun b mem => by simpa [is] using head_dropWhile q a rest mem
          rw [List.filter_cons_of_pos (by simp [is]), List.length_cons, ← maximalRuns, ih,
            if_pos rfl, if_neg (by simp), runStarts_append_of_all fun b mem => (same b mem).trans is,
            runStarts_of_head ends true, Nat.add_comm]
      | false =>
          have none : ∀ b ∈ run, q b = false := fun b mem => (same b mem).trans is
          rw [List.filter_cons_of_neg (by simpa [is] using none), ← maximalRuns, ih,
            if_neg (by simp), runStarts_append_of_none none]
  termination_by l => l.length
  decreasing_by exact shorter

/-! Counting runs at their ends -/

/-- A machine that counts a run when it is over, with the elements of the run that is open. -/
structure RunCounter where
  runs : Nat
  pending : Nat
  deriving DecidableEq

def RunCounter.read (counter : RunCounter) (has : Bool) : RunCounter :=
  if has then { counter with pending := counter.pending + 1 }
  else if counter.pending ≠ 0 then { runs := counter.runs + 1, pending := 0 }
  else counter

def RunCounter.total (counter : RunCounter) : Nat :=
  counter.runs + if counter.pending ≠ 0 then 1 else 0

theorem total_foldl_read (q : α → Bool) (l : List α) (counter : RunCounter)
    : (l.foldl (fun counter a => counter.read (q a)) counter).total
      = counter.total + runStarts q (decide (counter.pending ≠ 0)) l := by
  induction l generalizing counter with
  | nil => rfl
  | cons a rest ih =>
      rw [List.foldl_cons, ih, runStarts]
      cases has : q a with
      | true =>
          by_cases isOpen : counter.pending = 0
          · simp [RunCounter.read, RunCounter.total, isOpen, Nat.add_assoc]
          · simp [RunCounter.read, RunCounter.total, isOpen]
      | false =>
          by_cases isOpen : counter.pending = 0
          · simp [RunCounter.read, RunCounter.total, isOpen]
          · simp [RunCounter.read, RunCounter.total, isOpen]

theorem pending_read (counter : RunCounter) (has : Bool)
    : (counter.read has).pending ≠ 0 ↔ has = true := by
  cases has with
  | true => simp [RunCounter.read]
  | false => by_cases isOpen : counter.pending = 0 <;> simp [RunCounter.read, isOpen]

/-- A run is open after the list exactly if its last element has the property. -/
theorem pending_foldl_read (q : α → Bool) (l : List α) (counter : RunCounter)
    (closed : counter.pending = 0)
    : (l.foldl (fun counter a => counter.read (q a)) counter).pending ≠ 0
      ↔ ∃ a ∈ l.getLast?, q a = true := by
  rcases List.eq_nil_or_concat l with rfl | ⟨front, a, rfl⟩
  · simp [closed]
  · simp [pending_read]

/-! Runs with cuts -/

def acrossCuts (q : α → Bool) : Option α → Bool
  | none => false
  | some a => q a

theorem runStarts_map_some (q : α → Bool) (inside : Bool) (l : List α)
    : runStarts (acrossCuts q) inside (l.map some) = runStarts q inside l := by
  induction l generalizing inside with
  | nil => rfl
  | cons a rest ih => simp only [List.map_cons, runStarts, acrossCuts, ih]

/-- A cut lies inside a run: two elements of it have only cuts between them, and at least one. -/
def CutsRun (q : α → Bool) (l : List (Option α)) : Prop :=
  ∃ front a cuts b back, l = front ++ some a :: (cuts ++ some b :: back)
    ∧ q a = true ∧ q b = true ∧ cuts ≠ [] ∧ ∀ cut ∈ cuts, cut = none

def cutsFrom (q : α → Bool) : Bool → Bool → List (Option α) → Prop
  | _, _, [] => False
  | inside, _, none :: rest => cutsFrom q inside true rest
  | inside, cut, some a :: rest =>
      (inside = true ∧ cut = true ∧ q a = true) ∨ cutsFrom q (q a) false rest

def Resumes (q : α → Bool) (cut : Bool) (l : List (Option α)) : Prop :=
  ∃ cuts b back, l = cuts ++ some b :: back ∧ q b = true ∧ (cut = true ∨ cuts ≠ [])
    ∧ ∀ cut ∈ cuts, cut = none

section

variable {q : α → Bool} {l : List (Option α)}

theorem resumes_none {cut : Bool} : Resumes q cut (none :: l) ↔ Resumes q true l := by
  constructor
  · rintro ⟨cuts, b, back, eq, has, _, all⟩
    cases cuts with
    | nil => cases eq
    | cons _ cuts =>
        obtain ⟨rfl, rfl⟩ := List.cons.inj eq
        exact ⟨cuts, b, back, rfl, has, .inl rfl, fun cut mem => all cut (.tail _ mem)⟩
  · rintro ⟨cuts, b, back, rfl, has, _, all⟩
    exact ⟨none :: cuts, b, back, rfl, has, .inr (List.cons_ne_nil _ _), by simpa using all⟩

theorem resumes_some {cut : Bool} {a : α}
    : Resumes q cut (some a :: l) ↔ cut = true ∧ q a = true := by
  constructor
  · rintro ⟨cuts, b, back, eq, has, is, all⟩
    cases cuts with
    | nil =>
        obtain ⟨⟨⟩, _⟩ := List.cons.inj eq
        exact ⟨is.resolve_right (· rfl), has⟩
    | cons first cuts =>
        obtain ⟨rfl, _⟩ := List.cons.inj eq
        exact absurd (all (some a) List.mem_cons_self) nofun
  · rintro ⟨is, has⟩
    exact ⟨[], a, l, rfl, has, .inl is, nofun⟩

theorem cutsRun_none : CutsRun q (none :: l) ↔ CutsRun q l := by
  constructor
  · rintro ⟨front, a, cuts, b, back, eq, rest⟩
    cases front with
    | nil => cases eq
    | cons _ front =>
        obtain ⟨rfl, rfl⟩ := List.cons.inj eq
        exact ⟨front, a, cuts, b, back, rfl, rest⟩
  · rintro ⟨front, a, cuts, b, back, rfl, rest⟩
    exact ⟨none :: front, a, cuts, b, back, rfl, rest⟩

theorem cutsRun_some {a : α}
    : CutsRun q (some a :: l) ↔ CutsRun q l ∨ (q a = true ∧ Resumes q false l) := by
  constructor
  · rintro ⟨front, c, cuts, b, back, eq, hasC, hasB, nonempty, all⟩
    cases front with
    | nil =>
        obtain ⟨⟨⟩, rfl⟩ := List.cons.inj eq
        exact .inr ⟨hasC, cuts, b, back, rfl, hasB, .inr nonempty, all⟩
    | cons _ front =>
        obtain ⟨rfl, rfl⟩ := List.cons.inj eq
        exact .inl ⟨front, c, cuts, b, back, rfl, hasC, hasB, nonempty, all⟩
  · rintro (⟨front, c, cuts, b, back, rfl, rest⟩ | ⟨hasA, cuts, b, back, rfl, hasB, is, all⟩)
    · exact ⟨some a :: front, c, cuts, b, back, rfl, rest⟩
    · exact ⟨[], a, cuts, b, back, rfl, hasA, hasB, is.resolve_left nofun, all⟩

end

theorem cutsFrom_iff (q : α → Bool) (inside cut : Bool) (l : List (Option α))
    : cutsFrom q inside cut l ↔ CutsRun q l ∨ (inside = true ∧ Resumes q cut l) := by
  induction l generalizing inside cut with
  | nil => simp [cutsFrom, CutsRun, Resumes]
  | cons first rest ih =>
      cases first with
      | none => rw [cutsFrom, ih, cutsRun_none, resumes_none]
      | some a =>
          rw [cutsFrom, ih, cutsRun_some, resumes_some]
          tauto

/-- Cuts never join runs. -/
theorem runStarts_reduceOption_le (q : α → Bool) (l : List (Option α)) (inside outer : Bool)
    (implies : inside = true → outer = true)
    : runStarts q outer l.reduceOption ≤ runStarts (acrossCuts q) inside l := by
  induction l generalizing inside outer with
  | nil => exact Nat.le_refl _
  | cons first rest ih =>
      cases first with
      | none => exact ih false outer nofun
      | some a =>
          rw [List.reduceOption_cons_of_some, runStarts, runStarts, acrossCuts]
          split
          · have starts : (if outer = true then 0 else 1) ≤ if inside = true then 0 else 1 := by
              cases inside <;> cases outer <;> simp at implies ⊢
            exact Nat.add_le_add starts (ih true true id)
          · exact ih false false id

/-- Cuts make more runs exactly where they lie inside of one. -/
theorem runStarts_acrossCuts_eq_iff (q : α → Bool) (l : List (Option α)) (inside cut : Bool)
    : runStarts (acrossCuts q) (inside && !cut) l = runStarts q inside l.reduceOption
      ↔ ¬ cutsFrom q inside cut l := by
  induction l generalizing inside cut with
  | nil => simp [runStarts, cutsFrom]
  | cons first rest ih =>
      cases first with
      | none => simpa [runStarts, acrossCuts, cutsFrom] using ih inside true
      | some a =>
          rw [List.reduceOption_cons_of_some, runStarts, runStarts, acrossCuts, cutsFrom]
          cases has : q a with
          | false => simpa [has] using ih false false
          | true =>
              have le := runStarts_reduceOption_le q rest true true id
              by_cases both : inside = true ∧ cut = true
              · -- the run was counted already, before the cut
                obtain ⟨rfl, rfl⟩ := both
                simp only [Bool.not_true, Bool.and_false, Bool.false_eq_true, if_false, if_true,
                  true_and, true_or, not_true, iff_false]
                omega
              · have kept : (inside && !cut) = inside := by
                  cases inside <;> cases cut <;> simp at both ⊢
                have none : ¬ (inside = true ∧ cut = true ∧ true = true) :=
                  fun h => both ⟨h.1, h.2.1⟩
                rw [kept, if_pos rfl, if_pos rfl, Nat.add_left_cancel_iff, or_iff_right none]
                exact ih true false

/-- Cuts leave the number of runs as it is exactly if none lies inside of a run. -/
theorem runStarts_cuts_eq_iff (q : α → Bool) (l : List (Option α))
    : runStarts (acrossCuts q) false l = runStarts q false l.reduceOption ↔ ¬ CutsRun q l := by
  have from_start := runStarts_acrossCuts_eq_iff q l false false
  rw [cutsFrom_iff] at from_start
  simpa using from_start

end Foundations
