import Mathlib.Algebra.Order.Group.Nat
import Mathlib.Data.List.Basic
import Mathlib.Data.Nat.ModEq

/-! Queues of entries of different lengths in a ring, between a tail that the consumer moves
and a head that the producer moves. Positions are counters that never wrap, reduced to the
ring; the size of the ring is arbitrary.
-/

namespace Foundations.EntryRing

universe u

variable {α : Type u}

/-- Counters less than a ring apart that have one place are equal. -/
theorem eq_of_mod_eq {size low high : Nat} (ordered : low ≤ high) (near : high < low + size)
    (same : low % size = high % size) : low = high := by
  have apart : (high - low) % size = 0 := Nat.sub_mod_eq_zero_of_mod_eq same.symm
  rw [Nat.mod_eq_of_lt (by omega)] at apart
  omega

def total (length : α → Nat) (entries : List α) : Nat :=
  (entries.map length).sum

@[simp]
theorem total_nil (length : α → Nat) : total length [] = 0 := rfl

@[simp]
theorem total_cons (length : α → Nat) (entry : α) (rest : List α)
    : total length (entry :: rest) = length entry + total length rest := rfl

@[simp]
theorem total_append (length : α → Nat) (left right : List α)
    : total length (left ++ right) = total length left + total length right := by
  simp [total]

/-- Entries of positive length one after the other, none across the end of the ring. -/
def LaidOut (length : α → Nat) (size : Nat) (memory : Nat → α) : Nat → List α → Prop
  | _, [] => True
  | counter, entry :: rest =>
      memory (counter % size) = entry ∧ 0 < length entry
        ∧ counter % size + length entry ≤ size
        ∧ LaidOut length size memory (counter + length entry) rest

section Layout

variable {length : α → Nat} {size : Nat} {memory other : Nat → α}

theorem laidOut_append (left right : List α) (counter : Nat)
    : LaidOut length size memory counter (left ++ right)
      ↔ LaidOut length size memory counter left
        ∧ LaidOut length size memory (counter + total length left) right := by
  induction left generalizing counter with
  | nil => simp [LaidOut]
  | cons entry rest ih =>
      simp only [List.cons_append, LaidOut, ih, total_cons, Nat.add_assoc, and_assoc]

/-- Only the places from the first entry to the end of the last one matter. -/
theorem LaidOut.congr {entries : List α} {counter : Nat}
    (laid : LaidOut length size memory counter entries)
    (same : ∀ i < total length entries,
      other ((counter + i) % size) = memory ((counter + i) % size))
    : LaidOut length size other counter entries := by
  induction entries generalizing counter with
  | nil => trivial
  | cons entry rest ih =>
      obtain ⟨here, positive, inside, later⟩ := laid
      rw [total_cons] at same
      refine ⟨(same 0 (by omega)).trans here, positive, inside, ih later ?_⟩
      intro i below
      have shifted := same (length entry + i) (by omega)
      rwa [← Nat.add_assoc] at shifted

end Layout

def Queued (length : α → Nat) (size : Nat) (memory : Nat → α) (tail head : Nat)
    (entries : List α) : Prop :=
  ∃ counter, tail = counter % size ∧ head = (counter + total length entries) % size
    ∧ LaidOut length size memory counter entries ∧ total length entries < size

namespace Queued

variable {length : α → Nat} {size : Nat} {memory other : Nat → α} {tail head : Nat}
  {entries : List α}

/-- Tail and head meet only in an empty queue. -/
theorem tail_eq_head_iff (queued : Queued length size memory tail head entries)
    : tail = head ↔ entries = [] := by
  obtain ⟨counter, rfl, rfl, laid, room⟩ := queued
  constructor
  · intro same
    have none := eq_of_mod_eq (Nat.le_add_right _ _) (by omega) same
    cases entries with
    | nil => rfl
    | cons entry rest =>
        have positive := laid.2.1
        rw [total_cons] at none
        omega
  · rintro rfl
    rfl

/-- The first entry stands at the tail; moving the tail past it leaves the others. -/
theorem pop {entry : α} {rest : List α}
    (queued : Queued length size memory tail head (entry :: rest))
    : memory tail = entry
      ∧ Queued length size memory ((tail + length entry) % size) head rest := by
  obtain ⟨counter, rfl, rfl, ⟨here, _, _, later⟩, room⟩ := queued
  rw [total_cons] at room
  refine ⟨here, counter + length entry, Nat.mod_add_mod _ _ _, ?_, later, by omega⟩
  rw [total_cons, Nat.add_assoc]

/-- The bytes in use, as the distance from the tail to the head. -/
theorem used_eq (queued : Queued length size memory tail head entries)
    : (head + size - tail) % size = total length entries := by
  obtain ⟨counter, rfl, rfl, _, room⟩ := queued
  have tailBelow : counter % size < size := Nat.mod_lt _ (by omega)
  rw [← Nat.mod_add_mod counter size (total length entries)]
  generalize counter % size = place at tailBelow
  by_cases wraps : place + total length entries < size
  · rw [Nat.mod_eq_of_lt wraps]
    have distance : place + total length entries + size - place
        = total length entries + size := by omega
    rw [distance, Nat.add_mod_right, Nat.mod_eq_of_lt room]
  · have wrapped : (place + total length entries) % size
        = place + total length entries - size := by
      rw [Nat.mod_eq_sub_mod (by omega), Nat.mod_eq_of_lt (by omega)]
    have distance : place + total length entries - size + size - place
        = total length entries := by omega
    rw [wrapped, distance, Nat.mod_eq_of_lt room]

/-- An entry written behind the head, over free places only, joins the queue as the last. -/
theorem push {entry : α} (queued : Queued length size memory tail head entries)
    (positive : 0 < length entry) (inside : head + length entry ≤ size)
    (room : total length entries + length entry < size) (written : other head = entry)
    (kept : ∀ place, place < head ∨ head + length entry ≤ place → other place = memory place)
    : Queued length size other tail ((head + length entry) % size) (entries ++ [entry]) := by
  obtain ⟨counter, rfl, rfl, laid, _⟩ := queued
  have same : ∀ i < total length entries,
      other ((counter + i) % size) = memory ((counter + i) % size) := by
    intro i below
    apply kept
    by_contra hit
    -- A place that is written over is a counter behind the head, less than a ring away.
    obtain ⟨gap, place⟩ : ∃ gap, (counter + i) % size
        = (counter + total length entries) % size + gap :=
      Nat.exists_eq_add_of_le (by omega)
    have behind : (counter + total length entries + gap) % size = (counter + i) % size := by
      rw [← Nat.mod_add_mod, ← place, Nat.mod_mod]
    have equal := eq_of_mod_eq (by omega) (by omega) behind.symm
    omega
  have last : LaidOut length size other (counter + total length entries) [entry] :=
    ⟨written, positive, inside, trivial⟩
  refine ⟨counter, rfl, ?_, (laidOut_append _ _ _).mpr ⟨laid.congr same, last⟩, ?_⟩
  · rw [Nat.mod_add_mod, total_append, total_cons, total_nil, Nat.add_zero, Nat.add_assoc]
  · rw [total_append, total_cons, total_nil]
    omega

end Queued

end Foundations.EntryRing
