import Mathlib.Data.Set.Function
import Mathlib.Algebra.Order.Ring.Nat

/-! The dm-linear script that joins the extents of a device in reverse order.
The number of extents is rounded down, and then one is taken off for the remainder.
-/

namespace LinuxDoc.DeviceMapper

def extentSize : Nat := 4 * 1024 * 2

/-- A line of the table: sectors of the new device from a start on, and where they are on the
underlying one.
-/
structure LinearLine where
  start : Nat
  length : Nat
  dev : String
  offset : Nat
  deriving DecidableEq, Repr

def extentCount (devSize : Nat) : Int :=
  (devSize / extentSize : Nat) - if devSize % extentSize ≠ 0 then 1 else 0

def reverseLoop (dev : String) : Nat → Nat → List LinearLine
  | 0, _ => []
  | extents + 1, count =>
      ⟨count * extentSize, extentSize, dev, extents * extentSize⟩
        :: reverseLoop dev extents (count + 1)

def reverseTable (dev : String) (devSize : Nat) : List LinearLine :=
  reverseLoop dev (extentCount devSize).toNat 0

def LinearLine.map (line : LinearLine) (sector : Nat) : Option Nat :=
  if line.start ≤ sector ∧ sector < line.start + line.length then
    some (line.offset + (sector - line.start))
  else none

def mapSector (table : List LinearLine) (sector : Nat) : Option Nat :=
  table.findSome? fun line => line.map sector

/-- The table for a number of extents: one after the other, onto the device from its last one
down.
-/
def reversedExtents (dev : String) (n : Nat) : List LinearLine :=
  (List.range n).map fun i =>
    ⟨i * extentSize, extentSize, dev, (n - 1 - i) * extentSize⟩

/-- The table maps all whole extents of the device in reverse order, which is a bijection of
their sectors and its own inverse, and stays on the device.
-/
structure ReversesAll (dev : String) (devSize : Nat) (table : List LinearLine) : Prop where
  extents : table = reversedExtents dev (devSize / extentSize)
  bijective : Set.BijOn (mapSector table) {s | s < devSize / extentSize * extentSize}
    (Set.image some {t | t < devSize / extentSize * extentSize})
  inverse : ∀ s t, mapSector table s = some t → mapSector table t = some s
  onDevice : ∀ s t, mapSector table s = some t → t < devSize

theorem extentSize_pos : 0 < extentSize := by
  decide

/-- The loop makes the lines for the extents that are left. -/
theorem reverseLoop_eq (dev : String) (extents count : Nat)
    : reverseLoop dev extents count
      = (List.range extents).map fun i =>
          ⟨(count + i) * extentSize, extentSize, dev, (extents - 1 - i) * extentSize⟩ := by
  induction extents generalizing count with
  | zero => rfl
  | succ extents ih =>
      rw [reverseLoop, ih, List.range_succ_eq_map, List.map_cons, List.map_map]
      refine List.cons_eq_cons.mpr ⟨by simp, ?_⟩
      refine List.map_congr_left fun i _ => ?_
      have start : count + 1 + i = count + (i + 1) := by omega
      have offset : extents - 1 - i = extents + 1 - 1 - (i + 1) := by omega
      simp only [Function.comp_apply, Nat.succ_eq_add_one, start, offset]

theorem reverseTable_eq (dev : String) (devSize : Nat)
    : reverseTable dev devSize = reversedExtents dev (extentCount devSize).toNat := by
  rw [reverseTable, reverseLoop_eq, reversedExtents]
  simp only [Nat.zero_add]

def opposite (n s : Nat) : Nat :=
  (n - 1 - s / extentSize) * extentSize + s % extentSize

section Opposite

variable {n s : Nat}

theorem opposite_div (n s : Nat) : opposite n s / extentSize = n - 1 - s / extentSize := by
  have below := Nat.mod_lt s extentSize_pos
  rw [opposite, Nat.mul_comm, Nat.mul_add_div extentSize_pos, Nat.div_eq_of_lt below, Nat.add_zero]

theorem opposite_mod (n s : Nat) : opposite n s % extentSize = s % extentSize := by
  rw [opposite, Nat.mul_comm, Nat.mul_add_mod, Nat.mod_mod]

theorem opposite_lt (inside : s < n * extentSize) : opposite n s < n * extentSize := by
  have extent : s / extentSize < n := (Nat.div_lt_iff_lt_mul extentSize_pos).mpr inside
  rw [← Nat.div_lt_iff_lt_mul extentSize_pos, opposite_div]
  generalize s / extentSize = i at extent ⊢
  omega

theorem opposite_opposite (inside : s < n * extentSize) : opposite n (opposite n s) = s := by
  have extent : s / extentSize < n := (Nat.div_lt_iff_lt_mul extentSize_pos).mpr inside
  have back : n - 1 - (n - 1 - s / extentSize) = s / extentSize := by
    generalize s / extentSize = i at extent ⊢
    omega
  rw [opposite, opposite_div, opposite_mod, back, Nat.mul_comm, Nat.div_add_mod]

end Opposite

section Mapping

variable {dev : String} {n s t : Nat}

/-- A sector is in the line of its extent only. -/
theorem line_map_eq (dev : String) (n i s : Nat)
    : (⟨i * extentSize, extentSize, dev, (n - 1 - i) * extentSize⟩ : LinearLine).map s
      = if i = s / extentSize then some (opposite n s) else none := by
  have ends : i * extentSize + extentSize = (i + 1) * extentSize := (Nat.succ_mul i extentSize).symm
  have extent : (i * extentSize ≤ s ∧ s < i * extentSize + extentSize) ↔ i = s / extentSize := by
    rw [ends, ← Nat.le_div_iff_mul_le extentSize_pos, ← Nat.div_lt_iff_lt_mul extentSize_pos]
    omega
  rw [LinearLine.map]
  simp only [extent]
  split
  next same =>
    have place : s - i * extentSize = s % extentSize := by
      rw [same, Nat.mul_comm, Nat.mod_eq_sub_mul_div]
    rw [place, opposite, same]
  · rfl

theorem findSome?_range_eq {α : Type} (n i : Nat) (value : α)
    : (List.range n).findSome? (fun j => if j = i then some value else none)
      = if i < n then some value else none := by
  induction n with
  | zero => simp
  | succ n ih =>
      rw [List.range_succ, List.findSome?_append, ih]
      by_cases below : i < n
      · simp [below, Nat.lt_succ_of_lt below]
      · by_cases last : n = i
        · simp [last]
        · have above : ¬ i < n + 1 := by omega
          simp [below, last, above]

/-- The reversed extents map the sectors of the extents, to the opposite ones. -/
theorem mapSector_reversedExtents (dev : String) (n s : Nat)
    : mapSector (reversedExtents dev n) s
      = if s < n * extentSize then some (opposite n s) else none := by
  have lines : (fun line : LinearLine => line.map s) ∘ (fun i =>
        ⟨i * extentSize, extentSize, dev, (n - 1 - i) * extentSize⟩)
      = fun i => if i = s / extentSize then some (opposite n s) else none := by
    funext i
    exact line_map_eq dev n i s
  rw [mapSector, reversedExtents, List.findSome?_map, lines, findSome?_range_eq]
  simp only [Nat.div_lt_iff_lt_mul extentSize_pos]

theorem mapSector_eq_some_iff
    : mapSector (reversedExtents dev n) s = some t
      ↔ s < n * extentSize ∧ t = opposite n s := by
  rw [mapSector_reversedExtents]
  split
  next inside => simp [inside, eq_comm]
  next outside => simp [outside]

theorem mapSector_opposite (dev : String) (inside : s < n * extentSize)
    : mapSector (reversedExtents dev n) s = some (opposite n s) :=
  mapSector_eq_some_iff.mpr ⟨inside, rfl⟩

theorem reversedExtents_inverse (h : mapSector (reversedExtents dev n) s = some t)
    : mapSector (reversedExtents dev n) t = some s := by
  obtain ⟨inside, rfl⟩ := mapSector_eq_some_iff.mp h
  exact mapSector_eq_some_iff.mpr ⟨opposite_lt inside, (opposite_opposite inside).symm⟩

theorem reversedExtents_bijOn (dev : String) (n : Nat)
    : Set.BijOn (mapSector (reversedExtents dev n)) {s | s < n * extentSize}
        (Set.image some {t | t < n * extentSize}) := by
  refine ⟨?_, ?_, ?_⟩
  · intro s inside
    exact ⟨opposite n s, opposite_lt inside, (mapSector_opposite dev inside).symm⟩
  · intro s inside t other same
    have toOpposite := mapSector_opposite dev inside
    have back := reversedExtents_inverse toOpposite
    rw [same] at toOpposite
    exact Option.some.inj (back.symm.trans (reversedExtents_inverse toOpposite))
  · intro image member
    obtain ⟨t, inside, rfl⟩ := member
    have toOpposite := mapSector_opposite dev inside
    exact ⟨opposite n t, opposite_lt inside, reversedExtents_inverse toOpposite⟩

end Mapping

/-- All whole extents are mapped exactly if there is no remainder that takes one off, or no extent
to take. Those that are in the table are always mapped in reverse, so their number decides.
-/
theorem reverseTable_reversesAll_iff (dev : String) (devSize : Nat)
    : ReversesAll dev devSize (reverseTable dev devSize)
      ↔ devSize % extentSize = 0 ∨ devSize < extentSize := by
  have whole : (extentCount devSize).toNat = devSize / extentSize
      ↔ devSize % extentSize = 0 ∨ devSize < extentSize := by
    have none : devSize / extentSize = 0 ↔ devSize < extentSize :=
      Nat.div_eq_zero_iff_lt extentSize_pos
    rw [← none, extentCount]
    generalize devSize / extentSize = n
    split <;> omega
  rw [reverseTable_eq, ← whole]
  constructor
  · intro reverses
    have lengths := congrArg List.length reverses.extents
    simpa [reversedExtents] using lengths
  · intro same
    rw [same]
    refine ⟨rfl, reversedExtents_bijOn dev _, fun s t => reversedExtents_inverse, ?_⟩
    intro s t h
    obtain ⟨inside, rfl⟩ := mapSector_eq_some_iff.mp h
    exact lt_of_lt_of_le (opposite_lt inside) (Nat.div_mul_le_self devSize extentSize)

/-- A device of one extent and one sector: the table is empty. -/
theorem oneSectorMore_unmapped
    : reverseTable "/dev/sdb" (extentSize + 1) = []
      ∧ ¬ ReversesAll "/dev/sdb" (extentSize + 1) (reverseTable "/dev/sdb" (extentSize + 1)) := by
  have empty : reverseTable "/dev/sdb" (extentSize + 1) = [] := by
    decide
  refine ⟨empty, ?_⟩
  intro reverses
  have extents := reverses.extents
  rw [empty] at extents
  exact absurd extents (by decide)

end LinuxDoc.DeviceMapper
