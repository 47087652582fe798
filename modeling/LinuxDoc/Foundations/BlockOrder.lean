import Mathlib.Data.List.Nodup
import Mathlib.Data.List.Range
import Mathlib.Logic.Function.Basic

/-! Planes that are sent block by block, and arrays that are assigned to index by index. -/

namespace Foundations

section Assignments

variable {ι α : Type*} [DecidableEq ι]

structure Assign (ι α : Type*) where
  index : ι
  value : α

def assign (array : ι → α) (made : List (Assign ι α)) : ι → α :=
  made.foldl (fun array one => Function.update array one.index one.value) array

theorem assign_of_none {made : List (Assign ι α)} {index : ι}
    (none : made.filter (·.index = index) = []) (array : ι → α)
    : assign array made index = array index := by
  induction made generalizing array with
  | nil => rfl
  | cons one rest ih =>
      rw [List.filter_cons] at none
      split at none
      next => exact absurd none (List.cons_ne_nil _ _)
      next other =>
        have kept : index ≠ one.index := fun same => other (decide_eq_true same.symm)
        refine (ih none _).trans ?_
        exact Function.update_of_ne kept one.value array

/-- An index that is assigned to once keeps the value it was given. -/
theorem assign_of_once {made : List (Assign ι α)} {index : ι} {value : α}
    (once : made.filter (·.index = index) = [⟨index, value⟩]) (array : ι → α)
    : assign array made index = value := by
  induction made generalizing array with
  | nil => simp at once
  | cons one rest ih =>
      rw [List.filter_cons] at once
      split at once
      next =>
        obtain ⟨rfl, none⟩ := List.cons.inj once
        refine (assign_of_none none _).trans ?_
        exact Function.update_self index value array
      next => exact ih once _

/-- Every index below the size is assigned to exactly once, with its value, and no other. -/
structure FillsOnce (made : List (Assign Int α)) (size : Nat) (value : Nat → α) : Prop where
  once : ∀ index < size, made.filter (·.index = (index : Int)) = [⟨index, value index⟩]
  inside : ∀ one ∈ made, ∃ index < size, one.index = (index : Int)

/-- An array that is filled holds the values and is otherwise what it was. -/
theorem FillsOnce.assign_eq {made : List (Assign Int α)} {size : Nat} {value : Nat → α}
    (filled : FillsOnce made size value) (array : Int → α)
    : (∀ index < size, assign array made (index : Int) = value index)
      ∧ ∀ index : Int, (∀ n < size, index ≠ (n : Int)) →
          assign array made index = array index := by
  constructor
  · intro index inside
    exact assign_of_once (filled.once index inside) array
  · intro index outside
    apply assign_of_none
    rw [List.filter_eq_nil_iff]
    intro one member same
    obtain ⟨n, inside, stored⟩ := filled.inside one member
    exact outside n inside ((of_decide_eq_true same).symm.trans stored)

/-- A one-to-one enumeration of the indices fills the array. -/
theorem fillsOnce_of_inverse {size : Nat} {place back : Nat → Nat} (given : Nat → α)
    (place_lt : ∀ n < size, place n < size) (back_lt : ∀ index < size, back index < size)
    (place_back : ∀ index < size, place (back index) = index)
    (back_place : ∀ n < size, back (place n) = n)
    : FillsOnce ((List.range size).map fun n => (⟨(place n : Int), given n⟩ : Assign Int α))
        size (fun index => given (back index)) := by
  constructor
  · intro index inside
    have only : (List.range size).filter (fun n => decide ((place n : Int) = (index : Int)))
        = [back index] := by
      have same : (List.range size).filter (fun n => decide ((place n : Int) = (index : Int)))
          = (List.range size).filter (· = back index) := by
        apply List.filter_congr
        intro n member
        have below := List.mem_range.mp member
        rw [decide_eq_decide, Int.natCast_inj]
        constructor
        · intro placed
          rw [← placed, back_place n below]
        · intro enumerated
          rw [enumerated, place_back index inside]
      rw [same, List.filter_eq, List.count_eq_one_of_mem List.nodup_range
        (List.mem_range.mpr (back_lt index inside)), List.replicate_one]
    rw [List.filter_map]
    simp only [Function.comp_def, only, List.map_cons, List.map_nil, place_back index inside]
  · intro one member
    obtain ⟨n, below, rfl⟩ := List.mem_map.mp member
    exact ⟨place n, place_lt n (List.mem_range.mp below), rfl⟩

end Assignments

/-- Quotient and remainder of a number that is put together from them. -/
theorem divMod_eq {m r : Nat} (q : Nat) (below : r < m)
    : (q * m + r) / m = q ∧ (q * m + r) % m = r := by
  constructor
  · rw [Nat.mul_comm, Nat.mul_add_div (by omega), Nat.div_eq_of_lt below, Nat.add_zero]
  · rw [Nat.mul_comm, Nat.mul_add_mod, Nat.mod_eq_of_lt below]

/-- Numbers below a product, by quotient. -/
theorem range_mul (a b : Nat)
    : List.range (a * b) = (List.range a).flatMap fun p => (List.range b).map (p * b + ·) := by
  induction a with
  | zero => simp
  | succ a ih =>
      rw [Nat.succ_mul, List.range_add, ih, List.range_succ, List.flatMap_append,
        List.flatMap_singleton]

/-- Two nested counting loops are one, with the quotient and the remainder as counters. -/
theorem foldl_range_mul {σ : Type*} (step : σ → Nat → Nat → σ) (a b : Nat) (start : σ)
    : (List.range a).foldl (fun s p => (List.range b).foldl (fun s q => step s p q) s) start
      = (List.range (a * b)).foldl (fun s t => step s (t / b) (t % b)) start := by
  rw [range_mul, List.foldl_flatMap]
  apply List.foldl_ext
  intro s p _
  rw [List.foldl_map]
  apply List.foldl_ext
  intro s q member
  obtain ⟨quotient, remainder⟩ := divMod_eq p (List.mem_range.mp member)
  rw [quotient, remainder]

/-- A plane cut into blocks, sent from left to right and from top to bottom, each line by
line. -/
structure Blocks where
  width : Nat
  height : Nat
  across : Nat
  width_pos : 0 < width
  height_pos : 0 < height

namespace Blocks

variable (blocks : Blocks)

def row (n : Nat) : Nat :=
  blocks.height * (n / blocks.width / blocks.height / blocks.across)
    + n / blocks.width % blocks.height

def column (n : Nat) : Nat :=
  blocks.width * (n / blocks.width / blocks.height % blocks.across) + n % blocks.width

def source (y x : Nat) : Nat :=
  ((y / blocks.height * blocks.across + x / blocks.width) * blocks.height
    + y % blocks.height) * blocks.width + x % blocks.width

variable {blocks}

theorem column_lt (n : Nat) (some : 0 < blocks.across)
    : blocks.column n < blocks.width * blocks.across := by
  have inLine := Nat.mod_lt n blocks.width_pos
  have inRow := Nat.mod_lt (n / blocks.width / blocks.height) some
  calc
    blocks.column n
        < blocks.width * (n / blocks.width / blocks.height % blocks.across)
          + blocks.width := Nat.add_lt_add_left inLine _
    _ = blocks.width * (n / blocks.width / blocks.height % blocks.across + 1) :=
      (Nat.mul_succ _ _).symm
    _ ≤ blocks.width * blocks.across := Nat.mul_le_mul_left _ inRow

theorem row_lt {n down : Nat}
    (inside : n < down * blocks.across * blocks.height * blocks.width)
    : blocks.row n < blocks.height * down := by
  have inBlock := Nat.mod_lt (n / blocks.width) blocks.height_pos
  have inPlane : n / blocks.width / blocks.height / blocks.across < down := by
    apply Nat.div_lt_of_lt_mul
    apply Nat.div_lt_of_lt_mul
    apply Nat.div_lt_of_lt_mul
    calc
      n < down * blocks.across * blocks.height * blocks.width := inside
      _ = blocks.width * (blocks.height * (blocks.across * down)) := by
        rw [Nat.mul_comm down, Nat.mul_comm _ blocks.height, Nat.mul_comm _ blocks.width]
  calc
    blocks.row n
        < blocks.height * (n / blocks.width / blocks.height / blocks.across)
          + blocks.height := Nat.add_lt_add_left inBlock _
    _ = blocks.height * (n / blocks.width / blocks.height / blocks.across + 1) :=
      (Nat.mul_succ _ _).symm
    _ ≤ blocks.height * down := Nat.mul_le_mul_left _ inPlane

/-- The row and the column at which a value is placed determine which one it is. -/
theorem source_row_column (n : Nat)
    : blocks.source (blocks.row n) (blocks.column n) = n := by
  have rowParts := divMod_eq (n / blocks.width / blocks.height / blocks.across)
    (Nat.mod_lt (n / blocks.width) blocks.height_pos)
  have columnParts := divMod_eq (n / blocks.width / blocks.height % blocks.across)
    (Nat.mod_lt n blocks.width_pos)
  rw [Nat.mul_comm] at rowParts columnParts
  rw [source, row, column, rowParts.1, rowParts.2, columnParts.1, columnParts.2,
    Nat.div_add_mod', Nat.div_add_mod', Nat.div_add_mod']

section Inside

variable {y x : Nat} (inside : x < blocks.width * blocks.across)
include inside

/-- The parts of a value's number: its place in the line, the line, and the block. -/
theorem source_parts
    : blocks.source y x % blocks.width = x % blocks.width
      ∧ blocks.source y x / blocks.width % blocks.height = y % blocks.height
      ∧ blocks.source y x / blocks.width / blocks.height % blocks.across
          = x / blocks.width
      ∧ blocks.source y x / blocks.width / blocks.height / blocks.across
          = y / blocks.height := by
  have inLine := Nat.mod_lt x blocks.width_pos
  have inBlock := Nat.mod_lt y blocks.height_pos
  have inRow : x / blocks.width < blocks.across := Nat.div_lt_of_lt_mul inside
  rw [source, (divMod_eq _ inLine).1, (divMod_eq _ inLine).2, (divMod_eq _ inBlock).1,
    (divMod_eq _ inBlock).2, (divMod_eq _ inRow).1, (divMod_eq _ inRow).2]
  exact ⟨rfl, rfl, rfl, rfl⟩

theorem row_source : blocks.row (blocks.source y x) = y := by
  obtain ⟨_, line, _, block⟩ := source_parts (y := y) inside
  rw [row, line, block, Nat.div_add_mod]

theorem column_source : blocks.column (blocks.source y x) = x := by
  obtain ⟨place, _, block, _⟩ := source_parts (y := y) inside
  rw [column, place, block, Nat.div_add_mod]

theorem source_lt {down : Nat} (above : y < blocks.height * down)
    : blocks.source y x < down * blocks.across * blocks.height * blocks.width := by
  have inLine := Nat.mod_lt x blocks.width_pos
  have inBlock := Nat.mod_lt y blocks.height_pos
  have inRow : x / blocks.width < blocks.across := Nat.div_lt_of_lt_mul inside
  have inPlane : y / blocks.height < down := Nat.div_lt_of_lt_mul above
  -- Each part is below its bound, so the number is below the product of the bounds.
  have under {q r m bound : Nat} (q_lt : q < bound) (r_lt : r < m)
      : q * m + r < bound * m := by
    calc
      q * m + r < q * m + m := Nat.add_lt_add_left r_lt _
      _ = (q + 1) * m := (Nat.succ_mul q m).symm
      _ ≤ bound * m := Nat.mul_le_mul_right m q_lt
  exact under (under (under inPlane inRow) inBlock) inLine

end Inside

/-- A plane with a place in it has blocks side by side. -/
theorem across_pos {n down : Nat}
    (inside : n < down * blocks.across * blocks.height * blocks.width) : 0 < blocks.across := by
  apply Nat.pos_of_ne_zero
  intro none
  simp [none] at inside

theorem area_eq (down : Nat)
    : down * blocks.across * blocks.height * blocks.width
      = blocks.width * blocks.across * (blocks.height * down) := by
  ac_rfl

/-- Every value has its place in the plane. -/
theorem place_lt {n down : Nat}
    (inside : n < down * blocks.across * blocks.height * blocks.width)
    : blocks.row n * (blocks.width * blocks.across) + blocks.column n
      < down * blocks.across * blocks.height * blocks.width := by
  calc
    blocks.row n * (blocks.width * blocks.across) + blocks.column n
        < blocks.row n * (blocks.width * blocks.across) + blocks.width * blocks.across :=
      Nat.add_lt_add_left (column_lt n (across_pos inside)) _
    _ = (blocks.row n + 1) * (blocks.width * blocks.across) := (Nat.succ_mul _ _).symm
    _ ≤ blocks.height * down * (blocks.width * blocks.across) :=
      Nat.mul_le_mul_right _ (row_lt inside)
    _ = down * blocks.across * blocks.height * blocks.width := by
      rw [area_eq, Nat.mul_comm]

/-- Values that are sent block by block and placed by row and column fill the plane. -/
theorem fillsOnce {α : Type*} (blocks : Blocks) (down : Nat) (given : Nat → α)
    : FillsOnce
        ((List.range (down * blocks.across * blocks.height * blocks.width)).map fun n =>
          (⟨((blocks.row n * (blocks.width * blocks.across) + blocks.column n : Nat) : Int),
            given n⟩ : Assign Int α))
        (down * blocks.across * blocks.height * blocks.width)
        (fun index => given (blocks.source (index / (blocks.width * blocks.across))
          (index % (blocks.width * blocks.across)))) := by
  have columnBelow {index : Nat}
      (inside : index < down * blocks.across * blocks.height * blocks.width)
      : index % (blocks.width * blocks.across) < blocks.width * blocks.across :=
    Nat.mod_lt index (Nat.mul_pos blocks.width_pos (across_pos inside))
  apply fillsOnce_of_inverse given
  · intro n inside
    exact place_lt inside
  · intro index inside
    apply source_lt (columnBelow inside)
    apply Nat.div_lt_of_lt_mul
    rw [← area_eq]
    exact inside
  · intro index inside
    rw [row_source (columnBelow inside), column_source (columnBelow inside), Nat.div_add_mod']
  · intro n inside
    obtain ⟨atRow, atColumn⟩ := divMod_eq (blocks.row n) (column_lt n (across_pos inside))
    rw [atRow, atColumn, source_row_column]

end Blocks

end Foundations
