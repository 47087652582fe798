import LinuxDoc.Foundations.BlockOrder
import Mathlib.Algebra.GroupWithZero.Nat
import Mathlib.Tactic.Ring

/-! The HM12 format of the CX2341x encoder: `README.hm12` turns the macroblocks of a frame
into planes of luma and chroma values.
-/

namespace LinuxDoc.Hm12

open Foundations

def unsigned (value : Nat) : Nat := value % 2 ^ 32

def toInt (value : Nat) : Int :=
  if value < 2 ^ 31 then (value : Int) else (value : Int) - 2 ^ 32

def counts (stop step : Nat) : List Nat :=
  (List.range ((stop + step - 1) / step)).map (step * ·)

structure CopyY where
  src : Nat
  dst : List (Assign Int UInt8)

def lineY (frame : Nat → UInt8) (dstride : Nat) (s : CopyY) (y x i : Nat) : CopyY :=
  { src := s.src + 16
    dst := s.dst ++ (List.range 16).map fun k =>
      ⟨(x + unsigned ((y + i) * dstride) + k : Nat), frame (s.src + k)⟩ }

/-- `de_macro_y`, for dimensions that are not negative; `frame` is what `src` points to. -/
def deMacroY (frame : Nat → UInt8) (dstride w h : Nat) : CopyY :=
  (counts h 16).foldl (fun s y =>
    (counts w 16).foldl (fun s x =>
      (List.range 16).foldl (fun s i => lineY frame dstride s y x i) s) s)
    { src := 0, dst := [] }

structure CopyUv where
  src : Nat
  dstu : List (Assign Int UInt8)
  dstv : List (Assign Int UInt8)

def lineUv (frame : Nat → UInt8) (dstride : Nat) (s : CopyUv) (y x i : Nat) : CopyUv :=
  let idx := toInt (unsigned (x + (y + i) * dstride))
  { src := s.src + 16
    dstu := s.dstu ++ (List.range 8).map fun k => ⟨idx + k, frame (s.src + 2 * k)⟩
    dstv := s.dstv ++ (List.range 8).map fun k => ⟨idx + k, frame (s.src + (2 * k + 1))⟩ }

def deMacroUv (frame : Nat → UInt8) (dstride w h : Nat) : CopyUv :=
  (counts h 16).foldl (fun s y =>
    (counts w 8).foldl (fun s x =>
      (List.range 16).foldl (fun s i => lineUv frame dstride s y x i) s) s)
    { src := 0, dstu := [], dstv := [] }

def chromaLine (w y x : Nat) : Nat :=
  16 * (y / 16 * (w / 8) + x / 8) + y % 16

/-- A plane's rows one after the other: every byte is set once, to the value for its row and
column, and nothing else is set.
-/
structure Plane (made : List (Assign Int UInt8)) (w h : Nat) (value : Nat → Nat → UInt8)
    : Prop where
  once : FillsOnce made (w * h) fun index => value (index / w) (index % w)
  holds : ∀ (array : Int → UInt8), ∀ y < h, ∀ x < w,
    assign array made ((y * w + x : Nat) : Int) = value y x
  kept : ∀ (array : Int → UInt8) (index : Int), (∀ n < w * h, index ≠ (n : Int)) →
    assign array made index = array index

theorem plane_of_fillsOnce {made : List (Assign Int UInt8)} {w h : Nat}
    {value : Nat → Nat → UInt8}
    (filled : FillsOnce made (w * h) fun index => value (index / w) (index % w))
    : Plane made w h value := by
  refine ⟨filled, ?_, fun array => (filled.assign_eq array).2⟩
  intro array y above x beside
  obtain ⟨row, column⟩ := divMod_eq y beside
  have inside : y * w + x < w * h := by
    calc
      y * w + x < (y + 1) * w := by rw [Nat.succ_mul]; omega
      _ ≤ h * w := Nat.mul_le_mul_right w above
      _ = w * h := Nat.mul_comm h w
  have stored := (filled.assign_eq array).1 _ inside
  rwa [row, column] at stored

/-- What the conversion of a frame is to do: every byte of the three planes is set once, from
its place in the blocks, nothing is stored elsewhere, and the source pointers end behind
the bytes of the planes.
-/
structure Descrambled (luma chroma : Nat → UInt8) (w h : Nat) : Prop where
  y : Plane (deMacroY luma w w h).dst w h fun y x =>
    luma (256 * (y / 16 * (w / 16) + x / 16) + 16 * (y % 16) + x % 16)
  u : Plane (deMacroUv chroma (w / 2) (w / 2) (h / 2)).dstu (w / 2) (h / 2) fun y x =>
    chroma (16 * chromaLine (w / 2) y x + 2 * (x % 8))
  v : Plane (deMacroUv chroma (w / 2) (w / 2) (h / 2)).dstv (w / 2) (h / 2) fun y x =>
    chroma (16 * chromaLine (w / 2) y x + (2 * (x % 8) + 1))
  lumaRead : (deMacroY luma w w h).src = w * h
  chromaRead : (deMacroUv chroma (w / 2) (w / 2) (h / 2)).src = w * h / 2

theorem counts_of_dvd {stop step : Nat} (pos : 0 < step) (whole : step ∣ stop)
    : counts stop step = (List.range (stop / step)).map (step * ·) := by
  obtain ⟨times, rfl⟩ := whole
  rw [counts, Nat.add_sub_assoc pos, Nat.mul_add_div pos, Nat.div_eq_of_lt (by omega),
    Nat.mul_div_cancel_left times pos, Nat.add_zero]

/-- The three nested loops take the lines of the blocks in the order of their numbers. -/
theorem loops_eq {σ : Type*} (line : σ → Nat → Nat → Nat → σ) (blocks : Blocks) (down : Nat)
    (start : σ)
    : (counts (blocks.height * down) blocks.height).foldl (fun s y =>
        (counts (blocks.width * blocks.across) blocks.width).foldl (fun s x =>
          (List.range blocks.height).foldl (fun s i => line s y x i) s) s) start
      = (List.range (down * blocks.across * blocks.height)).foldl (fun s t =>
          line s (blocks.height * (t / blocks.height / blocks.across))
            (blocks.width * (t / blocks.height % blocks.across)) (t % blocks.height))
        start := by
  rw [counts_of_dvd blocks.height_pos (Nat.dvd_mul_right _ _),
    counts_of_dvd blocks.width_pos (Nat.dvd_mul_right _ _),
    Nat.mul_div_cancel_left _ blocks.height_pos, Nat.mul_div_cancel_left _ blocks.width_pos]
  simp only [List.foldl_map]
  rw [foldl_range_mul (fun s p q => (List.range blocks.height).foldl
      (fun s i => line s (blocks.height * p) (blocks.width * q) i) s),
    foldl_range_mul (fun s p q => line s (blocks.height * (p / blocks.across))
      (blocks.width * (p % blocks.across)) q)]

/-- Lines of `size` values, each taken where the source pointer stands, make up a plane of
values in the order of their numbers, by induction on the lines.
-/
theorem lines_eq {σ β : Type*} (line : σ → Nat → σ) (src : σ → Nat) (plane : σ → List β)
    (value : Nat → β) (size : Nat) {start : σ} (atStart : src start = 0)
    (empty : plane start = [])
    (step : ∀ s t, src s = 16 * t → src (line s t) = 16 * (t + 1)
      ∧ plane (line s t) = plane s ++ (List.range size).map fun k => value (t * size + k))
    (count : Nat)
    : src ((List.range count).foldl line start) = 16 * count
      ∧ plane ((List.range count).foldl line start)
        = (List.range (count * size)).map value := by
  induction count with
  | zero => simp [atStart, empty]
  | succ count ih =>
      obtain ⟨read, stored⟩ := ih
      obtain ⟨nextRead, nextStored⟩ := step _ count read
      simp only [List.range_succ, List.foldl_append, List.foldl_cons, List.foldl_nil,
        Nat.succ_mul, List.range_add, List.map_append, List.map_map, nextRead, nextStored, stored]
      exact ⟨trivial, rfl⟩

def lumaBlocks (across : Nat) : Blocks :=
  { width := 16, height := 16, across, width_pos := by decide, height_pos := by decide }

def chromaBlocks (across : Nat) : Blocks :=
  { width := 8, height := 16, across, width_pos := by decide, height_pos := by decide }

section Closed

variable (frame : Nat → UInt8) (across down : Nat)

def placeY (n : Nat) : Nat :=
  (lumaBlocks across).column n + unsigned ((lumaBlocks across).row n * (16 * across))

/-- `de_macro_y` stores the bytes of the frame in their order. -/
theorem deMacroY_eq
    : (deMacroY frame (16 * across) (16 * across) (16 * down)).src = 16 * (down * across * 16)
      ∧ (deMacroY frame (16 * across) (16 * across) (16 * down)).dst
        = (List.range (down * across * 16 * 16)).map fun n =>
            ⟨(placeY across n : Int), frame n⟩ := by
  have loops : deMacroY frame (16 * across) (16 * across) (16 * down) = _ :=
    loops_eq (lineY frame (16 * across)) (lumaBlocks across) down { src := 0, dst := [] }
  rw [loops]
  apply lines_eq _ CopyY.src CopyY.dst (fun n => ⟨(placeY across n : Int), frame n⟩) 16 rfl rfl
  intro s t read
  refine ⟨by simp only [lineY, read]; omega, ?_⟩
  simp only [lineY, read]
  congr 1
  apply List.map_congr_left
  intro k member
  obtain ⟨line, place⟩ := divMod_eq t (List.mem_range.mp member)
  simp only [placeY, lumaBlocks, Blocks.column, Blocks.row, line, place]
  congr 2
  · omega
  · omega

def placeUv (n : Nat) : Int :=
  toInt (unsigned (8 * (n / 8 / 16 % across) + (chromaBlocks across).row n * (8 * across)))
    + (n % 8 : Nat)

theorem lineUv_step (s : CopyUv) (t : Nat) (read : s.src = 16 * t)
    : (lineUv frame (8 * across) s (16 * (t / 16 / across)) (8 * (t / 16 % across))
          (t % 16)).dstu
        = s.dstu ++ ((List.range 8).map fun k =>
            ⟨placeUv across (t * 8 + k), frame (2 * (t * 8 + k))⟩)
      ∧ (lineUv frame (8 * across) s (16 * (t / 16 / across)) (8 * (t / 16 % across))
          (t % 16)).dstv
        = s.dstv ++ (List.range 8).map fun k =>
            ⟨placeUv across (t * 8 + k), frame (2 * (t * 8 + k) + 1)⟩ := by
  constructor
  all_goals
    simp only [lineUv, read]
    congr 1
    apply List.map_congr_left
    intro k member
    obtain ⟨line, place⟩ := divMod_eq t (List.mem_range.mp member)
    simp only [placeUv, chromaBlocks, Blocks.row, line, place]
    congr 2
    omega

/-- `de_macro_uv` stores the pairs of bytes in their order, the first of each as U and the
second as V.
-/
theorem deMacroUv_eq
    : (deMacroUv frame (8 * across) (8 * across) (16 * down)).src = 16 * (down * across * 16)
      ∧ (deMacroUv frame (8 * across) (8 * across) (16 * down)).dstu
        = ((List.range (down * across * 16 * 8)).map fun n =>
            ⟨placeUv across n, frame (2 * n)⟩)
      ∧ (deMacroUv frame (8 * across) (8 * across) (16 * down)).dstv
        = (List.range (down * across * 16 * 8)).map fun n =>
            ⟨placeUv across n, frame (2 * n + 1)⟩ := by
  have loops : deMacroUv frame (8 * across) (8 * across) (16 * down) = _ :=
    loops_eq (lineUv frame (8 * across)) (chromaBlocks across) down
      { src := 0, dstu := [], dstv := [] }
  have pointer (s : CopyUv) (t y x i : Nat) (read : s.src = 16 * t)
      : (lineUv frame (8 * across) s y x i).src = 16 * (t + 1) := by
    simp only [lineUv, read]
    omega
  rw [loops]
  refine ⟨?_, ?_, ?_⟩
  · exact (lines_eq _ CopyUv.src (fun _ => ([] : List Nat)) id 0 rfl rfl
      (fun s t read => ⟨pointer s t _ _ _ read, rfl⟩) _).1
  · exact (lines_eq _ CopyUv.src CopyUv.dstu (fun n => ⟨placeUv across n, frame (2 * n)⟩) 8
      rfl rfl
      (fun s t read => ⟨pointer s t _ _ _ read, (lineUv_step frame across s t read).1⟩) _).2
  · exact (lines_eq _ CopyUv.src CopyUv.dstv
      (fun n => ⟨placeUv across n, frame (2 * n + 1)⟩) 8 rfl rfl
      (fun s t read => ⟨pointer s t _ _ _ read, (lineUv_step frame across s t read).2⟩) _).2

variable {frame across down}

/-- Where no product wraps around, the luma plane is filled from the blocks. -/
theorem deMacroY_plane (fits : (16 * down - 1) * (16 * across) < 2 ^ 32)
    : Plane (deMacroY frame (16 * across) (16 * across) (16 * down)).dst (16 * across)
        (16 * down) fun y x =>
          frame (256 * (y / 16 * (16 * across / 16) + x / 16) + 16 * (y % 16) + x % 16) := by
  have places (n : Nat) (inside : n < down * across * 16 * 16)
      : placeY across n
        = (lumaBlocks across).row n * (16 * across) + (lumaBlocks across).column n := by
    have above : (lumaBlocks across).row n < 16 * down := Blocks.row_lt inside
    have small : (lumaBlocks across).row n * (16 * across) < 2 ^ 32 :=
      Nat.lt_of_le_of_lt (Nat.mul_le_mul_right _ (by omega)) fits
    rw [placeY, unsigned, Nat.mod_eq_of_lt small, Nat.add_comm]
  have stored : ((List.range (down * across * 16 * 16)).map fun n =>
        (⟨(placeY across n : Int), frame n⟩ : Assign Int UInt8))
      = (List.range (down * across * 16 * 16)).map fun n =>
        ⟨(((lumaBlocks across).row n * (16 * across) + (lumaBlocks across).column n : Nat) : Int),
          frame n⟩ := by
    apply List.map_congr_left
    intro n member
    rw [places n (List.mem_range.mp member)]
  have sources (y x : Nat)
      : 256 * (y / 16 * (16 * across / 16) + x / 16) + 16 * (y % 16) + x % 16
        = (lumaBlocks across).source y x := by
    simp only [Blocks.source, lumaBlocks, Nat.mul_div_cancel_left across (by decide : 0 < 16)]
    omega
  have area : 16 * across * (16 * down) = down * across * 16 * 16 :=
    ((lumaBlocks across).area_eq down).symm
  apply plane_of_fillsOnce
  simp only [(deMacroY_eq frame across down).2, area, stored, sources]
  exact (lumaBlocks across).fillsOnce down frame

/-- A wrapped product leaves the last byte of the luma plane unset. -/
theorem not_plane_of_wrap (wraps : 2 ^ 32 ≤ (16 * down - 1) * (16 * across))
    (value : Nat → Nat → UInt8)
    : ¬ Plane (deMacroY frame (16 * across) (16 * across) (16 * down)).dst (16 * across)
        (16 * down) value := by
  intro filled
  have wide : 0 < across := by
    apply Nat.pos_of_ne_zero
    intro none
    simp [none] at wraps
  have area : 16 * across * (16 * down)
      = (16 * down - 1) * (16 * across) + 16 * across := by
    rw [← Nat.succ_mul, Nat.mul_comm]
    congr 1
    have : 16 * down ≠ 0 := by
      intro none
      simp [none] at wraps
    omega
  have set := filled.once.once (16 * across * (16 * down) - 1) (by omega)
  have member : (⟨((16 * across * (16 * down) - 1 : Nat) : Int), _⟩ : Assign Int UInt8)
      ∈ (deMacroY frame (16 * across) (16 * across) (16 * down)).dst :=
    (List.mem_filter.mp (set ▸ List.mem_singleton.mpr rfl)).1
  rw [(deMacroY_eq frame across down).2] at member
  obtain ⟨n, _, placed⟩ := List.mem_map.mp member
  have index : placeY across n = 16 * across * (16 * down) - 1 :=
    Int.natCast_inj.mp (congrArg Assign.index placed)
  have column : (lumaBlocks across).column n < 16 * across := Blocks.column_lt n wide
  have wrapped : unsigned ((lumaBlocks across).row n * (16 * across)) < 2 ^ 32 :=
    Nat.mod_lt _ (by decide)
  rw [placeY] at index
  omega

/-- A chroma plane is filled from its half of the pairs. -/
theorem chroma_plane (given : Nat → UInt8) (fits : 8 * across * (16 * down) ≤ 2 ^ 31)
    : FillsOnce ((List.range (down * across * 16 * 8)).map fun n =>
          (⟨placeUv across n, given n⟩ : Assign Int UInt8)) (8 * across * (16 * down))
        fun index => given ((chromaBlocks across).source (index / (8 * across))
          (index % (8 * across))) := by
  have area : 8 * across * (16 * down) = down * across * 16 * 8 :=
    ((chromaBlocks across).area_eq down).symm
  have places (n : Nat) (inside : n < down * across * 16 * 8)
      : placeUv across n = (((chromaBlocks across).row n * (8 * across)
          + (chromaBlocks across).column n : Nat) : Int) := by
    have placed : (chromaBlocks across).row n * (8 * across)
        + (8 * (n / 8 / 16 % across) + n % 8) < down * across * 16 * 8 :=
      Blocks.place_lt inside
    have small : 8 * (n / 8 / 16 % across) + (chromaBlocks across).row n * (8 * across)
        < 2 ^ 31 := by omega
    have value : unsigned
        (8 * (n / 8 / 16 % across) + (chromaBlocks across).row n * (8 * across)) = _ :=
      Nat.mod_eq_of_lt (by omega)
    rw [placeUv, value, toInt, if_pos small, Blocks.column]
    simp only [chromaBlocks]
    omega
  have stored : ((List.range (down * across * 16 * 8)).map fun n =>
        (⟨placeUv across n, given n⟩ : Assign Int UInt8))
      = (List.range (down * across * 16 * 8)).map fun n =>
        ⟨(((chromaBlocks across).row n * (8 * across)
          + (chromaBlocks across).column n : Nat) : Int), given n⟩ := by
    apply List.map_congr_left
    intro n member
    rw [places n (List.mem_range.mp member)]
  rw [area, stored]
  exact (chromaBlocks across).fillsOnce down given

end Closed

/-- Where the luma offsets fit 32 bits, the chroma offsets fit 31. -/
theorem chroma_fits {across down : Nat} (fits : (32 * down - 1) * (16 * across) < 2 ^ 32)
    : 8 * across * (16 * down) ≤ 2 ^ 31 := by
  cases down with
  | zero => simp
  | succ down =>
      have rows : 32 * (down + 1) - 1 = 32 * down + 31 := by omega
      have luma : (32 * down + 31) * (16 * across) = 512 * (down * across) + 496 * across := by
        ring
      have chroma : 8 * across * (16 * (down + 1)) = 128 * (down * across) + 128 * across := by
        ring
      rw [rows, luma] at fits
      rw [chroma]
      omega

/-- The conversion is right exactly if the offset of the last luma row fits an `unsigned int`. Below
the bound the blocks fill each plane once; above it the last byte of luma stays unset.
-/
theorem descrambled_iff (luma chroma : Nat → UInt8) (w h : Nat) (columns : 16 ∣ w)
    (rows : 32 ∣ h)
    : Descrambled luma chroma w h ↔ (h - 1) * w < 2 ^ 32 := by
  obtain ⟨across, rfl⟩ := columns
  obtain ⟨down, rfl⟩ := rows
  have lumaRows : 32 * down = 16 * (2 * down) := by omega
  have chromaRows : 32 * down / 2 = 16 * down := by omega
  have chromaColumns : 16 * across / 2 = 8 * across := by omega
  constructor
  · intro descrambled
    by_contra wraps
    rw [lumaRows] at wraps
    have filled := descrambled.y
    rw [lumaRows] at filled
    exact not_plane_of_wrap (Nat.le_of_not_lt wraps) _ filled
  · intro fits
    obtain ⟨read, firsts, seconds⟩ := deMacroUv_eq chroma across down
    have halves (y x : Nat)
        : 16 * chromaLine (8 * across) y x + 2 * (x % 8)
          = 2 * (chromaBlocks across).source y x := by
      simp only [chromaLine, Blocks.source, chromaBlocks,
        Nat.mul_div_cancel_left across (by decide : 0 < 8)]
      omega
    constructor
    · rw [lumaRows] at fits ⊢
      exact deMacroY_plane fits
    · apply plane_of_fillsOnce
      simp only [chromaRows, chromaColumns, firsts, halves]
      exact chroma_plane (fun n => chroma (2 * n)) (chroma_fits fits)
    · apply plane_of_fillsOnce
      simp only [chromaRows, chromaColumns, seconds, ← Nat.add_assoc, halves]
      exact chroma_plane (fun n => chroma (2 * n + 1)) (chroma_fits fits)
    · rw [lumaRows, (deMacroY_eq luma across (2 * down)).1]
      ring
    · rw [chromaRows, chromaColumns, read]
      have half : 16 * across * (32 * down) = 16 * (down * across * 16) * 2 := by ring
      rw [half, Nat.mul_div_cancel _ (by decide)]

/-- The frames the program itself converts. -/
theorem descrambled_pal
    : (16 ∣ 720 ∧ 32 ∣ 576 ∧ (576 - 1) * 720 < 2 ^ 32)
      ∧ Descrambled (fun n => UInt8.ofNat n) (fun n => UInt8.ofNat n) 720 576 :=
  ⟨by decide, (descrambled_iff _ _ 720 576 (by decide) (by decide)).mpr (by decide)⟩

/-- In a frame of 65536 columns the row 65536 is stored over the first one. -/
theorem not_descrambled_of_4GiB
    : ¬ Descrambled (fun n => UInt8.ofNat n) (fun n => UInt8.ofNat n) 65536 65568 := by
  intro descrambled
  have wraps : 2 ^ 32 ≤ (16 * 4098 - 1) * (16 * 4096) := by decide
  exact not_plane_of_wrap wraps _ descrambled.y

end LinuxDoc.Hm12
