import LinuxDoc.Foundations.XorSum
import Mathlib.Data.Fintype.Basic
import Mathlib.Data.Nat.Bitwise
import Mathlib.Tactic.FinCases
import Mathlib.Tactic.IntervalCases

/-! The error correcting code of a 256-byte NAND sector, as the byte-wise program `ecc1`
computes it: 22 parities over halves of the rows and columns, in three inverted bytes.
-/

namespace LinuxDoc.NandEcc

open Foundations

def parityTable : List (BitVec 8) :=
  [ 0, 1, 1, 0, 1, 0, 0, 1, 1, 0, 0, 1, 0, 1, 1, 0,
    1, 0, 0, 1, 0, 1, 1, 0, 0, 1, 1, 0, 1, 0, 0, 1,
    1, 0, 0, 1, 0, 1, 1, 0, 0, 1, 1, 0, 1, 0, 0, 1,
    0, 1, 1, 0, 1, 0, 0, 1, 1, 0, 0, 1, 0, 1, 1, 0,
    1, 0, 0, 1, 0, 1, 1, 0, 0, 1, 1, 0, 1, 0, 0, 1,
    0, 1, 1, 0, 1, 0, 0, 1, 1, 0, 0, 1, 0, 1, 1, 0,
    0, 1, 1, 0, 1, 0, 0, 1, 1, 0, 0, 1, 0, 1, 1, 0,
    1, 0, 0, 1, 0, 1, 1, 0, 0, 1, 1, 0, 1, 0, 0, 1,
    1, 0, 0, 1, 0, 1, 1, 0, 0, 1, 1, 0, 1, 0, 0, 1,
    0, 1, 1, 0, 1, 0, 0, 1, 1, 0, 0, 1, 0, 1, 1, 0,
    0, 1, 1, 0, 1, 0, 0, 1, 1, 0, 0, 1, 0, 1, 1, 0,
    1, 0, 0, 1, 0, 1, 1, 0, 0, 1, 1, 0, 1, 0, 0, 1,
    0, 1, 1, 0, 1, 0, 0, 1, 1, 0, 0, 1, 0, 1, 1, 0,
    1, 0, 0, 1, 0, 1, 1, 0, 0, 1, 1, 0, 1, 0, 0, 1,
    1, 0, 0, 1, 0, 1, 1, 0, 0, 1, 1, 0, 1, 0, 0, 1,
    0, 1, 1, 0, 1, 0, 0, 1, 1, 0, 0, 1, 0, 1, 1, 0]

def parityAt (i : Nat) : BitVec 8 :=
  parityTable.getD i 0#8

instance neZero_rows : NeZero 16 :=
  ⟨by decide⟩

@[ext]
structure Accumulators (w : Nat) where
  par : BitVec w
  rp : Fin 16 → BitVec w

def Accumulators.zero (w : Nat) : Accumulators w :=
  ⟨0#w, fun _ => 0#w⟩

/-- `if (i & mask) odd ^= cur; else even ^= cur;` -/
def cover {w : Nat} (i mask : Nat) (odd even : Fin 16) (cur : BitVec w)
    (rp : Fin 16 → BitVec w) : Fin 16 → BitVec w :=
  if i &&& mask ≠ 0 then Function.update rp odd (rp odd ^^^ cur)
  else Function.update rp even (rp even ^^^ cur)

def ecc1Turn (buf : Nat → BitVec 8) (a : Accumulators 8) (i : Nat) : Accumulators 8 :=
  let cur := buf i
  let par := a.par ^^^ cur
  let rp := a.rp
  let rp := cover i 0x01 1 0 cur rp
  let rp := cover i 0x02 3 2 cur rp
  let rp := cover i 0x04 5 4 cur rp
  let rp := cover i 0x08 7 6 cur rp
  let rp := cover i 0x10 9 8 cur rp
  let rp := cover i 0x20 11 10 cur rp
  let rp := cover i 0x40 13 12 cur rp
  let rp := cover i 0x80 15 14 cur rp
  ⟨par, rp⟩

def ecc1Loop (buf : Nat → BitVec 8) : Accumulators 8 :=
  (List.range 256).foldl (ecc1Turn buf) (.zero 8)

@[ext]
structure Code where
  code0 : BitVec 8
  code1 : BitVec 8
  code2 : BitVec 8
  deriving DecidableEq, Repr

def generate (rp : Fin 16 → Nat) (par : Nat) : Code :=
  let code0 :=
    (parityAt (rp 7) <<< 7)
    ||| (parityAt (rp 6) <<< 6)
    ||| (parityAt (rp 5) <<< 5)
    ||| (parityAt (rp 4) <<< 4)
    ||| (parityAt (rp 3) <<< 3)
    ||| (parityAt (rp 2) <<< 2)
    ||| (parityAt (rp 1) <<< 1)
    ||| parityAt (rp 0)
  let code1 :=
    (parityAt (rp 15) <<< 7)
    ||| (parityAt (rp 14) <<< 6)
    ||| (parityAt (rp 13) <<< 5)
    ||| (parityAt (rp 12) <<< 4)
    ||| (parityAt (rp 11) <<< 3)
    ||| (parityAt (rp 10) <<< 2)
    ||| (parityAt (rp 9) <<< 1)
    ||| parityAt (rp 8)
  let code2 :=
    (parityAt (par &&& 0xf0) <<< 7)
    ||| (parityAt (par &&& 0x0f) <<< 6)
    ||| (parityAt (par &&& 0xcc) <<< 5)
    ||| (parityAt (par &&& 0x33) <<< 4)
    ||| (parityAt (par &&& 0xaa) <<< 3)
    ||| (parityAt (par &&& 0x55) <<< 2)
  ⟨~~~ code0, ~~~ code1, ~~~ code2⟩

def ecc1 (buf : Nat → BitVec 8) : Code :=
  let a := ecc1Loop buf
  generate (fun r => (a.rp r).toNat) a.par.toNat

-- The row parities

def covers (r : Fin 16) (i : Nat) : Bool :=
  i.testBit (r.val / 2) == (r.val % 2 == 1)

/-- One line of a loop adds what it read to the one row of its pair that a bit of the counter
selects.
-/
theorem cover_apply {w : Nat} (b h i mask : Nat) (odd even : Fin 16) (cur : BitVec w)
    (rp : Fin 16 → BitVec w) (r : Fin 16) (power : mask = 2 ^ b)
    (oddRow : odd.val = 2 * h + 1) (evenRow : even.val = 2 * h)
    : cover i mask odd even cur rp r
      = rp r ^^^ (if r.val / 2 = h ∧ (i.testBit b == (r.val % 2 == 1)) then cur else 0#w) := by
  have tested : i &&& mask ≠ 0 ↔ i.testBit b = true := by
    rw [power, Nat.and_two_pow]
    cases i.testBit b <;> simp
  have apart : odd ≠ even := by
    intro same
    rw [Fin.ext_iff] at same
    omega
  have oddHalf : odd.val / 2 = h := by omega
  have oddRest : odd.val % 2 = 1 := by omega
  have evenHalf : even.val / 2 = h := by omega
  have evenRest : even.val % 2 = 0 := by omega
  rw [cover]
  by_cases isOdd : r = odd
  · subst isOdd
    by_cases on : i.testBit b <;> simp [tested, on, oddHalf, oddRest, apart]
  · by_cases isEven : r = even
    · subst isEven
      by_cases on : i.testBit b <;> simp [tested, on, evenHalf, evenRest, isOdd]
    · have other : r.val / 2 ≠ h := by
        rw [Fin.ext_iff] at isOdd isEven
        omega
      by_cases on : i.testBit b <;> simp [tested, on, isOdd, isEven, other]

/-- The lines of the loop for all pairs but the first. -/
theorem cover_rest {w : Nat} (i : Nat) (cur : BitVec w) (rp : Fin 16 → BitVec w) (r : Fin 16)
    : cover i 0x80 15 14 cur (cover i 0x40 13 12 cur (cover i 0x20 11 10 cur
        (cover i 0x10 9 8 cur (cover i 0x08 7 6 cur (cover i 0x04 5 4 cur
          (cover i 0x02 3 2 cur rp)))))) r
      = rp r ^^^ (if 0 < r.val / 2 ∧ covers r i then cur else 0#w) := by
  have pair : r.val / 2 < 8 := by omega
  rw [cover_apply 7 7 i 0x80 15 14 cur _ r rfl rfl rfl,
    cover_apply 6 6 i 0x40 13 12 cur _ r rfl rfl rfl,
    cover_apply 5 5 i 0x20 11 10 cur _ r rfl rfl rfl,
    cover_apply 4 4 i 0x10 9 8 cur _ r rfl rfl rfl,
    cover_apply 3 3 i 0x08 7 6 cur _ r rfl rfl rfl,
    cover_apply 2 2 i 0x04 5 4 cur _ r rfl rfl rfl,
    cover_apply 1 1 i 0x02 3 2 cur _ r rfl rfl rfl, covers]
  generalize r.val / 2 = half at pair
  interval_cases half <;> simp

theorem ecc1Turn_rp (buf : Nat → BitVec 8) (a : Accumulators 8) (i : Nat) (r : Fin 16)
    : (ecc1Turn buf a i).rp r = a.rp r ^^^ (if covers r i then buf i else 0#8) := by
  simp only [ecc1Turn]
  rw [cover_rest, cover_apply 0 0 i 0x01 1 0 (buf i) _ r rfl rfl rfl]
  rcases Nat.eq_zero_or_pos (r.val / 2) with first | later
  · simp [covers, first]
  · simp [later, Nat.ne_of_gt later]

theorem ecc1Loop_rp (buf : Nat → BitVec 8) (r : Fin 16)
    : (ecc1Loop buf).rp r = xorSum 256 (fun i => if covers r i then buf i else 0#8) := by
  rw [ecc1Loop, foldl_range_xor (fun a => a.rp r) (ecc1Turn buf) _
    (fun a i => ecc1Turn_rp buf a i r)]
  exact BitVec.zero_xor

theorem ecc1Loop_par (buf : Nat → BitVec 8)
    : (ecc1Loop buf).par = xorSum 256 buf := by
  rw [ecc1Loop, foldl_range_xor Accumulators.par (ecc1Turn buf) buf (fun _ _ => rfl)]
  exact BitVec.zero_xor

-- The bits of the code

/-- The table holds the parity of each index. -/
theorem parityTable_eq
    : parityTable = (List.range 256).map fun n => (parity (BitVec.ofNat 8 n)).setWidth 8 := by
  decide +kernel

theorem parityAt_toNat (a : BitVec 8)
    : parityAt a.toNat = (parity a).setWidth 8 := by
  have inside : a.toNat < 256 := a.isLt
  rw [parityAt, parityTable_eq, List.getD_eq_getElem?_getD, List.getElem?_map,
    List.getElem?_range inside]
  simp

def packed (q : Fin 8 → BitVec 1) : BitVec 8 :=
  ((q 7).setWidth 8 <<< 7) ||| ((q 6).setWidth 8 <<< 6) ||| ((q 5).setWidth 8 <<< 5)
    ||| ((q 4).setWidth 8 <<< 4) ||| ((q 3).setWidth 8 <<< 3) ||| ((q 2).setWidth 8 <<< 2)
    ||| ((q 1).setWidth 8 <<< 1) ||| (q 0).setWidth 8

theorem getLsbD_shifted (q : BitVec 1) (j : Nat) {k : Nat} (inside : k < 8)
    : (q.setWidth 8 <<< j).getLsbD k = (decide (k = j) && q.getLsbD 0) := by
  rw [BitVec.getLsbD_shiftLeft, BitVec.getLsbD_setWidth]
  rcases Nat.lt_trichotomy k j with before | same | after
  · simp [before, Nat.ne_of_lt before]
  · subst same
    simp [inside]
  · rw [BitVec.getLsbD_of_ge q (k - j) (by omega)]
    simp [Nat.ne_of_gt after]

theorem extract_not_packed (q : Fin 8 → BitVec 1) (k : Fin 8)
    : (~~~ packed q).extractLsb' k.val 1 = ~~~ q k := by
  apply BitVec.eq_of_getLsbD_eq
  intro n inside
  obtain rfl : n = 0 := by omega
  have last := getLsbD_shifted (q 0) 0 k.isLt
  rw [BitVec.shiftLeft_zero] at last
  simp only [packed, BitVec.getLsbD_extractLsb', BitVec.getLsbD_not, BitVec.getLsbD_or,
    Nat.add_zero, getLsbD_shifted _ _ k.isLt, last, k.isLt]
  fin_cases k <;> simp

/-- The parity bits in the order of the table of the code bytes: `rp0` to `rp15`, then `cp0`
to `cp5`. They are stored inverted.
-/
def Code.parityBit (code : Code) (k : Fin 22) : BitVec 1 :=
  if k.val < 8 then code.code0.extractLsb' k.val 1
  else if k.val < 16 then code.code1.extractLsb' (k.val - 8) 1
  else code.code2.extractLsb' (k.val - 14) 1

def columnMask (q : Fin 6) : BitVec 8 :=
  match q with
  | 0 => 0x55#8
  | 1 => 0xaa#8
  | 2 => 0x33#8
  | 3 => 0xcc#8
  | 4 => 0x0f#8
  | 5 => 0xf0#8

theorem column_lt (k : Fin 22) : k.val - 16 < 6 := by
  omega

def mask (k : Fin 22) (i : Nat) : BitVec 8 :=
  if row : k.val < 16 then
    if covers ⟨k.val, row⟩ i then 0xff#8 else 0#8
  else columnMask ⟨k.val - 16, column_lt k⟩

/-- The parity over the bits of the sector that parity bit `k` takes in. -/
def check (buf : Nat → BitVec 8) (k : Fin 22) : BitVec 1 :=
  parity (xorSum 256 (fun i => buf i &&& mask k i))

theorem generate_code0 (rp : Fin 16 → BitVec 8) (par : BitVec 8)
    : (generate (fun r => (rp r).toNat) par.toNat).code0
      = ~~~ packed (fun j => parity (rp ⟨j.val, by omega⟩)) := by
  simp only [generate, parityAt_toNat]
  rfl

theorem generate_code1 (rp : Fin 16 → BitVec 8) (par : BitVec 8)
    : (generate (fun r => (rp r).toNat) par.toNat).code1
      = ~~~ packed (fun j => parity (rp ⟨j.val + 8, by omega⟩)) := by
  simp only [generate, parityAt_toNat]
  rfl

/-- The two low bits of the third byte hold no parity. -/
theorem generate_code2 (rp : Fin 16 → BitVec 8) (par : BitVec 8)
    : (generate (fun r => (rp r).toNat) par.toNat).code2
      = ~~~ packed (fun j =>
          if column : 2 ≤ j.val then parity (par &&& columnMask ⟨j.val - 2, by omega⟩)
          else 0#1) := by
  have masked (m : BitVec 8)
      : parityAt (par.toNat &&& m.toNat) = (parity (par &&& m)).setWidth 8 := by
    rw [← BitVec.toNat_and, parityAt_toNat]
  change ~~~ ((parityAt (par.toNat &&& (0xf0#8).toNat) <<< 7)
    ||| (parityAt (par.toNat &&& (0x0f#8).toNat) <<< 6)
    ||| (parityAt (par.toNat &&& (0xcc#8).toNat) <<< 5)
    ||| (parityAt (par.toNat &&& (0x33#8).toNat) <<< 4)
    ||| (parityAt (par.toNat &&& (0xaa#8).toNat) <<< 3)
    ||| (parityAt (par.toNat &&& (0x55#8).toNat) <<< 2)) = _
  rw [masked, masked, masked, masked, masked, masked]
  simp [packed, columnMask]

theorem generate_parityBit (rp : Fin 16 → BitVec 8) (par : BitVec 8) (k : Fin 22)
    : (generate (fun r => (rp r).toNat) par.toNat).parityBit k
      = ~~~ (if row : k.val < 16 then parity (rp ⟨k.val, row⟩)
          else parity (par &&& columnMask ⟨k.val - 16, by omega⟩)) := by
  rw [Code.parityBit]
  by_cases first : k.val < 8
  · have row : k.val < 16 := by omega
    rw [if_pos first, dif_pos row, generate_code0]
    exact extract_not_packed _ ⟨k.val, first⟩
  · by_cases second : k.val < 16
    · rw [if_neg first, if_pos second, dif_pos second, generate_code1]
      have placed := extract_not_packed (fun j => parity (rp ⟨j.val + 8, by omega⟩))
        ⟨k.val - 8, by omega⟩
      simpa only [Nat.sub_add_cancel (Nat.le_of_not_lt first)] using placed
    · rw [if_neg first, if_neg second, dif_neg second, generate_code2]
      have column : 2 ≤ k.val - 14 := by omega
      rw [extract_not_packed _ ⟨k.val - 14, by omega⟩, dif_pos column]
      rfl

/-- The 22 parity bits of `ecc1` are the inverted parities over what each of them takes in. -/
theorem ecc1_parityBit (buf : Nat → BitVec 8) (k : Fin 22)
    : (ecc1 buf).parityBit k = ~~~ check buf k := by
  rw [ecc1, generate_parityBit, check]
  congr 1
  by_cases row : k.val < 16
  · rw [dif_pos row, ecc1Loop_rp]
    congr 2
    funext i
    rw [mask, dif_pos row]
    split
    · exact BitVec.and_allOnes.symm
    · exact BitVec.and_zero.symm
  · rw [dif_neg row, ecc1Loop_par]
    simp only [xorSum_and, mask, dif_neg row]

end LinuxDoc.NandEcc
