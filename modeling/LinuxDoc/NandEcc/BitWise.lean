import LinuxDoc.NandEcc.Ecc1

/-! The first program of the document, which computes the parities of a sector bit by bit.
Its line for even bytes takes `rp1` for `rp0`.
-/

namespace LinuxDoc.NandEcc

open Foundations

/-- The variables `rp0` to `rp15` and `cp0` to `cp5`, each a single bit. -/
structure Parities where
  rp : Fin 16 → BitVec 1
  cp : Fin 6 → BitVec 1

def Parities.bit (p : Parities) (k : Fin 22) : BitVec 1 :=
  if row : k.val < 16 then p.rp ⟨k.val, row⟩ else p.cp ⟨k.val - 16, column_lt k⟩

def Parities.zero : Parities :=
  ⟨fun _ => 0#1, fun _ => 0#1⟩

def bit (byte : BitVec 8) (j : Nat) : BitVec 1 :=
  byte.extractLsb' j 1

def allBits (byte : BitVec 8) : BitVec 1 :=
  bit byte 7 ^^^ bit byte 6 ^^^ bit byte 5 ^^^ bit byte 4 ^^^ bit byte 3 ^^^ bit byte 2
    ^^^ bit byte 1 ^^^ bit byte 0

/-- The first two branches of the loop: `rp1 = .. ^ rp1` for odd bytes, and `rp0 = .. ^ rp1`
for even ones.
-/
def coverFirst (i : Nat) (cur : BitVec 1) (rp : Fin 16 → BitVec 1) : Fin 16 → BitVec 1 :=
  if i &&& 0x01 ≠ 0 then Function.update rp 1 (cur ^^^ rp 1)
  else Function.update rp 0 (cur ^^^ rp 1)

def attempt0Turn (buf : Nat → BitVec 8) (p : Parities) (i : Nat) : Parities :=
  let byte := buf i
  let cur := allBits byte
  let rp := p.rp
  let rp := coverFirst i cur rp
  let rp := cover i 0x02 3 2 cur rp
  let rp := cover i 0x04 5 4 cur rp
  let rp := cover i 0x08 7 6 cur rp
  let rp := cover i 0x10 9 8 cur rp
  let rp := cover i 0x20 11 10 cur rp
  let rp := cover i 0x40 13 12 cur rp
  let rp := cover i 0x80 15 14 cur rp
  let cp := fun q : Fin 6 =>
    match q with
    | 0 => bit byte 6 ^^^ bit byte 4 ^^^ bit byte 2 ^^^ bit byte 0 ^^^ p.cp 0
    | 1 => bit byte 7 ^^^ bit byte 5 ^^^ bit byte 3 ^^^ bit byte 1 ^^^ p.cp 1
    | 2 => bit byte 5 ^^^ bit byte 4 ^^^ bit byte 1 ^^^ bit byte 0 ^^^ p.cp 2
    | 3 => bit byte 7 ^^^ bit byte 6 ^^^ bit byte 3 ^^^ bit byte 2 ^^^ p.cp 3
    | 4 => bit byte 3 ^^^ bit byte 2 ^^^ bit byte 1 ^^^ bit byte 0 ^^^ p.cp 4
    | 5 => bit byte 7 ^^^ bit byte 6 ^^^ bit byte 5 ^^^ bit byte 4 ^^^ p.cp 5
  ⟨rp, cp⟩

def attempt0 (buf : Nat → BitVec 8) : Parities :=
  (List.range 256).foldl (attempt0Turn buf) .zero

-- What the loop adds up

theorem bit_eq (byte : BitVec 8) (j : Nat)
    : bit byte j = BitVec.ofBool (byte.getLsbD j) := by
  apply BitVec.eq_of_getLsbD_eq
  intro n inside
  obtain rfl : n = 0 := by omega
  simp [bit]

theorem allBits_eq_parity (byte : BitVec 8)
    : allBits byte = parity byte := by
  simp only [allBits, bit_eq, parity, xorSum, BitVec.zero_xor]
  ac_rfl

theorem attempt0Turn_cp (buf : Nat → BitVec 8) (p : Parities) (i : Nat) (q : Fin 6)
    : (attempt0Turn buf p i).cp q = p.cp q ^^^ parity (buf i &&& columnMask q) := by
  have off : BitVec.ofBool false = 0#1 := rfl
  fin_cases q <;>
    simp [attempt0Turn, bit_eq, parity, xorSum, columnMask, off, -BitVec.ofBool_xor_ofBool] <;>
    ac_rfl

/-- The line for even bytes puts the wrong value into `rp0` and leaves the other rows alone. -/
theorem coverFirst_apply (i : Nat) (cur : BitVec 1) (rp : Fin 16 → BitVec 1) {r : Fin 16}
    (later : r ≠ 0)
    : coverFirst i cur rp r
      = rp r ^^^ (if r.val / 2 = 0 ∧ (i.testBit 0 == (r.val % 2 == 1)) then cur else 0#1) := by
  refine Eq.trans ?_ (cover_apply 0 0 i 0x01 1 0 cur rp r rfl rfl rfl)
  rw [coverFirst, cover]
  split
  · rw [BitVec.xor_comm]
  · rw [Function.update_of_ne later, Function.update_of_ne later]

theorem attempt0Turn_rp (buf : Nat → BitVec 8) (p : Parities) (i : Nat) {r : Fin 16}
    (later : r ≠ 0)
    : (attempt0Turn buf p i).rp r
      = p.rp r ^^^ (if covers r i then parity (buf i) else 0#1) := by
  simp only [attempt0Turn]
  rw [cover_rest, coverFirst_apply i _ _ later, allBits_eq_parity]
  rcases Nat.eq_zero_or_pos (r.val / 2) with first | other
  · simp [covers, first]
  · simp [other, Nat.ne_of_gt other]

theorem attempt0Turn_rp_zero (buf : Nat → BitVec 8) (p : Parities) (i : Nat)
    : (attempt0Turn buf p i).rp 0
      = if i &&& 0x01 ≠ 0 then p.rp 0 else parity (buf i) ^^^ p.rp 1 := by
  simp only [attempt0Turn]
  rw [cover_rest, coverFirst, allBits_eq_parity]
  split <;> simp

/-- A row parity is the sum of the parities of the bytes that it takes in. -/
theorem check_row (buf : Nat → BitVec 8) {k : Fin 22} (row : k.val < 16)
    : check buf k
      = xorSum 256 (fun i => if covers ⟨k.val, row⟩ i then parity (buf i) else 0#1) := by
  rw [check, xorSum_map parity parity_zero parity_xor]
  congr
  funext i
  rw [mask, dif_pos row]
  split
  · rw [show (0xff#8) = BitVec.allOnes 8 from rfl, BitVec.and_allOnes]
  · rw [BitVec.and_zero, parity_zero]

theorem check_column (buf : Nat → BitVec 8) {k : Fin 22} (column : ¬ k.val < 16)
    : check buf k
      = xorSum 256 (fun i => parity (buf i &&& columnMask ⟨k.val - 16, column_lt k⟩)) := by
  rw [check, xorSum_map parity parity_zero parity_xor]
  simp only [mask, dif_neg column]

/-- All parities but `rp0` come out right. -/
theorem attempt0_bit (buf : Nat → BitVec 8) {k : Fin 22} (later : k ≠ 0)
    : (attempt0 buf).bit k = check buf k := by
  rw [Parities.bit]
  by_cases row : k.val < 16
  · have nonzero : (⟨k.val, row⟩ : Fin 16) ≠ 0 := by
      intro zero
      exact later (Fin.ext (by simpa using congrArg Fin.val zero))
    rw [dif_pos row, check_row buf row, attempt0,
      foldl_range_xor (fun p : Parities => p.rp ⟨k.val, row⟩) (attempt0Turn buf) _
        (fun p i => attempt0Turn_rp buf p i nonzero)]
    exact BitVec.zero_xor
  · rw [dif_neg row, check_column buf row, attempt0,
      foldl_range_xor (fun p : Parities => p.cp ⟨k.val - 16, by omega⟩) (attempt0Turn buf) _
        (fun p i => attempt0Turn_cp buf p i _)]
    exact BitVec.zero_xor

-- The parity of the even bytes

/-- At the end `rp0` holds the parity of byte 254 and of the odd bytes before it. -/
theorem attempt0_rp_zero (buf : Nat → BitVec 8)
    : (attempt0 buf).rp 0
      = parity (buf 254)
        ^^^ xorSum 254 (fun i => if covers 1 i then parity (buf i) else 0#1) := by
  have last : attempt0 buf
      = attempt0Turn buf
          (attempt0Turn buf ((List.range 254).foldl (attempt0Turn buf) .zero) 254) 255 := by
    rw [attempt0, List.range_succ, List.range_succ, List.foldl_append, List.foldl_append]
    rfl
  rw [last, attempt0Turn_rp_zero, if_pos (by decide), attempt0Turn_rp_zero,
    if_neg (by decide),
    foldl_range_xor (fun p : Parities => p.rp 1) (attempt0Turn buf) _
      (fun p i => attempt0Turn_rp buf p i (by decide))]
  exact congrArg (parity (buf 254) ^^^ ·) BitVec.zero_xor

/-- The even and the odd bytes are all the bytes. -/
theorem xorSum_even_odd (f : Nat → BitVec 1) (n : Nat)
    : xorSum n (fun i => if covers 0 i then f i else 0#1)
        ^^^ xorSum n (fun i => if covers 1 i then f i else 0#1)
      = xorSum n f := by
  rw [← xorSum_xor]
  congr
  funext i
  rcases Nat.mod_two_eq_zero_or_one i with even | odd
  · simp [covers, even]
  · simp [covers, odd]

theorem attempt0_bit_zero_iff (buf : Nat → BitVec 8)
    : (attempt0 buf).bit 0 = check buf 0 ↔ parity (xorSum 254 buf) = 0#1 := by
  have even := xorSum_even_odd (fun i => parity (buf i)) 254
  have total : xorSum 256 (fun i => if covers 0 i then parity (buf i) else 0#1)
      = xorSum 254 (fun i => if covers 0 i then parity (buf i) else 0#1)
        ^^^ parity (buf 254) := by
    rw [xorSum, xorSum, if_pos (by decide), if_neg (by decide), BitVec.xor_zero]
  rw [check_row buf (by decide), xorSum_map parity parity_zero parity_xor, ← even]
  change (attempt0 buf).rp 0 = xorSum 256 (fun i => if covers 0 i then parity (buf i) else 0#1)
    ↔ _
  rw [attempt0_rp_zero, total]
  generalize xorSum 254 (fun i => if covers 0 i then parity (buf i) else 0#1) = evens
  generalize xorSum 254 (fun i => if covers 1 i then parity (buf i) else 0#1) = odds
  generalize parity (buf 254) = last
  revert evens odds last
  decide

/-- The loop computes the parity bits that `ecc1` packs, exactly for the sectors whose first 254
bytes have an even number of bits set. All other bits come out right (`attempt0_bit`), so `rp0`
decides.
-/
theorem attempt0_agrees_iff (buf : Nat → BitVec 8)
    : (∀ k, (attempt0 buf).bit k = ~~~ (ecc1 buf).parityBit k)
      ↔ parity (xorSum 254 buf) = 0#1 := by
  rw [← attempt0_bit_zero_iff]
  constructor
  · intro agrees
    rw [agrees 0, ecc1_parityBit, BitVec.not_not]
  · intro first k
    rw [ecc1_parityBit, BitVec.not_not]
    by_cases zero : k = 0
    · rw [zero, first]
    · exact attempt0_bit buf zero

def firstBitSet (i : Nat) : BitVec 8 :=
  if i = 0 then 1#8 else 0#8

theorem firstBitSet_disagrees
    : ¬ ∀ k, (attempt0 firstBitSet).bit k = ~~~ (ecc1 firstBitSet).parityBit k := by
  intro agrees
  have first := agrees 0
  rw [ecc1_parityBit, BitVec.not_not, attempt0_bit_zero_iff] at first
  revert first
  decide +kernel

end LinuxDoc.NandEcc
