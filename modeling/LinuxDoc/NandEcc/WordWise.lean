import LinuxDoc.NandEcc.Ecc1

/-! The programs that read a sector in 32-bit words, on a little-endian machine: `ecc2`, and the
unrolled loops that replace its loop.
-/

namespace LinuxDoc.NandEcc

open Foundations

def loadWord (buf : Nat → BitVec 8) (i : Nat) : BitVec 32 :=
  (buf (4 * i)).setWidth 32
    ||| ((buf (4 * i + 1)).setWidth 32 <<< 8)
    ||| ((buf (4 * i + 2)).setWidth 32 <<< 16)
    ||| ((buf (4 * i + 3)).setWidth 32 <<< 24)

def ecc2Turn (word : Nat → BitVec 32) (a : Accumulators 32) (i : Nat) : Accumulators 32 :=
  let cur := word i
  let par := a.par ^^^ cur
  let rp := a.rp
  let rp := cover i 0x01 5 4 cur rp
  let rp := cover i 0x02 7 6 cur rp
  let rp := cover i 0x04 9 8 cur rp
  let rp := cover i 0x08 11 10 cur rp
  let rp := cover i 0x10 13 12 cur rp
  let rp := cover i 0x20 15 14 cur rp
  ⟨par, rp⟩

def ecc2Loop (word : Nat → BitVec 32) : Accumulators 32 :=
  (List.range 64).foldl (ecc2Turn word) (.zero 32)

def narrow (rp : BitVec 32) : BitVec 32 :=
  let rp := rp ^^^ (rp >>> 16)
  let rp := rp ^^^ (rp >>> 8)
  rp &&& 0xff#32

def ecc2Code (a : Accumulators 32) : Code :=
  let par := a.par
  let rp3 := par >>> 16
  let rp3 := rp3 ^^^ (rp3 >>> 8)
  let rp3 := rp3 &&& 0xff#32
  let rp2 := par &&& 0xffff#32
  let rp2 := rp2 ^^^ (rp2 >>> 8)
  let rp2 := rp2 &&& 0xff#32
  let par := par ^^^ (par >>> 16)
  let rp1 := par >>> 8
  let rp1 := rp1 &&& 0xff#32
  let rp0 := par &&& 0xff#32
  let par := par ^^^ (par >>> 8)
  let par := par &&& 0xff#32
  let rp := fun r : Fin 16 =>
    match r with
    | 0 => rp0
    | 1 => rp1
    | 2 => rp2
    | 3 => rp3
    | r => narrow (a.rp r)
  generate (fun r => (rp r).toNat) par.toNat

def ecc2 (buf : Nat → BitVec 8) : Code :=
  ecc2Code (ecc2Loop (loadWord buf))

structure Running where
  par : BitVec 32
  rp4 : BitVec 32
  rp6 : BitVec 32
  rp8 : BitVec 32
  rp10 : BitVec 32
  rp12 : BitVec 32
  rp14 : BitVec 32

def Running.zero : Running :=
  ⟨0#32, 0#32, 0#32, 0#32, 0#32, 0#32, 0#32⟩

/-- The odd row parities as they follow from the even ones: `rp5 = par ^ rp4;` and so on. -/
def Running.accumulators (a : Running) : Accumulators 32 where
  par := a.par
  rp r :=
    match r with
    | 4 => a.rp4
    | 5 => a.par ^^^ a.rp4
    | 6 => a.rp6
    | 7 => a.par ^^^ a.rp6
    | 8 => a.rp8
    | 9 => a.par ^^^ a.rp8
    | 10 => a.rp10
    | 11 => a.par ^^^ a.rp10
    | 12 => a.rp12
    | 13 => a.par ^^^ a.rp12
    | 14 => a.rp14
    | 15 => a.par ^^^ a.rp14
    | _ => 0#32

def attempt6Turn (word : Nat → BitVec 32) (a : Running) (i : Nat) : Running :=
  let ⟨par, rp4, rp6, rp8, rp10, rp12, rp14⟩ := a
  let cur := word (16 * i); let tmppar := cur; let rp4 := rp4 ^^^ cur
  let cur := word (16 * i + 1); let tmppar := tmppar ^^^ cur; let rp6 := rp6 ^^^ tmppar
  let cur := word (16 * i + 2); let tmppar := tmppar ^^^ cur; let rp4 := rp4 ^^^ cur
  let cur := word (16 * i + 3); let tmppar := tmppar ^^^ cur; let rp8 := rp8 ^^^ tmppar
  let cur := word (16 * i + 4); let tmppar := tmppar ^^^ cur; let rp4 := rp4 ^^^ cur
  let rp6 := rp6 ^^^ cur
  let cur := word (16 * i + 5); let tmppar := tmppar ^^^ cur; let rp6 := rp6 ^^^ cur
  let cur := word (16 * i + 6); let tmppar := tmppar ^^^ cur; let rp4 := rp4 ^^^ cur
  let cur := word (16 * i + 7); let tmppar := tmppar ^^^ cur; let rp10 := rp10 ^^^ tmppar
  let cur := word (16 * i + 8); let tmppar := tmppar ^^^ cur; let rp4 := rp4 ^^^ cur
  let rp6 := rp6 ^^^ cur; let rp8 := rp8 ^^^ cur
  let cur := word (16 * i + 9); let tmppar := tmppar ^^^ cur; let rp6 := rp6 ^^^ cur
  let rp8 := rp8 ^^^ cur
  let cur := word (16 * i + 10); let tmppar := tmppar ^^^ cur; let rp4 := rp4 ^^^ cur
  let rp8 := rp8 ^^^ cur
  let cur := word (16 * i + 11); let tmppar := tmppar ^^^ cur; let rp8 := rp8 ^^^ cur
  let cur := word (16 * i + 12); let tmppar := tmppar ^^^ cur; let rp4 := rp4 ^^^ cur
  let rp6 := rp6 ^^^ cur
  let cur := word (16 * i + 13); let tmppar := tmppar ^^^ cur; let rp6 := rp6 ^^^ cur
  let cur := word (16 * i + 14); let tmppar := tmppar ^^^ cur; let rp4 := rp4 ^^^ cur
  let cur := word (16 * i + 15); let tmppar := tmppar ^^^ cur
  let par := par ^^^ tmppar
  let rp12 := if i &&& 0x1 = 0 then rp12 ^^^ tmppar else rp12
  let rp14 := if i &&& 0x2 = 0 then rp14 ^^^ tmppar else rp14
  ⟨par, rp4, rp6, rp8, rp10, rp12, rp14⟩

def attempt6Loop (word : Nat → BitVec 32) : Accumulators 32 :=
  ((List.range 4).foldl (attempt6Turn word) .zero).accumulators

def attempt7Turn (word : Nat → BitVec 32) (s : Running × BitVec 32) (i : Nat)
    : Running × BitVec 32 :=
  let ⟨⟨par, rp4, rp6, rp8, rp10, rp12, rp14⟩, rp4_6⟩ := s
  let cur := word (16 * i); let tmppar := cur; let rp4 := rp4 ^^^ cur
  let cur := word (16 * i + 1); let tmppar := tmppar ^^^ cur; let rp6 := rp6 ^^^ tmppar
  let cur := word (16 * i + 2); let tmppar := tmppar ^^^ cur; let rp4 := rp4 ^^^ cur
  let cur := word (16 * i + 3); let tmppar := tmppar ^^^ cur; let rp8 := rp8 ^^^ tmppar
  let cur := word (16 * i + 4); let tmppar := tmppar ^^^ cur; let rp4_6 := rp4_6 ^^^ cur
  let cur := word (16 * i + 5); let tmppar := tmppar ^^^ cur; let rp6 := rp6 ^^^ cur
  let cur := word (16 * i + 6); let tmppar := tmppar ^^^ cur; let rp4 := rp4 ^^^ cur
  let cur := word (16 * i + 7); let tmppar := tmppar ^^^ cur; let rp10 := rp10 ^^^ tmppar
  let notrp8 := tmppar
  let cur := word (16 * i + 8); let tmppar := tmppar ^^^ cur; let rp4_6 := rp4_6 ^^^ cur
  let cur := word (16 * i + 9); let tmppar := tmppar ^^^ cur; let rp6 := rp6 ^^^ cur
  let cur := word (16 * i + 10); let tmppar := tmppar ^^^ cur; let rp4 := rp4 ^^^ cur
  let cur := word (16 * i + 11); let tmppar := tmppar ^^^ cur
  let rp8 := rp8 ^^^ tmppar ^^^ notrp8
  let cur := word (16 * i + 12); let tmppar := tmppar ^^^ cur; let rp4_6 := rp4_6 ^^^ cur
  let cur := word (16 * i + 13); let tmppar := tmppar ^^^ cur; let rp6 := rp6 ^^^ cur
  let cur := word (16 * i + 14); let tmppar := tmppar ^^^ cur; let rp4 := rp4 ^^^ cur
  let cur := word (16 * i + 15); let tmppar := tmppar ^^^ cur
  let par := par ^^^ tmppar
  let rp12 := if i &&& 0x1 = 0 then rp12 ^^^ tmppar else rp12
  let rp14 := if i &&& 0x2 = 0 then rp14 ^^^ tmppar else rp14
  ⟨⟨par, rp4, rp6, rp8, rp10, rp12, rp14⟩, rp4_6⟩

/-- The loop of attempt 7, with the corrections `rp4 ^= rp4_6; rp6 ^= rp4_6;` after it. -/
def attempt7Loop (word : Nat → BitVec 32) : Accumulators 32 :=
  let ⟨a, rp4_6⟩ := (List.range 4).foldl (attempt7Turn word) (.zero, 0#32)
  Running.accumulators
    ⟨a.par, a.rp4 ^^^ rp4_6, a.rp6 ^^^ rp4_6, a.rp8, a.rp10, a.rp12, a.rp14⟩

-- The loop over words

def coversWord (r : Fin 16) (i : Nat) : Bool :=
  decide (2 ≤ r.val / 2) && (i.testBit (r.val / 2 - 2) == (r.val % 2 == 1))

theorem ecc2Turn_rp (word : Nat → BitVec 32) (a : Accumulators 32) (i : Nat) (r : Fin 16)
    : (ecc2Turn word a i).rp r = a.rp r ^^^ (if coversWord r i then word i else 0#32) := by
  have pair : r.val / 2 < 8 := by omega
  simp only [ecc2Turn]
  rw [cover_apply 5 7 i 0x20 15 14 (word i) _ r rfl rfl rfl,
    cover_apply 4 6 i 0x10 13 12 (word i) _ r rfl rfl rfl,
    cover_apply 3 5 i 0x08 11 10 (word i) _ r rfl rfl rfl,
    cover_apply 2 4 i 0x04 9 8 (word i) _ r rfl rfl rfl,
    cover_apply 1 3 i 0x02 7 6 (word i) _ r rfl rfl rfl,
    cover_apply 0 2 i 0x01 5 4 (word i) _ r rfl rfl rfl, coversWord]
  generalize r.val / 2 = half at pair
  interval_cases half <;> simp

theorem ecc2Loop_rp (word : Nat → BitVec 32) (r : Fin 16)
    : (ecc2Loop word).rp r = xorSum 64 (fun i => if coversWord r i then word i else 0#32) := by
  rw [ecc2Loop, foldl_range_xor (fun a => a.rp r) (ecc2Turn word) _
    (fun a i => ecc2Turn_rp word a i r)]
  exact BitVec.zero_xor

theorem ecc2Loop_par (word : Nat → BitVec 32)
    : (ecc2Loop word).par = xorSum 64 word := by
  rw [ecc2Loop, foldl_range_xor Accumulators.par (ecc2Turn word) word (fun _ _ => rfl)]
  exact BitVec.zero_xor

-- From words to bytes

def byteOf (x : BitVec 32) (k : Nat) : BitVec 8 :=
  x.extractLsb' (8 * k) 8

theorem byteOf_xorSum (f : Nat → BitVec 32) (n k : Nat)
    : byteOf (xorSum n f) k = xorSum n (fun i => byteOf (f i) k) :=
  xorSum_map (byteOf · k) (by simp [byteOf]) (fun _ _ => BitVec.extractLsb'_xor) f n

theorem getLsbD_byteOf (x : BitVec 32) (k : Nat) {n : Nat} (inside : n < 8)
    : (byteOf x k).getLsbD n = x.getLsbD (8 * k + n) := by
  simp [byteOf, inside]

theorem byteOf_loadWord (buf : Nat → BitVec 8) (i : Nat) {k : Nat} (inside : k < 4)
    : byteOf (loadWord buf i) k = buf (4 * i + k) := by
  apply BitVec.eq_of_getLsbD_eq
  intro n bound
  -- each of the four bytes is shifted past the others
  have past (j : Nat) (out : 8 ≤ j) (m : Nat) : (buf m).getLsbD j = false :=
    BitVec.getLsbD_of_ge _ _ out
  rw [getLsbD_byteOf _ _ bound]
  simp only [loadWord, BitVec.getLsbD_or, BitVec.getLsbD_shiftLeft, BitVec.getLsbD_setWidth]
  interval_cases k
  · simp [show n < 16 by omega, show n < 24 by omega, show n < 32 by omega, bound]
  · simp [show 8 + n < 16 by omega, show 8 + n < 24 by omega, show 8 + n < 32 by omega,
      show n < 32 by omega]
  · simp [show 16 + n < 24 by omega, show 16 + n < 32 by omega, past (16 + n) (by omega),
      past (16 + n - 8) (by omega), show ¬ 16 + n < 8 by omega, show n < 32 by omega]
  · simp [show 24 + n < 32 by omega, past (24 + n) (by omega), past (24 + n - 8) (by omega),
      past (24 + n - 16) (by omega), show ¬ 24 + n < 8 by omega, show ¬ 24 + n < 16 by omega,
      show n < 32 by omega]

theorem and_low_eq {x : BitVec 32} {y : BitVec 8} (low : ∀ n < 8, x.getLsbD n = y.getLsbD n)
    : (x &&& 0xff#32).toNat = y.toNat := by
  have masked : x &&& 0xff#32 = y.setWidth 32 := by
    apply BitVec.eq_of_getLsbD_eq
    intro n bound
    have mask : ∀ n < 32, (0xff#32).getLsbD n = decide (n < 8) := by decide
    rw [BitVec.getLsbD_and, mask n bound, BitVec.getLsbD_setWidth]
    rcases Nat.lt_or_ge n 8 with inside | outside
    · rw [low n inside]
      simp [inside, bound]
    · simp [Nat.not_lt.mpr outside, BitVec.getLsbD_of_ge y n outside]
  rw [masked, BitVec.toNat_setWidth_of_le (by decide)]

def bytesSum (x : BitVec 32) : BitVec 8 :=
  byteOf x 0 ^^^ byteOf x 1 ^^^ byteOf x 2 ^^^ byteOf x 3

/-- Shifting and adding twice brings the bytes of a word together in the lowest one. -/
theorem narrow_toNat (x : BitVec 32)
    : (narrow x).toNat = (bytesSum x).toNat := by
  apply and_low_eq
  intro n inside
  simp only [bytesSum, BitVec.getLsbD_xor, BitVec.getLsbD_ushiftRight, getLsbD_byteOf _ _ inside]
  rw [← Nat.add_assoc 16 8 n]
  simp only [Nat.mul_zero, Nat.zero_add, Nat.mul_one, Nat.reduceMul, Nat.reduceAdd,
    Bool.xor_assoc, Bool.xor_left_comm]

def rowBytes (a : Accumulators 32) (r : Fin 16) : BitVec 8 :=
  match r with
  | 0 => byteOf a.par 0 ^^^ byteOf a.par 2
  | 1 => byteOf a.par 1 ^^^ byteOf a.par 3
  | 2 => byteOf a.par 0 ^^^ byteOf a.par 1
  | 3 => byteOf a.par 2 ^^^ byteOf a.par 3
  | r => bytesSum (a.rp r)

/-- The rows inside a word are taken from the bytes of `par`, the others from their own sums. -/
theorem ecc2Code_eq (a : Accumulators 32)
    : ecc2Code a = generate (fun r => (rowBytes a r).toNat) (bytesSum a.par).toNat := by
  have rp3 : ((a.par >>> 16 ^^^ a.par >>> 16 >>> 8) &&& 0xff#32).toNat
      = (byteOf a.par 2 ^^^ byteOf a.par 3).toNat := by
    apply and_low_eq
    intro n inside
    simp only [BitVec.getLsbD_xor, BitVec.getLsbD_ushiftRight, getLsbD_byteOf _ _ inside]
    rw [← Nat.add_assoc 16 8 n]
  have rp2 : ((a.par &&& 0xffff#32 ^^^ (a.par &&& 0xffff#32) >>> 8) &&& 0xff#32).toNat
      = (byteOf a.par 0 ^^^ byteOf a.par 1).toNat := by
    have mask : ∀ n < 16, (0xffff#32).getLsbD n = true := by decide
    apply and_low_eq
    intro n inside
    simp only [BitVec.getLsbD_xor, BitVec.getLsbD_ushiftRight, BitVec.getLsbD_and,
      getLsbD_byteOf _ _ inside, mask n (by omega), mask (8 + n) (by omega), Bool.and_true]
    simp only [Nat.mul_zero, Nat.zero_add, Nat.mul_one]
  have rp1 : ((a.par ^^^ a.par >>> 16) >>> 8 &&& 0xff#32).toNat
      = (byteOf a.par 1 ^^^ byteOf a.par 3).toNat := by
    apply and_low_eq
    intro n inside
    simp only [BitVec.getLsbD_xor, BitVec.getLsbD_ushiftRight, getLsbD_byteOf _ _ inside]
    rw [← Nat.add_assoc 16 8 n]
  have rp0 : ((a.par ^^^ a.par >>> 16) &&& 0xff#32).toNat
      = (byteOf a.par 0 ^^^ byteOf a.par 2).toNat := by
    apply and_low_eq
    intro n inside
    simp only [BitVec.getLsbD_xor, BitVec.getLsbD_ushiftRight, getLsbD_byteOf _ _ inside]
    simp only [Nat.mul_zero, Nat.zero_add, Nat.reduceMul]
  have par := narrow_toNat a.par
  rw [narrow] at par
  rw [ecc2Code]
  dsimp only
  rw [par]
  congr 1
  funext r
  fin_cases r <;>
    first
      | exact rp0
      | exact rp1
      | exact rp2
      | exact rp3
      | exact narrow_toNat _

/-- The rows of the word loops take in the four bytes of a word together. -/
theorem covers_word {r : Fin 16} (later : 2 ≤ r.val / 2) (i : Nat) {k : Nat} (inside : k < 4)
    : covers r (4 * i + k) = coversWord r i := by
  obtain ⟨b, half⟩ := Nat.exists_eq_add_of_le later
  have word : (4 * i + k) / 2 ^ 2 = i := by omega
  rw [covers, coversWord, half, Nat.add_comm 2 b, ← Nat.testBit_div_two_pow, word]
  simp

/-- The first four rows tell the bytes of a word apart. -/
theorem covers_byte {r : Fin 16} (early : r.val / 2 < 2) (i k : Nat)
    : covers r (4 * i + k) = covers r k := by
  have rest : (4 * i + k) % 2 ^ 2 = k % 2 ^ 2 := by omega
  have word := Nat.testBit_mod_two_pow (4 * i + k) 2 (r.val / 2)
  have byte := Nat.testBit_mod_two_pow k 2 (r.val / 2)
  rw [rest] at word
  simp only [early, decide_true, Bool.true_and] at word byte
  rw [covers, covers, ← word, byte]

/-- The sums over every fourth byte, of which `par` consists. -/
theorem byteOf_par (buf : Nat → BitVec 8) {k : Nat} (inside : k < 4)
    : byteOf (ecc2Loop (loadWord buf)).par k = xorSum 64 (fun i => buf (4 * i + k)) := by
  rw [ecc2Loop_par, byteOf_xorSum]
  exact xorSum_congr (fun i _ => byteOf_loadWord buf i inside)

theorem byteOf_rp (buf : Nat → BitVec 8) {r : Fin 16} (later : 2 ≤ r.val / 2) {k : Nat}
    (inside : k < 4)
    : byteOf ((ecc2Loop (loadWord buf)).rp r) k
      = xorSum 64 (fun i => if covers r (4 * i + k) then buf (4 * i + k) else 0#8) := by
  rw [ecc2Loop_rp, byteOf_xorSum]
  apply xorSum_congr
  intro i _
  rw [covers_word later i inside, ← byteOf_loadWord buf i inside]
  split
  · rfl
  · simp [byteOf]

/-- Each row parity of `ecc2` comes down to that of `ecc1`. -/
theorem rowBytes_ecc2Loop (buf : Nat → BitVec 8) (r : Fin 16)
    : rowBytes (ecc2Loop (loadWord buf)) r = (ecc1Loop buf).rp r := by
  rw [ecc1Loop_rp, show 256 = 4 * 64 from rfl, xorSum_mul_four]
  rcases Nat.lt_or_ge (r.val / 2) 2 with early | later
  · have first : r = 0 ∨ r = 1 ∨ r = 2 ∨ r = 3 := by omega
    have zero (i : Nat) : covers r (4 * i) = covers r 0 := covers_byte early i 0
    simp only [covers_byte early, zero]
    have par0 := byteOf_par buf (k := 0) (by decide)
    have par1 := byteOf_par buf (k := 1) (by decide)
    have par2 := byteOf_par buf (k := 2) (by decide)
    have par3 := byteOf_par buf (k := 3) (by decide)
    have one : Nat.testBit 1 1 = false := rfl
    have two : Nat.testBit 2 1 = true := rfl
    have three : Nat.testBit 3 1 = true := rfl
    rcases first with rfl | rfl | rfl | rfl <;>
      simp [rowBytes, covers, one, two, three, par0, par1, par2, par3, xorSum_zero]
  · have general : rowBytes (ecc2Loop (loadWord buf)) r
        = bytesSum ((ecc2Loop (loadWord buf)).rp r) := by
      fin_cases r <;> first | rfl | simp at later
    rw [general, bytesSum, byteOf_rp buf later (by decide), byteOf_rp buf later (by decide),
      byteOf_rp buf later (by decide), byteOf_rp buf later (by decide)]
    simp only [Nat.add_zero]

theorem ecc2_eq_ecc1 (buf : Nat → BitVec 8)
    : ecc2 buf = ecc1 buf := by
  have par : bytesSum (ecc2Loop (loadWord buf)).par = (ecc1Loop buf).par := by
    rw [bytesSum, byteOf_par buf (by decide), byteOf_par buf (by decide),
      byteOf_par buf (by decide), byteOf_par buf (by decide), ecc1Loop_par,
      show 256 = 4 * 64 from rfl, xorSum_mul_four]
    simp only [Nat.add_zero]
  rw [ecc2, ecc2Code_eq, ecc1, par]
  simp only [rowBytes_ecc2Loop]

-- The unrolled loops

def block (word : Nat → BitVec 32) (select : Nat → Bool) (i : Nat) : BitVec 32 :=
  xorSum 16 (fun k => if select (16 * i + k) then word (16 * i + k) else 0#32)

theorem ecc2Loop_rp_eq_blocks (word : Nat → BitVec 32) (r : Fin 16)
    : (ecc2Loop word).rp r = xorSum 4 (block word (coversWord r)) := by
  rw [ecc2Loop_rp, show 64 = 16 * 4 from rfl, xorSum_mul]
  rfl

/-- Which words of a turn the rows `rp4` to `rp11` take in does not depend on the turn. -/
theorem block_low (word : Nat → BitVec 32) (r : Fin 16) (select : Nat → Bool) (i : Nat)
    (low : 2 ≤ r.val / 2 ∧ r.val / 2 < 6) (table : ∀ k < 16, coversWord r k = select k)
    : block word (coversWord r) i
      = xorSum 16 (fun k => if select k then word (16 * i + k) else 0#32) := by
  apply xorSum_congr
  intro k inside
  have rest : (16 * i + k) % 2 ^ 4 = k := by omega
  have line := Nat.testBit_mod_two_pow (16 * i + k) 4 (r.val / 2 - 2)
  rw [rest] at line
  simp only [show r.val / 2 - 2 < 4 by omega, decide_true, Bool.true_and] at line
  rw [← table k inside, coversWord, coversWord, ← line]

/-- The rows `rp12` to `rp15` take in all words of a turn or none. -/
theorem block_high (word : Nat → BitVec 32) (r : Fin 16) (b i : Nat)
    (high : r.val / 2 = 6 + b) (even : r.val % 2 = 0)
    : block word (coversWord r) i
      = if i.testBit b then 0#32 else xorSum 16 (fun k => word (16 * i + k)) := by
  have chosen : ∀ k < 16, coversWord r (16 * i + k) = !i.testBit b := by
    intro k inside
    have turn : (16 * i + k) / 2 ^ 4 = i := by omega
    have index : r.val / 2 - 2 = b + 4 := by omega
    have later : 2 ≤ r.val / 2 := by omega
    rw [coversWord, index, ← Nat.testBit_div_two_pow, turn, even]
    simp [later]
  cases on : i.testBit b with
  | false =>
      refine xorSum_congr (fun k inside => ?_)
      simp [chosen k inside, on]
  | true =>
      refine (xorSum_congr (fun k inside => ?_)).trans (xorSum_zero 16)
      simp [chosen k inside, on]

/-- Turn `i` of an unrolled loop adds to each variable what sixteen turns of `ecc2` add. -/
structure Adds (word : Nat → BitVec 32) (i : Nat) (before after : Running) : Prop where
  par : after.par = before.par ^^^ xorSum 16 (fun k => word (16 * i + k))
  rp4 : after.rp4 = before.rp4 ^^^ block word (coversWord 4) i
  rp6 : after.rp6 = before.rp6 ^^^ block word (coversWord 6) i
  rp8 : after.rp8 = before.rp8 ^^^ block word (coversWord 8) i
  rp10 : after.rp10 = before.rp10 ^^^ block word (coversWord 10) i
  rp12 : after.rp12 = before.rp12 ^^^ block word (coversWord 12) i
  rp14 : after.rp14 = before.rp14 ^^^ block word (coversWord 14) i

/-- The two conditional lines at the end of a turn add the running parity or nothing. -/
theorem ite_and_eq (mask b i : Nat) (power : mask = 2 ^ b) (rp sum : BitVec 32)
    : (if i &&& mask = 0 then rp ^^^ sum else rp)
      = rp ^^^ (if i.testBit b then 0#32 else sum) := by
  rw [power, Nat.and_two_pow]
  cases i.testBit b <;> simp

/-- The running parity at the end of a turn. -/
theorem running_parity (word : Nat → BitVec 32) (i : Nat)
    : xorSum 16 (fun k => word (16 * i + k))
      = word (16 * i) ^^^ word (16 * i + 1) ^^^ word (16 * i + 2) ^^^ word (16 * i + 3)
        ^^^ word (16 * i + 4) ^^^ word (16 * i + 5) ^^^ word (16 * i + 6) ^^^ word (16 * i + 7)
        ^^^ word (16 * i + 8) ^^^ word (16 * i + 9) ^^^ word (16 * i + 10)
        ^^^ word (16 * i + 11) ^^^ word (16 * i + 12) ^^^ word (16 * i + 13)
        ^^^ word (16 * i + 14) ^^^ word (16 * i + 15) := by
  simp only [xorSum, Nat.add_zero, BitVec.zero_xor]

/-- A turn adds the sixteen words of its block, by each parity's part of the block. -/
theorem attempt6Turn_adds (word : Nat → BitVec 32) (a : Running) (i : Nat)
    : Adds word i a (attempt6Turn word a i) where
  par := by
    rw [running_parity]
    simp only [attempt6Turn]
  rp4 := by
    rw [block_low word 4 (fun k => k % 2 = 0) i (by decide) (by decide)]
    simp only [attempt6Turn]
    simp [xorSum]
    ac_rfl
  rp6 := by
    rw [block_low word 6 (fun k => k % 4 < 2) i (by decide) (by decide)]
    simp only [attempt6Turn]
    simp [xorSum]
    ac_rfl
  rp8 := by
    rw [block_low word 8 (fun k => k % 8 < 4) i (by decide) (by decide)]
    simp only [attempt6Turn]
    simp [xorSum]
    ac_rfl
  rp10 := by
    rw [block_low word 10 (fun k => k < 8) i (by decide) (by decide)]
    simp only [attempt6Turn]
    simp [xorSum]
  rp12 := by
    rw [block_high word 12 0 i rfl rfl, running_parity]
    exact ite_and_eq 0x1 0 i rfl _ _
  rp14 := by
    rw [block_high word 14 1 i rfl rfl, running_parity]
    exact ite_and_eq 0x2 1 i rfl _ _

def corrected (s : Running × BitVec 32) : Running :=
  ⟨s.1.par, s.1.rp4 ^^^ s.2, s.1.rp6 ^^^ s.2, s.1.rp8, s.1.rp10, s.1.rp12, s.1.rp14⟩

/-- The running parity before and after some lines differs by what the lines read. -/
theorem xor_running (rp before lines : BitVec 32)
    : rp ^^^ (before ^^^ lines) ^^^ before = rp ^^^ lines := by
  rw [BitVec.xor_comm before lines, BitVec.xor_assoc, BitVec.xor_assoc, BitVec.xor_self,
    BitVec.xor_zero]

/-- The same once `rp4` and `rp6` are corrected; in `rp8` what `notrp8` holds cancels. -/
theorem attempt7Turn_adds (word : Nat → BitVec 32) (s : Running × BitVec 32) (i : Nat)
    : Adds word i (corrected s) (corrected (attempt7Turn word s i)) where
  par := by
    rw [running_parity]
    simp only [corrected, attempt7Turn]
  rp4 := by
    rw [block_low word 4 (fun k => k % 2 = 0) i (by decide) (by decide)]
    simp only [corrected, attempt7Turn]
    simp [xorSum]
    ac_rfl
  rp6 := by
    rw [block_low word 6 (fun k => k % 4 < 2) i (by decide) (by decide)]
    simp only [corrected, attempt7Turn]
    simp [xorSum]
    ac_rfl
  rp8 := by
    rw [block_low word 8 (fun k => k % 8 < 4) i (by decide) (by decide)]
    simp only [corrected, attempt7Turn]
    have cancel := xor_running
      (s.1.rp8 ^^^ (word (16 * i) ^^^ word (16 * i + 1) ^^^ word (16 * i + 2) ^^^ word (16 * i + 3)))
      (word (16 * i) ^^^ word (16 * i + 1) ^^^ word (16 * i + 2) ^^^ word (16 * i + 3)
        ^^^ word (16 * i + 4) ^^^ word (16 * i + 5) ^^^ word (16 * i + 6) ^^^ word (16 * i + 7))
      (word (16 * i + 8) ^^^ word (16 * i + 9) ^^^ word (16 * i + 10) ^^^ word (16 * i + 11))
    simp only [← BitVec.xor_assoc] at cancel
    simp only [← BitVec.xor_assoc]
    rw [cancel]
    simp [xorSum]
    ac_rfl
  rp10 := by
    rw [block_low word 10 (fun k => k < 8) i (by decide) (by decide)]
    simp only [corrected, attempt7Turn]
    simp [xorSum]
  rp12 := by
    rw [block_high word 12 0 i rfl rfl, running_parity]
    exact ite_and_eq 0x1 0 i rfl _ _
  rp14 := by
    rw [block_high word 14 1 i rfl rfl, running_parity]
    exact ite_and_eq 0x2 1 i rfl _ _

/-- The two rows of a pair are complementary. -/
theorem ecc2Loop_odd (word : Nat → BitVec 32) (odd even : Fin 16) (later : 4 ≤ even.val)
    (isEven : even.val % 2 = 0) (next : odd.val = even.val + 1)
    : (ecc2Loop word).rp odd = (ecc2Loop word).par ^^^ (ecc2Loop word).rp even := by
  rw [ecc2Loop_rp, ecc2Loop_rp, ecc2Loop_par, ← xorSum_xor]
  apply xorSum_congr
  intro i _
  have half : odd.val / 2 = even.val / 2 := by omega
  have rest : odd.val % 2 = 1 := by omega
  have second : 2 ≤ even.val / 2 := by omega
  rw [coversWord, coversWord, half, rest, isEven]
  cases i.testBit (even.val / 2 - 2) <;> simp [second]

/-- A loop whose turns add what the loop of `ecc2` adds ends with the same variables. -/
theorem accumulators_of_adds {σ : Type*} (word : Nat → BitVec 32) (view : σ → Running)
    (turn : σ → Nat → σ) (start : σ) (zero : view start = .zero)
    (adds : ∀ s i, Adds word i (view s) (view (turn s i)))
    : (view ((List.range 4).foldl turn start)).accumulators = ecc2Loop word := by
  have sum (part : Running → BitVec 32) (f : Nat → BitVec 32) (begins : part .zero = 0#32)
      (each : ∀ s i, part (view (turn s i)) = part (view s) ^^^ f i)
      : part (view ((List.range 4).foldl turn start)) = xorSum 4 f := by
    rw [foldl_range_xor (fun s => part (view s)) turn f each, zero, begins, BitVec.zero_xor]
  have par : (view ((List.range 4).foldl turn start)).par = (ecc2Loop word).par := by
    rw [sum Running.par _ rfl (fun s i => (adds s i).par), ecc2Loop_par,
      show 64 = 16 * 4 from rfl, xorSum_mul]
  have rp4 : (view ((List.range 4).foldl turn start)).rp4 = (ecc2Loop word).rp 4 := by
    rw [sum Running.rp4 _ rfl (fun s i => (adds s i).rp4), ecc2Loop_rp_eq_blocks]
  have rp6 : (view ((List.range 4).foldl turn start)).rp6 = (ecc2Loop word).rp 6 := by
    rw [sum Running.rp6 _ rfl (fun s i => (adds s i).rp6), ecc2Loop_rp_eq_blocks]
  have rp8 : (view ((List.range 4).foldl turn start)).rp8 = (ecc2Loop word).rp 8 := by
    rw [sum Running.rp8 _ rfl (fun s i => (adds s i).rp8), ecc2Loop_rp_eq_blocks]
  have rp10 : (view ((List.range 4).foldl turn start)).rp10 = (ecc2Loop word).rp 10 := by
    rw [sum Running.rp10 _ rfl (fun s i => (adds s i).rp10), ecc2Loop_rp_eq_blocks]
  have rp12 : (view ((List.range 4).foldl turn start)).rp12 = (ecc2Loop word).rp 12 := by
    rw [sum Running.rp12 _ rfl (fun s i => (adds s i).rp12), ecc2Loop_rp_eq_blocks]
  have rp14 : (view ((List.range 4).foldl turn start)).rp14 = (ecc2Loop word).rp 14 := by
    rw [sum Running.rp14 _ rfl (fun s i => (adds s i).rp14), ecc2Loop_rp_eq_blocks]
  have untouched (r : Fin 16) (early : r.val / 2 < 2) : (ecc2Loop word).rp r = 0#32 := by
    rw [ecc2Loop_rp]
    refine (xorSum_congr (fun i _ => ?_)).trans (xorSum_zero 64)
    simp [coversWord, Nat.not_le.mpr early]
  have odd := ecc2Loop_odd word
  apply Accumulators.ext par
  funext r
  simp only [Running.accumulators, par, rp4, rp6, rp8, rp10, rp12, rp14]
  generalize ecc2Loop word = e at untouched odd
  fin_cases r <;>
    first
      | rfl
      | exact (untouched _ (by decide)).symm
      | exact (odd _ _ (by decide) (by decide) rfl).symm

/-- All versions compute the same code: `ecc2` returns what `ecc1` returns, and the unrolled loops
end with the variables of the loop of `ecc2`. A turn of an unrolled loop adds what the turns of the
plain one add together.
-/
theorem eccVersions_agree
    : (∀ buf : Nat → BitVec 8, ecc2 buf = ecc1 buf)
      ∧ (∀ buf : Nat → BitVec 8, attempt6Loop (loadWord buf) = ecc2Loop (loadWord buf))
      ∧ ∀ buf : Nat → BitVec 8, attempt7Loop (loadWord buf) = ecc2Loop (loadWord buf) := by
  refine ⟨ecc2_eq_ecc1, ?_, ?_⟩
  · intro buf
    exact accumulators_of_adds (loadWord buf) id (attempt6Turn (loadWord buf)) .zero rfl
      (attempt6Turn_adds (loadWord buf))
  · intro buf
    exact accumulators_of_adds (loadWord buf) corrected (attempt7Turn (loadWord buf))
      (.zero, 0#32) rfl (attempt7Turn_adds (loadWord buf))

end LinuxDoc.NandEcc
