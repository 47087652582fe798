import Mathlib.Data.List.Basic
import Mathlib.Tactic.Ring

/-! Byte strings: numbers stored in a byte order, and NUL-terminated text. -/

namespace Foundations

inductive Endian where
  | little
  | big
  deriving DecidableEq, Repr

namespace Endian

def decode : Endian → List UInt8 → Nat
  | .little, bytes => bytes.foldr (fun byte rest => byte.toNat + 256 * rest) 0
  | .big, bytes => bytes.reverse.foldr (fun byte rest => byte.toNat + 256 * rest) 0

/-- The number stored in the first `count` bytes of a byte sequence. -/
def load (order : Endian) (bytes : Nat → UInt8) (count : Nat) : Nat :=
  order.decode ((List.range count).map bytes)

/-- Digits below the base keep a positional sum below the next power. -/
private theorem digits_lt (bytes : List UInt8)
    : bytes.foldr (fun byte rest => byte.toNat + 256 * rest) 0 < 256 ^ bytes.length := by
  induction bytes with
  | nil => simp
  | cons byte rest ih =>
      have digit := byte.toNat_lt
      simp only [List.foldr_cons, List.length_cons, Nat.pow_succ]
      omega

/-- A stored number fits the bytes that store it, in either order. -/
theorem decode_lt (order : Endian) (bytes : List UInt8)
    : order.decode bytes < 256 ^ bytes.length := by
  cases order with
  | little => exact digits_lt bytes
  | big => simpa only [decode, List.length_reverse] using digits_lt bytes.reverse

theorem load_lt (order : Endian) (bytes : Nat → UInt8) (count : Nat)
    : order.load bytes count < 256 ^ count := by
  simpa only [load, List.length_map, List.length_range]
    using order.decode_lt ((List.range count).map bytes)

/-- The `count` bytes that store the low part of a number. -/
def encode : Endian → Nat → Nat → List UInt8
  | .little, count, value =>
      (List.range count).map (fun i => UInt8.ofNat (value / 256 ^ i))
  | .big, count, value =>
      ((List.range count).map (fun i => UInt8.ofNat (value / 256 ^ i))).reverse

theorem encode_length (order : Endian) (count value : Nat)
    : (order.encode count value).length = count := by
  cases order <;> simp [encode]

/-- The positional sum of a number's digits is the number's low part. -/
private theorem digits_encode (count value : Nat)
    : ((List.range count).map (fun i => UInt8.ofNat (value / 256 ^ i))).foldr
        (fun byte rest => byte.toNat + 256 * rest) 0
      = value % 256 ^ count := by
  induction count generalizing value with
  | zero => simp [Nat.mod_one]
  | succ count ih =>
      have shifted := ih (value / 256)
      simp only [Nat.div_div_eq_div_mul, ← Nat.pow_succ'] at shifted
      rw [List.range_succ_eq_map, List.map_cons, List.map_map, List.foldr_cons,
        Nat.pow_zero, Nat.div_one, Nat.pow_succ', Nat.mod_mul]
      have digit : (UInt8.ofNat value).toNat = value % 256 := by simp
      rw [digit]
      exact congrArg (fun rest => value % 256 + 256 * rest) shifted

theorem decode_encode (order : Endian) (count value : Nat)
    : order.decode (order.encode count value) = value % 256 ^ count := by
  cases order with
  | little => exact digits_encode count value
  | big => simpa only [decode, encode, List.reverse_reverse] using digits_encode count value

/-- Reading a host number's bytes as a little-endian number, or the reverse: `htole16` and
its relatives.
-/
def reorder (host : Endian) (count value : Nat) : Nat :=
  little.decode (host.encode count value)

theorem reorder_lt (host : Endian) (count value : Nat)
    : host.reorder count value < 256 ^ count := by
  simpa only [reorder, encode_length] using little.decode_lt (host.encode count value)

/-- A positional sum has the bytes it was made from as its digits. -/
private theorem encode_digits (bytes : List UInt8)
    : little.encode bytes.length (little.decode bytes) = bytes := by
  induction bytes with
  | nil => rfl
  | cons byte rest ih =>
      have digit := byte.toNat_lt
      simp only [encode, decode, List.length_cons, List.foldr_cons] at ih ⊢
      rw [List.range_succ_eq_map, List.map_cons, List.map_map]
      congr 1
      · rw [Nat.pow_zero, Nat.div_one]
        apply UInt8.toNat_inj.mp
        simp only [UInt8.toNat_ofNat']
        omega
      · conv_rhs => rw [← ih]
        apply List.map_congr_left
        intro i _
        have shift : (byte.toNat
              + 256 * List.foldr (fun byte rest => byte.toNat + 256 * rest) 0 rest) / 256
            = List.foldr (fun byte rest => byte.toNat + 256 * rest) 0 rest := by
          omega
        simp only [Function.comp_apply, Nat.succ_eq_add_one, Nat.pow_succ',
          ← Nat.div_div_eq_div_mul, shift]

/-- Only a number's low bytes are stored. -/
theorem encode_mod (order : Endian) (count value : Nat)
    : order.encode count (value % 256 ^ count) = order.encode count value := by
  have digits := encode_digits (little.encode count value)
  rw [encode_length, decode_encode] at digits
  cases order with
  | little => exact digits
  | big => exact congrArg List.reverse digits

/-- A converted number is stored in little-endian order, whatever the host. -/
theorem encode_reorder (host : Endian) (count value : Nat)
    : host.encode count (host.reorder count value) = little.encode count value := by
  cases host with
  | little => rw [reorder, decode_encode, encode_mod]
  | big =>
      have inner := encode_digits (big.encode count value)
      rw [encode_length] at inner
      calc
        big.encode count (little.decode (big.encode count value))
            = (little.encode count (little.decode (big.encode count value))).reverse := rfl
        _ = (big.encode count value).reverse := by rw [inner]
        _ = little.encode count value := List.reverse_reverse _

/-- Converting to little-endian order and back keeps the number. -/
theorem reorder_reorder (host : Endian) (count value : Nat)
    : host.reorder count (host.reorder count value) = value % 256 ^ count := by
  rw [reorder, encode_reorder, decode_encode]

/-- Only the loaded bytes matter. -/
theorem load_congr (order : Endian) {left right : Nat → UInt8} {count : Nat}
    (same : ∀ i < count, left i = right i)
    : order.load left count = order.load right count := by
  have equal : (List.range count).map left = (List.range count).map right := by
    apply List.map_congr_left
    intro i member
    exact same i (List.mem_range.mp member)
  rw [load, load, equal]

end Endian

/-- Masking off the low `k` bits of a `w`-bit number rounds it down. -/
theorem and_highMask {w k value : Nat} (fits : value < 2 ^ w) (inside : k ≤ w)
    : value &&& (2 ^ w - 2 ^ k) = value / 2 ^ k * 2 ^ k := by
  have mask : 2 ^ w - 2 ^ k = (2 ^ (w - k) - 1) <<< k := by
    rw [Nat.shiftLeft_eq, Nat.sub_mul, ← Nat.pow_add, Nat.sub_add_cancel inside, Nat.one_mul]
  rw [mask, ← Nat.shiftRight_eq_div_pow, ← Nat.shiftLeft_eq]
  apply Nat.eq_of_testBit_eq
  intro i
  simp only [Nat.testBit_and, Nat.testBit_shiftLeft, Nat.testBit_two_pow_sub_one,
    Nat.testBit_shiftRight]
  by_cases low : k ≤ i
  · by_cases high : i < w
    · have masked : i - k < w - k := by omega
      simp [low, masked]
    · have bound : value < 2 ^ i :=
        Nat.lt_of_lt_of_le fits (Nat.pow_le_pow_right (by decide) (by omega))
      simp [low, Nat.testBit_lt_two_pow bound]
  · simp [low]

def fieldsValue : List (Nat × Nat) → Nat
  | [] => 0
  | (size, value) :: rest => value + 256 ^ size * fieldsValue rest

def fieldBytes (fields : List (Nat × Nat)) (offset : Nat) : UInt8 :=
  UInt8.ofNat (fieldsValue fields >>> (8 * offset))

def slice (bytes : Nat → UInt8) (start size : Nat) : List UInt8 :=
  (List.range size).map fun i => bytes (start + i)

@[simp]
theorem slice_length (bytes : Nat → UInt8) (start size : Nat)
    : (slice bytes start size).length = size := by
  simp [slice]

section Blocks

variable {α β : Type*} {blocks : List α} {whole part : α → List β}

theorem length_flatMap_le
    (shorter : ∀ block ∈ blocks, (part block).length ≤ (whole block).length)
    : (blocks.flatMap part).length ≤ (blocks.flatMap whole).length := by
  induction blocks with
  | nil => exact Nat.le_refl 0
  | cons block rest ih =>
      rw [List.forall_mem_cons] at shorter
      simp only [List.flatMap_cons, List.length_append]
      exact Nat.add_le_add shorter.1 (ih shorter.2)

/-- Blocks written one after the other agree with blocks that are nowhere longer only block
by block: a byte too many is made up for nowhere.
-/
theorem flatMap_eq_flatMap_iff
    (shorter : ∀ block ∈ blocks, (part block).length ≤ (whole block).length)
    : blocks.flatMap whole = blocks.flatMap part
      ↔ ∀ block ∈ blocks, whole block = part block := by
  constructor
  · intro same
    induction blocks with
    | nil => exact List.forall_mem_nil _
    | cons block rest ih =>
        rw [List.forall_mem_cons] at shorter ⊢
        have total := congrArg List.length same
        simp only [List.flatMap_cons, List.length_append] at total same
        have later := length_flatMap_le shorter.2
        obtain ⟨here, after⟩ := List.append_inj same (by omega)
        exact ⟨here, ih shorter.2 after⟩
  · intro same
    exact List.flatMap_congr same

/-- Two beginnings of a list that end in a mark and have as many of them are one: what one of
them has more would end in a mark as well.
-/
theorem eq_of_append_eq_of_marks {mark : β → Bool} {first second later later' : List β}
    (same : first ++ later = second ++ later') (counts : first.countP mark = second.countP mark)
    (firstEnds : ∀ b ∈ first.getLast?, mark b) (secondEnds : ∀ b ∈ second.getLast?, mark b)
    : first = second := by
  have unmarked {more front : List β} (none : more.countP mark = 0)
      (ends : ∀ b ∈ (front ++ more).getLast?, mark b)
      : more = [] := by
    by_contra some
    rw [List.getLast?_append_of_ne_nil _ some] at ends
    have last := List.getLast?_eq_some_getLast some
    exact List.countP_eq_zero.mp none _ (List.mem_of_getLast? last) (ends _ last)
  rcases List.append_eq_append_iff.mp same with ⟨more, rfl, _⟩ | ⟨more, rfl, _⟩
  · rw [List.countP_append] at counts
    rw [unmarked (by omega) secondEnds, List.append_nil]
  · rw [List.countP_append] at counts
    rw [unmarked (by omega) firstEnds, List.append_nil]

/-- Blocks that end in marks, and have as many of them on both sides, agree only block by block. -/
theorem flatMap_eq_flatMap_iff_of_marks {mark : β → Bool}
    (counts : ∀ block ∈ blocks, (whole block).countP mark = (part block).countP mark)
    (wholeEnds : ∀ block ∈ blocks, ∀ b ∈ (whole block).getLast?, mark b)
    (partEnds : ∀ block ∈ blocks, ∀ b ∈ (part block).getLast?, mark b)
    : blocks.flatMap whole = blocks.flatMap part
      ↔ ∀ block ∈ blocks, whole block = part block := by
  constructor
  · intro same
    induction blocks with
    | nil => exact List.forall_mem_nil _
    | cons block rest ih =>
        rw [List.forall_mem_cons] at counts wholeEnds partEnds ⊢
        rw [List.flatMap_cons, List.flatMap_cons] at same
        have here := eq_of_append_eq_of_marks same counts.1 wholeEnds.1 partEnds.1
        rw [here, List.append_cancel_left_eq] at same
        exact ⟨here, ih counts.2 wholeEnds.2 partEnds.2 same⟩
  · intro same
    exact List.flatMap_congr same

end Blocks

structure CString where
  bytes : List UInt8
  noNul : 0 ∉ bytes

/-- `strlen` of a byte sequence that has a NUL at `limit`, if not before. -/
def strlen (bytes : Nat → UInt8) (limit : Nat) : Nat :=
  (List.range limit).findIdx (fun i => bytes i == 0)

theorem strlen_eq_limit_iff (bytes : Nat → UInt8) (limit : Nat)
    : strlen bytes limit = limit ↔ ∀ i < limit, bytes i ≠ 0 := by
  have full : (List.range limit).findIdx (fun i => bytes i == 0) = (List.range limit).length
      ↔ ∀ i ∈ List.range limit, (bytes i == 0) = false :=
    List.findIdx_eq_length
  rw [List.length_range] at full
  rw [strlen, full]
  simp

def HoldsString (bytes : Nat → UInt8) (text : List UInt8) : Prop :=
  (∀ i (h : i < text.length), bytes i = text[i]) ∧ bytes text.length = 0

/-- Comparing bytes in step decides whether `text` is the stored string; this is what a
zero result of `strcmp` says.
-/
def equalString : List UInt8 → (Nat → UInt8) → Bool
  | [], bytes => bytes 0 == 0
  | char :: rest, bytes => bytes 0 == char && equalString rest (fun i => bytes (i + 1))

/-- The comparison in step succeeds exactly on the stored text, by induction on it. -/
theorem equalString_iff (text : List UInt8) (bytes : Nat → UInt8)
    : equalString text bytes = true ↔ HoldsString bytes text := by
  induction text generalizing bytes with
  | nil => simp [equalString, HoldsString]
  | cons char rest ih =>
      simp only [equalString, Bool.and_eq_true, beq_iff_eq, ih, HoldsString,
        List.length_cons]
      constructor
      · intro h
        rcases h with ⟨first, later, final⟩
        refine ⟨?_, final⟩
        intro i inside
        cases i with
        | zero => exact first
        | succ i => exact later i (by omega)
      · intro h
        rcases h with ⟨all, final⟩
        refine ⟨all 0 (by omega), ?_, final⟩
        intro i inside
        exact all (i + 1) (by omega)

/-- One byte sequence holds one C string: neither text has a NUL to stop at early. -/
theorem HoldsString.unique {bytes : Nat → UInt8} {left right : CString}
    (hl : HoldsString bytes left.bytes) (hr : HoldsString bytes right.bytes)
    : left = right := by
  -- A shorter text would put its NUL inside the longer one.
  have notShorter {short long : CString} (hs : HoldsString bytes short.bytes)
      (hg : HoldsString bytes long.bytes)
      : ¬ short.bytes.length < long.bytes.length := by
    intro inside
    have stored := hg.1 _ inside
    rw [hs.2] at stored
    exact long.noNul (stored ▸ List.getElem_mem inside)
  have sameLength : left.bytes.length = right.bytes.length :=
    Nat.le_antisymm (Nat.le_of_not_lt (notShorter hr hl)) (Nat.le_of_not_lt (notShorter hl hr))
  have sameBytes : left.bytes = right.bytes := by
    apply List.ext_getElem sameLength
    intro i inLeft inRight
    rw [← hl.1 i inLeft, hr.1 i inRight]
  cases left
  cases right
  simpa using sameBytes

end Foundations
