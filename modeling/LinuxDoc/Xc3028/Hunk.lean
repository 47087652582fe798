import LinuxDoc.Foundations.Bytes
import Mathlib.Data.List.Range

/-! Firmware hunks of the XC3028 tuner, as `extract_xc3028.pl` copies them out of the
Windows driver with the byte order of their words changed.
-/

namespace LinuxDoc.Xc3028

open Foundations

/-- Perl's `substr($out, $start, $count)` as a value: what lies beyond the end is left out. -/
def substr (out : List UInt8) (start count : Nat) : List UInt8 :=
  (out.drop start).take count

/-- Perl's `ord`: the first byte, and 0 of an empty or undefined string. -/
def ord : List UInt8 → Nat
  | [] => 0
  | byte :: _ => byte.toNat

def getHunkLoop (infile : List UInt8) (position length : Nat) (out : List UInt8)
    : Except String (List UInt8) :=
  if 0 < length then
    let chunklength := if 2048 > length then length else 2048
    let buf := substr infile position chunklength
    if buf.length ≠ chunklength then .error "Ran out of data\n"
    else getHunkLoop infile (position + buf.length) (length - chunklength) (out ++ buf)
  else .ok out
termination_by length
decreasing_by split <;> omega

def getHunk (infile : List UInt8) (offset length : Nat) : Except String (List UInt8) :=
  getHunkLoop infile offset length []

def writeLe32 (val : Nat) : List UInt8 :=
  let l3 := (val >>> 24) &&& 0xff
  let l2 := (val >>> 16) &&& 0xff
  let l1 := (val >>> 8) &&& 0xff
  let l0 := val &&& 0xff
  [l0, l1, l2, l3].map UInt8.ofNat

def fixEndianLoop (out : List UInt8) (length i : Nat) (written : List UInt8) : List UInt8 :=
  if i < length then
    let size := ord (substr out i 1) * 256 + ord (substr out (i + 1) 1)
    let written := written ++ substr out (i + 1) 1 ++ substr out i 1
    if size > 0 ∧ size < 0x8000 then
      fixEndianLoop out length (i + 2 + size)
        (written ++ (List.range size).flatMap fun j => substr out (j + (i + 2)) 1)
    else fixEndianLoop out length (i + 2) written
  else written
termination_by length - i

def writeHunkFixEndian (infile : List UInt8) (offset length : Nat)
    : Except String (List UInt8) := do
  let out ← getHunk infile offset length
  return fixEndianLoop out length 0 []

/-- The chunks that are read add up to the hunk, by induction on the loop. -/
theorem getHunkLoop_eq (infile : List UInt8) (position length : Nat) (out : List UInt8)
    (available : position + length ≤ infile.length)
    : getHunkLoop infile position length out = .ok (out ++ substr infile position length) := by
  fun_induction getHunkLoop infile position length out with
  | case1 position length out more chunklength buf short =>
      have inside : chunklength ≤ length := by grind
      simp only [buf, substr, List.length_take, List.length_drop] at short
      omega
  | case2 position length out more chunklength buf full ih =>
      have inside : chunklength ≤ length := by grind
      have read : buf.length = chunklength := not_not.mp full
      rw [ih (by omega), List.append_assoc, read]
      congr 2
      simp only [buf, substr]
      conv_rhs => rw [← Nat.add_sub_of_le inside, List.take_add, List.drop_drop]
  | case3 position length out done =>
      have none : length = 0 := by omega
      simp [substr, none]

/-- `get_hunk` returns the hunk whenever the file has it. -/
theorem getHunk_eq (infile : List UInt8) (offset length : Nat)
    (available : offset + length ≤ infile.length)
    : getHunk infile offset length = .ok (substr infile offset length) := by
  rw [getHunk, getHunkLoop_eq infile offset length [] available, List.nil_append]

/-- One byte of a hunk, and nothing beyond its end. -/
theorem substr_one (out : List UInt8) (index : Nat) : substr out index 1 = out[index]?.toList := by
  rw [substr, List.take_one, List.head?_drop]

/-- Bytes copied one by one are copied together. -/
theorem flatMap_substr (out : List UInt8) (start count : Nat)
    : ((List.range count).flatMap fun j => substr out (j + start) 1)
      = substr out start count := by
  induction count generalizing start with
  | zero => rfl
  | succ count ih =>
      have shifted := ih (start + 1)
      rw [List.range_succ_eq_map, List.flatMap_cons, List.flatMap_map]
      have step (j : Nat) : j.succ + start = j + (start + 1) := by omega
      simp only [step, Nat.zero_add, shifted]
      simp only [substr]
      rw [Nat.add_comm count 1, List.take_add, List.drop_drop]

section Bytes

variable {out written : List UInt8} {i length : Nat}

/-- The bytes written are those at the positions below `i`, each position once. -/
def Copied (out written : List UInt8) (i : Nat) : Prop :=
  ∃ positions : List Nat, positions.Perm (List.range i)
    ∧ written = positions.flatMap fun index => substr out index 1

/-- A pass over a word and its payload copies the positions it moves past. -/
theorem Copied.step (copied : Copied out written i) (size : Nat)
    : Copied out
        (written ++ substr out (i + 1) 1 ++ substr out i 1
          ++ (List.range size).flatMap fun j => substr out (j + (i + 2)) 1)
        (i + 2 + size) := by
  obtain ⟨positions, once, rfl⟩ := copied
  refine ⟨positions ++ [i + 1, i] ++ (List.range size).map (· + (i + 2)), ?_, ?_⟩
  · have swapped : (positions ++ [i + 1, i]).Perm (List.range (i + 2)) := by
      rw [List.range_succ, List.range_succ, List.append_assoc]
      exact once.append (List.Perm.swap i (i + 1) [])
    have later : (List.range size).map (· + (i + 2)) = (List.range size).map (i + 2 + ·) :=
      List.map_congr_left fun j _ => Nat.add_comm j (i + 2)
    rw [List.range_add, later]
    exact swapped.append_right _
  · simp only [List.flatMap_append, List.flatMap_map, List.flatMap_cons, List.flatMap_nil,
      List.append_nil, List.append_assoc]

/-- The loop copies every position it moves past, by induction on its passes, and ends at or
behind the length.
-/
theorem fixEndianLoop_copied (copied : Copied out written i)
    : ∃ stop, length ≤ stop ∧ Copied out (fixEndianLoop out length i written) stop := by
  fun_induction fixEndianLoop out length i written with
  | case1 i written more size written' payload ih => exact ih (copied.step size)
  | case2 i written more size written' noPayload ih =>
      have stepped := copied.step 0
      simp only [List.range_zero, List.flatMap_nil, List.append_nil, Nat.add_zero] at stepped
      exact ih stepped
  | case3 i written done => exact ⟨i, Nat.le_of_not_lt done, copied⟩

/-- Of the positions at or behind the end nothing is written: what is written is the hunk in
another order.
-/
theorem Copied.reordered (copied : Copied out written i) (past : out.length ≤ i)
    : ∃ positions : List Nat, positions.Perm (List.range out.length)
      ∧ written = positions.map fun index => out.getD index 0 := by
  obtain ⟨positions, once, rfl⟩ := copied
  refine ⟨positions.filter (· < out.length), ?_, ?_⟩
  · have inside : (List.range i).filter (· < out.length) = List.range out.length := by
      obtain ⟨extra, rfl⟩ := Nat.exists_eq_add_of_le past
      rw [List.range_add, List.filter_append, List.filter_eq_self.mpr (by simp),
        List.filter_eq_nil_iff.mpr (by simp), List.append_nil]
    rw [← inside]
    exact once.filter _
  · clear once
    induction positions with
    | nil => rfl
    | cons index rest ih =>
        rw [List.flatMap_cons, ih, substr_one, List.filter_cons]
        by_cases inside : index < out.length
        · simp [inside]
        · simp [inside]

end Bytes

def payloadLength (word : Nat) : Nat :=
  if word > 0 ∧ word < 0x8000 then word else 0

structure Record where
  word : Nat
  word_lt : word < 256 ^ 2
  payload : List UInt8
  payload_length : payload.length = payloadLength word
  deriving DecidableEq

def Record.bytes (order : Endian) (record : Record) : List UInt8 :=
  order.encode 2 record.word ++ record.payload

def parse (order : Endian) : List UInt8 → Option (List Record)
  | [] => some []
  | [_] => none
  | first :: second :: rest =>
      if full : payloadLength (order.decode [first, second]) ≤ rest.length then
        let record : Record :=
          { word := order.decode [first, second]
            word_lt := order.decode_lt [first, second]
            payload := rest.take (payloadLength (order.decode [first, second]))
            payload_length := by rw [List.length_take, Nat.min_eq_left full] }
        (parse order (rest.drop (payloadLength (order.decode [first, second])))).map
          (record :: ·)
      else none
termination_by bytes => bytes.length
decreasing_by
  rw [List.length_drop, List.length_cons, List.length_cons]
  omega

/-- A record that stands first is the first one read. -/
theorem parse_bytes (order : Endian) (record : Record) (rest : List UInt8)
    : parse order (record.bytes order ++ rest) = (parse order rest).map (record :: ·) := by
  obtain ⟨word, word_lt, payload, payload_length⟩ := record
  obtain ⟨first, second, encoded⟩ : ∃ first second, order.encode 2 word = [first, second] :=
    List.length_eq_two.mp (order.encode_length 2 word)
  have decoded : order.decode [first, second] = word := by
    rw [← encoded, order.decode_encode, Nat.mod_eq_of_lt word_lt]
  subst decoded
  simp only [Record.bytes, encoded, List.cons_append, List.nil_append]
  rw [parse, dif_pos (by rw [List.length_append]; omega)]
  simp only [← payload_length, List.take_left, List.drop_left]

/-- Records written one after the other are read back, by induction on them. -/
theorem parse_flatMap (order : Endian) (records : List Record)
    : parse order (records.flatMap (Record.bytes order)) = some records := by
  induction records with
  | nil => rw [List.flatMap_nil, parse]
  | cons record rest ih => rw [List.flatMap_cons, parse_bytes, ih, Option.map_some]

/-- A word in the other byte order is the same two bytes swapped. -/
theorem encode_word (word : Nat)
    : ∃ high low : UInt8, Endian.big.encode 2 word = [high, low]
      ∧ Endian.little.encode 2 word = [low, high]
      ∧ high.toNat * 256 + low.toNat = word % 256 ^ 2 := by
  refine ⟨UInt8.ofNat (word / 256 ^ 1), UInt8.ofNat (word / 256 ^ 0), rfl, rfl, ?_⟩
  simp only [UInt8.toNat_ofNat']
  omega

/-- One record of the hunk is one pass of the loop. -/
theorem fixEndianLoop_record {out : List UInt8} {i : Nat} {record : Record}
    {rest : List UInt8} (written : List UInt8)
    (here : out.drop i = record.bytes .big ++ rest)
    : fixEndianLoop out out.length i written
      = fixEndianLoop out out.length (i + (record.bytes .big).length)
          (written ++ record.bytes .little) := by
  obtain ⟨word, word_lt, payload, payload_length⟩ := record
  obtain ⟨high, low, inBig, inLittle, value⟩ := encode_word word
  simp only [Record.bytes, inBig, inLittle, List.cons_append, List.nil_append] at here ⊢
  rw [Nat.mod_eq_of_lt word_lt] at value
  have first : substr out i 1 = [high] := by rw [substr, here]; rfl
  have second : substr out (i + 1) 1 = [low] := by
    rw [substr, ← List.drop_drop, here]; rfl
  have behind : out.drop (i + 2) = payload ++ rest := by
    rw [← List.drop_drop, here]; rfl
  have inside : i < out.length := by
    have total := congrArg List.length here
    simp only [List.length_drop, List.length_cons] at total
    omega
  rw [fixEndianLoop, if_pos inside]
  simp only [first, second, ord, value, flatMap_substr, List.length_cons]
  by_cases follows : word > 0 ∧ word < 0x8000
  · rw [payloadLength, if_pos follows] at payload_length
    have copied : substr out (i + 2) word = payload := by
      rw [substr, behind, ← payload_length, List.take_left]
    rw [if_pos follows, copied, payload_length]
    simp only [List.append_assoc, List.cons_append, List.nil_append]
    rw [Nat.add_assoc, Nat.add_comm 2 word]
  · rw [payloadLength, if_neg follows] at payload_length
    rw [if_neg follows, List.length_eq_zero_iff.mp payload_length]
    simp only [List.append_assoc, List.cons_append, List.nil_append, List.length_nil,
      Nat.zero_add]

/-- A hunk of records is written with the words swapped, by induction on what is left. -/
theorem fixEndianLoop_records {out : List UInt8} {i : Nat} {records : List Record}
    (written : List UInt8) (left : out.drop i = records.flatMap (Record.bytes .big))
    : fixEndianLoop out out.length i written
      = written ++ records.flatMap (Record.bytes .little) := by
  induction records generalizing i written with
  | nil =>
      have done : ¬ i < out.length := Nat.not_lt.mpr (List.drop_eq_nil_iff.mp left)
      rw [fixEndianLoop, if_neg done, List.flatMap_nil, List.append_nil]
  | cons record rest ih =>
      rw [List.flatMap_cons] at left
      have after : out.drop (i + (record.bytes .big).length)
          = rest.flatMap (Record.bytes .big) := by
        rw [← List.drop_drop, left, List.drop_left]
      rw [fixEndianLoop_record written left, ih _ after, List.flatMap_cons, List.append_assoc]

/-- The four bytes of `write_le32` hold the number modulo 2^32. -/
theorem decode_writeLe32 (val : Nat)
    : Endian.little.decode (writeLe32 val) = val % 2 ^ 32 := by
  have low (n : Nat) : n &&& 0xff = n % 256 := Nat.and_two_pow_sub_one_eq_mod n 8
  simp only [writeLe32, low, Nat.shiftRight_eq_div_pow, List.map_cons, List.map_nil,
    Endian.decode, List.foldr_cons, List.foldr_nil, UInt8.toNat_ofNat']
  omega

/-- What is to be kept of a hunk: every byte is written once, so that the size written before
is right, and records are read back with little-endian words.
-/
structure Kept (hunk written : List UInt8) : Prop where
  once : ∃ positions : List Nat, positions.Perm (List.range hunk.length)
    ∧ written = positions.map fun index => hunk.getD index 0
  size : written.length = hunk.length
  sizeField : Endian.little.decode (writeLe32 hunk.length) = written.length % 2 ^ 32
  records : ∀ records : List Record, hunk = records.flatMap (Record.bytes .big) →
    parse .little written = some records

/-- `write_hunk_fix_endian` neither loses nor adds a byte and keeps the records. By the loop
invariant `Copied`: what was written are the bytes up to the position reached, in another order.
-/
theorem writeHunkFixEndian_kept (infile : List UInt8) (offset length : Nat)
    (available : offset + length ≤ infile.length)
    : ∃ written, writeHunkFixEndian infile offset length = .ok written
      ∧ (substr infile offset length).length = length
      ∧ Kept (substr infile offset length) written := by
  have hunkLength : (substr infile offset length).length = length := by
    rw [substr, List.length_take, List.length_drop]
    omega
  generalize hunkEq : substr infile offset length = hunk at hunkLength ⊢
  subst hunkLength
  refine ⟨fixEndianLoop hunk hunk.length 0 [], ?_, rfl, ?_⟩
  · rw [writeHunkFixEndian, getHunk_eq infile offset hunk.length available, hunkEq]
    rfl
  · have nothing : Copied hunk [] 0 := ⟨[], .nil, rfl⟩
    obtain ⟨stop, past, copied⟩ : ∃ stop, hunk.length ≤ stop
        ∧ Copied hunk (fixEndianLoop hunk hunk.length 0 []) stop :=
      fixEndianLoop_copied nothing
    obtain ⟨positions, once, written⟩ := copied.reordered past
    have size : (fixEndianLoop hunk hunk.length 0 []).length = hunk.length := by
      rw [written, List.length_map, once.length_eq, List.length_range]
    refine ⟨⟨positions, once, written⟩, size, by rw [size, decode_writeLe32], ?_⟩
    intro records same
    have left : hunk.drop 0 = records.flatMap (Record.bytes .big) := same
    rw [fixEndianLoop_records [] left, List.nil_append, parse_flatMap]

def sampleRecords : List Record :=
  [⟨2, by decide, [5, 6], rfl⟩, ⟨0x8000, by decide, [], rfl⟩]

/-- A hunk of an odd number of bytes, whose only payload runs past the end, and a hunk of
records.
-/
theorem sampleHunks_kept
    : (∃ written, writeHunkFixEndian [9, 0, 7, 5] 1 3 = .ok written
        ∧ Kept (substr [9, 0, 7, 5] 1 3) written)
      ∧ substr [9, 0, 2, 5, 6, 0x80, 0] 1 6 = sampleRecords.flatMap (Record.bytes .big)
      ∧ ∃ written, writeHunkFixEndian [9, 0, 2, 5, 6, 0x80, 0] 1 6 = .ok written
        ∧ parse .little written = some sampleRecords := by
  have records : substr [9, 0, 2, 5, 6, 0x80, 0] 1 6
      = sampleRecords.flatMap (Record.bytes .big) := by decide
  obtain ⟨written, ok, -, kept⟩ := writeHunkFixEndian_kept [9, 0, 7, 5] 1 3 (by decide)
  obtain ⟨swapped, swapped_ok, -, swapped_kept⟩ :=
    writeHunkFixEndian_kept [9, 0, 2, 5, 6, 0x80, 0] 1 6 (by decide)
  exact ⟨⟨written, ok, kept⟩, records, swapped, swapped_ok,
    swapped_kept.records sampleRecords records⟩

end LinuxDoc.Xc3028
