import LinuxDoc.AmtVersion.HostInterface

/-! What the validation of an AMT reply establishes.
The wrapping subtractions of the count check do no harm; the checks on the strings and on
the size of the table leave gaps.
-/

namespace LinuxDoc.AmtVersion

open Foundations

theorem headerLength_lt (host : Endian) (buffer : Buffer)
    : headerLength host buffer < 2 ^ 32 :=
  host.load_lt _ 4

variable {host : Endian} {buffer : Buffer}

/-- A passed header check ties the header's length to the number of bytes received. -/
theorem size_of_verifyResponseHeader {command size : Nat}
    (h : amtVerifyResponseHeader host command buffer size = statusSuccess)
    : sizeofRespHeader ≤ size ∧ size = headerLength host buffer + sizeofMsgHeader := by
  unfold amtVerifyResponseHeader at h
  split at h
  · cases h
  next whole =>
    split at h
    · cases h
    next same => exact ⟨not_lt.mp whole, not_not.mp same⟩

/-- The difference wraps around exactly for replies too short for an empty table. -/
theorem verTypeCnt_toNat {length : Nat} (bounded : length < 2 ^ 32)
    : (verTypeCnt length).toNat
      = if 73 ≤ length then length - 73 else 2 ^ 32 + length - 73 := by
  have four : BitVec.toNat (4 : BitVec 64) = 4 := rfl
  simp only [verTypeCnt, amtBiosVersionLen, BitVec.toNat_setWidth, BitVec.toNat_sub,
    BitVec.toNat_ofNat, four]
  split <;> omega

theorem codeCount_of_countMatches (h : countMatches host buffer = true)
    : codeCount host buffer = (verTypeCnt (headerLength host buffer)).toNat / 44 :=
  beq_iff_eq.mp h

/-- The count stays small as long as its last byte was not received. -/
theorem codeCount_lt_of_short {bufSize received : Nat} (content heap : Buffer)
    (enough : 85 ≤ bufSize) (short : received < 85)
    : codeCount .little (receiveBuffer bufSize received content heap) < 2 ^ 24 := by
  have cleared : receiveBuffer bufSize received content heap 84 = 0 := by
    rw [receiveBuffer, if_neg (by omega), if_pos (by omega)]
  have split : codeCount .little (receiveBuffer bufSize received content heap)
      = Endian.little.load (fun i => receiveBuffer bufSize received content heap (81 + i)) 3 := by
    simp [codeCount, word, Endian.load, Endian.decode, List.range_succ, sizeofRespHeader,
      amtBiosVersionLen, cleared]
  rw [split]
  exact Endian.little.load_lt _ 3

/-- A reply that passes the header check and the count check has room for its whole table:
for a shorter one the wrapped quotient would need a last count byte that is still zero.
-/
theorem table_received {bufSize received : Nat} {buffer content heap : Buffer} (command : Nat)
    (enough : 85 ≤ bufSize)
    (stored : buffer = receiveBuffer bufSize received content heap)
    (header : amtVerifyResponseHeader .little command buffer received = statusSuccess)
    (counted : countMatches .little buffer = true)
    : 73 ≤ headerLength .little buffer
      ∧ 73 + 44 * codeCount .little buffer ≤ headerLength .little buffer
      ∧ headerLength .little buffer < 73 + 44 * (codeCount .little buffer + 1)
      ∧ entryOffset (codeCount .little buffer) ≤ received := by
  obtain ⟨-, sized⟩ := size_of_verifyResponseHeader header
  have quotient := codeCount_of_countMatches counted
  rw [verTypeCnt_toNat (headerLength_lt .little buffer)] at quotient
  simp only [sizeofMsgHeader, entryOffset, sizeofRespHeader, versionsOffset,
    amtBiosVersionLen, sizeofVersionType, amtUnicodeStringLen] at *
  by_cases long : 73 ≤ headerLength .little buffer
  · rw [if_pos long] at quotient
    omega
  · rw [if_neg long] at quotient
    have small : codeCount .little buffer < 2 ^ 24 := by
      rw [stored]
      exact codeCount_lt_of_short content heap enough (by omega)
    omega

def flashReply : Buffer :=
  fieldBytes [(1, 1), (1, 1), (2, 0), (4, codeVersionsResponse), (4, 117), (4, 0), (65, 0),
    (4, 1), (2, 5), (20, 0x6873616c46), (2, 3), (20, 0x312e37)]

theorem flashReply_table
    : 73 + 44 * codeCount .little (receiveBuffer 512 129 flashReply (fun _ => 0xff))
      ≤ headerLength .little (receiveBuffer 512 129 flashReply (fun _ => 0xff)) :=
  (table_received codeVersionsResponse (by decide) rfl (by decide) (by decide)).2.1

/-- What an entry must satisfy to pass: a bounded description length, and a version whose
length field is the distance to its first NUL.
-/
structure EntryPasses (host : Endian) (buffer : Buffer) (entry : Nat) : Prop where
  description : word host buffer entry 2 ≤ amtUnicodeStringLen
  closed : buffer (entry + 24 + word host buffer (entry + 22) 2) = 0
  measured : ∀ i < word host buffer (entry + 22) 2, buffer (entry + 24 + i) ≠ 0

theorem verifyEntry_of_passes {entry : Nat} (h : EntryPasses host buffer entry)
    : verifyEntry host buffer entry
      = ⟨statusSuccess, fieldReads entry 2 ++ fieldReads (entry + 22) 2
          ++ [entry + 24 + word host buffer (entry + 22) 2]
          ++ fieldReads (entry + 24) (word host buffer (entry + 22) 2 + 1)⟩ := by
  have length := (strlen_eq_limit_iff (fun i => buffer (entry + 24 + i)) _).mpr h.measured
  simp only [verifyEntry, not_lt.mpr h.description, h.closed, length, ne_eq,
    not_true_eq_false, if_false]

theorem verifyEntry_success_iff (host : Endian) (buffer : Buffer) (entry : Nat)
    : (verifyEntry host buffer entry).status = statusSuccess
      ↔ EntryPasses host buffer entry := by
  refine ⟨?_, fun h => by rw [verifyEntry_of_passes h]⟩
  intro passed
  simp only [verifyEntry] at passed
  split at passed
  · cases passed
  next described =>
    split at passed
    · cases passed
    next closed =>
      split at passed
      · cases passed
      next same =>
        exact ⟨not_lt.mp described, not_not.mp closed,
          (strlen_eq_limit_iff _ _).mp (not_not.mp same).symm⟩

/-- An entry with a short version is validated without a look outside it. -/
theorem EntryPasses.reads_lt {entry : Nat} (h : EntryPasses host buffer entry)
    (short : word host buffer (entry + 22) 2 < amtUnicodeStringLen)
    : ∀ index ∈ (verifyEntry host buffer entry).reads, index < entry + sizeofVersionType := by
  intro index member
  rw [verifyEntry_of_passes h] at member
  simp only [fieldReads, List.mem_append, List.mem_map, List.mem_range,
    List.mem_singleton, amtUnicodeStringLen, sizeofVersionType] at *
  omega

theorem verifyVersions_success_iff (host : Endian) (buffer : Buffer) (remaining i : Nat)
    : (verifyVersions host buffer remaining i).status = statusSuccess
      ↔ ∀ j < remaining, EntryPasses host buffer (entryOffset (i + j)) := by
  induction remaining generalizing i with
  | zero => simp [verifyVersions]
  | succ remaining ih =>
      rw [verifyVersions, Nat.forall_lt_succ_left]
      by_cases passed : (verifyEntry host buffer (entryOffset i)).status = statusSuccess
      · have first := (verifyEntry_success_iff host buffer (entryOffset i)).mp passed
        simp only [passed, ne_eq, not_true_eq_false, if_false, ih, Nat.add_zero, first,
          true_and, Nat.add_assoc, Nat.add_comm 1]
      · have first := mt (verifyEntry_success_iff host buffer (entryOffset i)).mpr passed
        simp only [passed, ne_eq, not_false_eq_true, if_true, Nat.add_zero, first, false_and]

/-- Every offset the loop reads is read for one of its entries. -/
theorem verifyVersions_reads {remaining i index : Nat}
    (member : index ∈ (verifyVersions host buffer remaining i).reads)
    : ∃ j < remaining, index ∈ (verifyEntry host buffer (entryOffset (i + j))).reads := by
  induction remaining generalizing i with
  | zero => cases member
  | succ remaining ih =>
      rw [verifyVersions] at member
      simp only at member
      split at member
      · exact ⟨0, by omega, member⟩
      · rcases List.mem_append.mp member with first | later
        · exact ⟨0, by omega, first⟩
        · obtain ⟨j, bound, found⟩ := ih later
          exact ⟨j + 1, by omega, by rwa [Nat.add_right_comm, Nat.add_assoc] at found⟩

end LinuxDoc.AmtVersion
