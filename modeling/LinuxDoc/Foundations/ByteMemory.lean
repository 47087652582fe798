import LinuxDoc.Foundations.Bytes

/-! The memory of a machine with 64-bit addresses, byte by byte. Numbers are stored in
little-endian order, and addresses wrap around.
-/

namespace Foundations

abbrev ByteMemory := BitVec 64 → UInt8

namespace ByteMemory

def read (mem : ByteMemory) (address : BitVec 64) (count : Nat) : Nat :=
  Endian.little.load (fun i => mem (address + BitVec.ofNat 64 i)) count

def write (mem : ByteMemory) (address : BitVec 64) (count value : Nat) : ByteMemory :=
  fun a =>
    match (Endian.little.encode count value)[(a - address).toNat]? with
    | some byte => byte
    | none => mem a

variable {mem : ByteMemory} {address : BitVec 64} {count value : Nat}

/-- A byte outside of what is stored stays as it is. -/
theorem write_apart {a : BitVec 64} (apart : count ≤ (a - address).toNat)
    : mem.write address count value a = mem a := by
  have outside : (Endian.little.encode count value)[(a - address).toNat]? = none := by
    rw [List.getElem?_eq_none_iff, Endian.encode_length]
    exact apart
  simp only [write, outside]

/-- What has been stored is read back. -/
theorem read_write_same (small : count ≤ 2 ^ 64)
    : (mem.write address count value).read address count = value % 256 ^ count := by
  rw [← Endian.decode_encode .little count value, read, Endian.load]
  congr 1
  refine List.ext_getElem (by simp [Endian.encode_length]) fun i inside _ => ?_
  have bound : i < count := by simpa using inside
  have index : (address + BitVec.ofNat 64 i - address).toNat = i := by
    rw [BitVec.add_comm, BitVec.add_sub_cancel, BitVec.toNat_ofNat, Nat.mod_eq_of_lt (by omega)]
  have stored : (Endian.little.encode count value)[i]?
      = some (Endian.little.encode count value)[i] :=
    List.getElem?_eq_getElem _
  simp only [List.getElem_map, List.getElem_range, write, index, stored]

/-- A number that is stored elsewhere stays as it is. -/
theorem read_write_apart {other : BitVec 64} {size : Nat}
    (apart : ∀ i < size, count ≤ (other + BitVec.ofNat 64 i - address).toNat)
    : (mem.write address count value).read other size = mem.read other size :=
  Endian.load_congr .little fun i inside => write_apart (apart i inside)

end ByteMemory

end Foundations
