import LinuxDoc.Mpssd.BlockRequest
import Mathlib.Data.Nat.ModEq
import Mathlib.Algebra.BigOperators.Group.List.Basic

/-! Which part of the host's memory a block request gives to the transfer.
The backend is a mapped file; a request addresses it by sector and by the lengths of its
data descriptors, and the capacity that the card is told is rounded up to whole sectors.
-/

namespace LinuxDoc.Mpssd

open Foundations Foundations.Loop

/-- `set_backend_size`: the stored capacity for a result of `lseek`, or `none` when the
size is not accepted.
-/
def setBackendSize (host : Endian) (lseek : Int) : Option (BitVec 64) :=
  if lseek < 0 then none
  else
    let capacity := lseek.toNat / sectorSize
    let capacity := if lseek.toNat % sectorSize ≠ 0 then capacity + 1 else capacity
    some (BitVec.ofNat 64 (host.reorder 8 capacity))

/-- The number that the card reads from the little-endian capacity field. -/
def advertised (host : Endian) (capacity : BitVec 64) : Nat :=
  host.reorder 8 capacity.toNat

/-- A mapped backend file. A size is a non-negative `long`, and the end of a region that
`mmap` returns is an address too.
-/
structure Backend where
  addr : BitVec 64
  size : Nat
  sizeLt : size < 2 ^ 63
  mapped : addr.toNat + size < 2 ^ 64

def Backend.Contains (backend : Backend) (iov : Iovec) : Prop :=
  backend.addr.toNat ≤ iov.iovBase.toNat
  ∧ iov.iovBase.toNat + iov.iovLen.toNat ≤ backend.addr.toNat + backend.size

instance (backend : Backend) (iov : Iovec) : Decidable (backend.Contains iov) :=
  inferInstanceAs (Decidable (_ ∧ _))

/-- The advertised capacity is the size in sectors, rounded up. -/
theorem setBackendSize_advertised (host : Endian) (size : Nat) (sizeLt : size < 2 ^ 63)
    : ∃ capacity,
        setBackendSize host size = some capacity
        ∧ advertised host capacity = (size + (sectorSize - 1)) / sectorSize := by
  refine ⟨_, if_neg (by omega), ?_⟩
  have rounded : (if (size : Int).toNat % sectorSize ≠ 0 then (size : Int).toNat / sectorSize + 1
        else (size : Int).toNat / sectorSize)
      = (size + (sectorSize - 1)) / sectorSize := by
    rw [Int.toNat_natCast]
    by_cases whole : size % sectorSize = 0
    · rw [if_neg (not_not.mpr whole)]
      simp only [sectorSize] at whole ⊢
      omega
    · rw [if_pos whole]
      simp only [sectorSize] at whole ⊢
      omega
  have stored := host.reorder_lt 8 ((size + (sectorSize - 1)) / sectorSize)
  rw [rounded, advertised, BitVec.toNat_ofNat,
    Nat.mod_eq_of_lt (by simpa using stored), Endian.reorder_reorder]
  apply Nat.mod_eq_of_lt
  simp only [sectorSize]
  omega

/-- Iovecs laid end to end from a position inside the mapping stay inside exactly when
their total length does. Witness: induction on the lengths; a position inside the mapping
cannot wrap before it leaves.
-/
theorem tile_contained_iff (backend : Backend) (lens : List (BitVec 32)) (fos : BitVec 64)
    (offset : Nat) (position : fos.toNat = backend.addr.toNat + offset)
    (inside : offset ≤ backend.size)
    : (∀ iov ∈ tile fos lens, backend.Contains iov)
      ↔ offset + (lens.map BitVec.toNat).sum ≤ backend.size := by
  induction lens generalizing fos offset with
  | nil => simpa [tile] using inside
  | cons len rest ih =>
      have small := len.isLt
      have mapped := backend.mapped
      have bounded := backend.sizeLt
      have width : (len.setWidth 64).toNat = len.toNat := by
        rw [BitVec.toNat_setWidth, Nat.mod_eq_of_lt (by omega)]
      have head : backend.Contains ⟨fos, len.setWidth 64⟩ ↔ offset + len.toNat ≤ backend.size := by
        simp only [Backend.Contains, width, position]
        omega
      rw [tile, List.forall_mem_cons, List.map_cons, List.sum_cons, head]
      by_cases fits : offset + len.toNat ≤ backend.size
      · have moved : (fos + len.setWidth 64).toNat
            = backend.addr.toNat + (offset + len.toNat) := by
          rw [BitVec.toNat_add, width, position]
          omega
        rw [ih _ _ moved fits]
        omega
      · constructor
        · intro h
          rcases h with ⟨first, _⟩
          exact absurd first fits
        · intro total
          omega

/-- From a wrapped sector position the first iovec already decides: it is inside exactly
when the position and everything after it is.
-/
theorem tile_sector_contained_iff (backend : Backend) (sector : BitVec 64)
    (lens : List (BitVec 32))
    : (∀ iov ∈ tile (sectorAddress backend.addr sector) lens, backend.Contains iov)
      ↔ lens = []
        ∨ sectorSize * sector.toNat % 2 ^ 64 + (lens.map BitVec.toNat).sum ≤ backend.size := by
  have mapped := backend.mapped
  have product : (sector * BitVec.ofNat 64 sectorSize).toNat
      = sectorSize * sector.toNat % 2 ^ 64 := by
    rw [BitVec.toNat_mul, BitVec.toNat_ofNat, Nat.mul_comm]
    rfl
  have below : sectorSize * sector.toNat % 2 ^ 64 < 2 ^ 64 := Nat.mod_lt _ (by decide)
  cases lens with
  | nil => simp [tile]
  | cons len rest =>
      by_cases inside : sectorSize * sector.toNat % 2 ^ 64 ≤ backend.size
      · have position : (sectorAddress backend.addr sector).toNat
            = backend.addr.toNat + sectorSize * sector.toNat % 2 ^ 64 := by
          rw [sectorAddress, BitVec.toNat_add, product]
          omega
        rw [tile_contained_iff backend _ _ _ position inside]
        simp
      · constructor
        · intro all
          have first := all _ (List.mem_cons_self ..)
          obtain ⟨low, high⟩ := first
          simp only [sectorAddress, BitVec.toNat_add, product] at low high
          omega
        · intro h
          rcases h with empty | total
          · cases empty
          · omega

/-- Everything that the request hands to `transfer_blocks` lies within the mapping. -/
def Isolated (backend : Backend) (transfer : Option (List Iovec)) : Prop :=
  ∀ iovs, transfer = some iovs → ∀ iov ∈ iovs, backend.Contains iov

def SectorInFile (size sector : Nat) : Prop :=
  sectorSize * sector + sectorSize ≤ size

instance (size sector : Nat) : Decidable (SectorInFile size sector) :=
  inferInstanceAs (Decidable (_ ≤ _))

/-- The sectors that the card is told of: those that start in the file, of which a partial
last one is not in it.
-/
theorem setBackendSize_sectors (host : Endian) (size : Nat) (sizeLt : size < 2 ^ 63)
    : ∃ capacity,
        setBackendSize host size = some capacity
        ∧ (∀ sector < size / sectorSize, SectorInFile size sector)
        ∧ (∀ sector, sector < advertised host capacity ↔ sectorSize * sector < size)
        ∧ ((∀ sector < advertised host capacity, SectorInFile size sector)
          ↔ sectorSize ∣ size) := by
  obtain ⟨capacity, accepted, rounded⟩ := setBackendSize_advertised host size sizeLt
  refine ⟨capacity, accepted, ?_, ?_, ?_⟩
  · intro sector below
    simp only [SectorInFile, sectorSize] at below ⊢
    omega
  · intro sector
    rw [rounded]
    simp only [sectorSize]
    omega
  · rw [rounded]
    simp only [SectorInFile, sectorSize]
    constructor
    · intro all
      by_contra partialLast
      have last := all (size / 512) (by omega)
      omega
    · intro whole sector below
      omega

/-- A request stays within the mapping exactly when its type is refused, it has no data, or its
position and total length fit the file: nothing else is checked. The capacity rounds a partial last
sector up, so all its sectors are in the file exactly for whole files. The iovecs are tiles of the
file, so their last end decides.
-/
theorem backend_isolation (ring : RingSize) (host : Endian) (vring : Vring)
    (backend : Backend) (results : CopyResults) (data : List (BitVec 32))
    (final : BitVec 32) (readable : 0 ≤ results.readHeader)
    (chain : DataChain ring host vring data final)
    : (∃ transfer status,
        Returns (serveRequest ring host vring backend.addr results)
          (.answered transfer status)
        ∧ (Isolated backend transfer
          ↔ supportedType results.hdr.type = false
            ∨ data = []
            ∨ sectorSize * results.hdr.sector.toNat % 2 ^ 64
                + (data.map (fun idx => (vring.desc idx).len.toNat)).sum
              ≤ backend.size)
        ∧ (transfer = none ↔ supportedType results.hdr.type = false))
      ∧ ∃ capacity,
          setBackendSize host backend.size = some capacity
          ∧ (∀ sector < backend.size / sectorSize, SectorInFile backend.size sector)
          ∧ (∀ sector,
              sector < advertised host capacity ↔ sectorSize * sector < backend.size)
          ∧ ((∀ sector < advertised host capacity, SectorInFile backend.size sector)
            ↔ sectorSize ∣ backend.size) := by
  refine ⟨?_, setBackendSize_sectors host backend.size backend.sizeLt⟩
  obtain ⟨pos, returned⟩ :=
    serveRequest_returns ring host vring backend.addr results readable chain
  have contained := tile_sector_contained_iff backend results.hdr.sector
    (data.map (fun idx => (vring.desc idx).len))
  rw [List.map_eq_nil_iff, List.map_map, Function.comp_def] at contained
  refine ⟨_, _, returned, ?_, ?_⟩
  · cases supported : supportedType results.hdr.type with
    | false => simp [Isolated]
    | true => simpa [Isolated] using contained
  · cases supported : supportedType results.hdr.type <;> simp

def sectorBackend (size : Nat) (sizeLt : size < 2 ^ 63) : Backend :=
  ⟨0x10000, size, sizeLt, by
    have position : (0x10000 : BitVec 64).toNat = 0x10000 := by decide
    omega⟩

/-- Writing the second sector of a two-sector file stays within it. -/
theorem backend_isolation_write
    : ∃ transfer status,
        Returns (serveRequest micVringEntries .little writeVring 0x10000 ⟨0, ⟨1, 1⟩, 0⟩)
          (.answered transfer status)
        ∧ Isolated (sectorBackend 1024 (by decide)) transfer := by
  obtain ⟨⟨transfer, status, returned, isolated, -⟩, -⟩ :=
    backend_isolation micVringEntries .little writeVring (sectorBackend 1024 (by decide))
      ⟨0, ⟨1, 1⟩, 0⟩ [1] 2 (by decide) writeVring_chain
  exact ⟨transfer, status, returned, isolated.mpr (Or.inr (Or.inr (by decide)))⟩

/-- Of a file of 513 bytes two sectors are advertised. The second is only partly in the
file, and a write to it is handed to the transfer beyond the end of the mapping.
-/
theorem partialSector_escapes
    : (∃ capacity,
        setBackendSize .little 513 = some capacity
        ∧ 1 < advertised .little capacity
        ∧ ¬ SectorInFile 513 1)
      ∧ ∃ iovs status,
          Returns (serveRequest micVringEntries .little writeVring 0x10000 ⟨0, ⟨1, 1⟩, 0⟩)
            (.answered (some iovs) status)
          ∧ ¬ Isolated (sectorBackend 513 (by decide)) (some iovs) := by
  constructor
  · exact ⟨_, rfl, by decide, by decide⟩
  · obtain ⟨pos, returned⟩ := serveRequest_returns micVringEntries .little writeVring 0x10000
      ⟨0, ⟨1, 1⟩, 0⟩ (by decide) writeVring_chain
    refine ⟨_, _, returned, ?_⟩
    intro isolated
    have member : (⟨0x10200, 512⟩ : Iovec)
        ∈ tile (sectorAddress 0x10000 1)
            ([1].map (fun idx => (writeVring.desc idx).len)) := by decide
    exact absurd (isolated _ rfl _ member) (by decide)

end LinuxDoc.Mpssd
