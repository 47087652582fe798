import LinuxDoc.Foundations.Trail
import LinuxDoc.Foundations.Bytes

/-! One request of the virtio block backend: the descriptor walk, the transfer and the
status byte. Descriptors are read as the host sees them in shared memory, so a field that
the source does not convert stays in the byte order of the guest.
-/

namespace LinuxDoc.Mpssd

open Foundations Foundations.Loop

def le16toh (host : Endian) (value : BitVec 16) : BitVec 16 :=
  BitVec.ofNat 16 (host.reorder 2 value.toNat)

def le32toh (host : Endian) (value : BitVec 32) : BitVec 32 :=
  BitVec.ofNat 32 (host.reorder 4 value.toNat)

/-- `MIC_VRING_ENTRIES`, the size of every ring of the driver: a power of two that 16-bit
ring indices can count.
-/
structure RingSize where
  entries : Nat
  powerOfTwo : ∃ exponent ≤ 15, entries = 2 ^ exponent
  twoLe : 2 ≤ entries

def micVringEntries : RingSize :=
  ⟨128, ⟨7, by decide, rfl⟩, by decide⟩

/-- `seg_max`, which also is the number of elements of the iovec array. -/
def RingSize.segMax (ring : RingSize) : Nat := ring.entries - 2

structure VringDesc where
  len : BitVec 32
  flags : BitVec 16
  next : BitVec 16
  deriving DecidableEq

/-- The ring as the backend reads it. The descriptor table has `entries` elements; indices
past them read whatever memory follows the table.
-/
structure Vring where
  desc : BitVec 32 → VringDesc
  availRing : Nat → BitVec 16
  infoAvailIdx : BitVec 16

def vringDescFNext : BitVec 16 := 1
def vringDescFWrite : BitVec 16 := 2

def nextDesc (host : Endian) (desc : VringDesc) : BitVec 32 :=
  if le16toh host desc.flags &&& vringDescFNext = 0 then 0xffffffff
  else (le16toh host desc.next).setWidth 32

def headIndex (ring : RingSize) (host : Endian) (vring : Vring) : BitVec 32 :=
  (le16toh host (vring.availRing (vring.infoAvailIdx.toNat &&& (ring.entries - 1)))).setWidth 32

def minusEio : BitVec 8 := BitVec.ofInt 8 (-5)
def minusEnotsup : BitVec 8 := BitVec.ofInt 8 (-95)

def headerErrorCheck (host : Endian) (desc : VringDesc) : BitVec 8 :=
  if le32toh host desc.len ≠ 16 then minusEio
  else if le16toh host desc.flags &&& vringDescFNext = 0 then minusEio
  else if le16toh host desc.flags &&& vringDescFWrite ≠ 0 then minusEio
  else 0

def statusErrorCheck (host : Endian) (desc : VringDesc) : BitVec 8 :=
  if le32toh host desc.len ≠ 1 then minusEio else 0

structure VirtioBlkOuthdr where
  type : BitVec 32
  sector : BitVec 64
  deriving DecidableEq

structure Iovec where
  iovBase : BitVec 64
  iovLen : BitVec 64
  deriving DecidableEq

/-- The variables of the `for` loop over the descriptors after the header: the index whose
descriptor `desc` points to, the file position, and the iovecs stored so far.
-/
structure WalkState where
  descIdx : BitVec 32
  fos : BitVec 64
  iovs : List Iovec

/-- One pass of the loop. Its test reads the flags without `le16toh`, and its body reads
the length without `le32toh`.
-/
def walkPass (host : Endian) (vring : Vring) (state : WalkState)
    : Option (Pass WalkState WalkState) :=
  let desc := vring.desc state.descIdx
  if desc.flags &&& vringDescFNext = 0 then
    some (.leave state)
  else
    some
      (.again
        {
          descIdx := nextDesc host desc
          fos := state.fos + desc.len.setWidth 64
          iovs := state.iovs ++ [⟨state.fos, desc.len.setWidth 64⟩]
        })

def walkStart (host : Endian) (head : VringDesc) (fos : BitVec 64) : WalkState :=
  ⟨nextDesc host head, fos, []⟩

def chainLink (host : Endian) (vring : Vring) (idx : BitVec 32) : Option (BitVec 32) :=
  if (vring.desc idx).flags &&& vringDescFNext = 0 then none
  else some (nextDesc host (vring.desc idx))

def tile (fos : BitVec 64) : List (BitVec 32) → List Iovec
  | [] => []
  | len :: rest => ⟨fos, len.setWidth 64⟩ :: tile (fos + len.setWidth 64) rest

/-- The walk along a trail of descriptors stores one iovec for each descriptor but the
last, end to end, and leaves at the last one. Witness: induction along the trail.
-/
theorem walk_settles (host : Endian) (vring : Vring) {start : BitVec 32}
    {visited : List (BitVec 32)} (trail : Trail (chainLink host vring) (some start) visited)
    (fos : BitVec 64) (iovs : List Iovec)
    : ∃ data final pos,
        visited = data ++ [final]
        ∧ Settles (fun _ => walkPass host vring) ⟨start, fos, iovs⟩
            ⟨final, pos, iovs ++ tile fos (data.map (fun idx => (vring.desc idx).len))⟩ := by
  induction visited generalizing start fos iovs with
  | nil => cases trail
  | cons idx rest ih =>
      cases trail with
      | cons tail =>
          by_cases ends : (vring.desc idx).flags &&& vringDescFNext = 0
          · rw [chainLink, if_pos ends] at tail
            cases tail
            refine ⟨[], idx, fos, rfl, .leave (.const (fun _ => ?_))⟩
            simp [walkPass, ends, tile]
          · rw [chainLink, if_neg ends] at tail
            obtain ⟨data, final, pos, split, settled⟩ :=
              ih tail (fos + (vring.desc idx).len.setWidth 64)
                (iovs ++ [⟨fos, (vring.desc idx).len.setWidth 64⟩])
            refine ⟨idx :: data, final, pos, by rw [split, List.cons_append], ?_⟩
            refine .again (.const (fun _ => by rw [walkPass, if_neg ends])) ?_
            simpa only [List.map_cons, tile, List.append_assoc, List.singleton_append]
              using settled

/-- What the copy requests to the driver result in: the header that `read_header` fills in
with its return value, and the return value of `transfer_blocks`.
-/
structure CopyResults where
  readHeader : Int
  hdr : VirtioBlkOuthdr
  transferBlocks : Int

/-- A request is given up when its header cannot be read. Otherwise it ends with a status
byte, after at most one transfer of an iovec array.
-/
inductive RequestOutcome where
  | givenUp
  | answered (transfer : Option (List Iovec)) (status : BitVec 8)

def virtioBlkTOut : BitVec 32 := 1
def virtioBlkTGetId : BitVec 32 := 8

/-- `hdr.type` has no bit besides `VIRTIO_BLK_T_OUT` and `VIRTIO_BLK_T_GET_ID`. -/
def supportedType (type : BitVec 32) : Bool :=
  type &&& ~~~(virtioBlkTOut ||| virtioBlkTGetId) = 0

def sectorSize : Nat := 512

def sectorAddress (backendAddr sector : BitVec 64) : BitVec 64 :=
  backendAddr + sector * BitVec.ofNat 64 sectorSize

def finishRequest (host : Endian) (vring : Vring) (results : CopyResults)
    (walked : WalkState)
    : RequestOutcome :=
  let status : BitVec 8 := 0
  let supported := supportedType results.hdr.type
  let transfer := if supported then some walked.iovs else none
  let status :=
    if supported then
      if results.transferBlocks < 0 ∧ status ≠ 0 then BitVec.ofInt 8 results.transferBlocks
      else status
    else minusEnotsup
  let status :=
    if status ≠ 0 then statusErrorCheck host (vring.desc walked.descIdx) else status
  .answered transfer status

/-- One pass of the loop over the available ring. The verdict of `header_error_check` is
overwritten before anything reads it.
-/
def serveRequest (ring : RingSize) (host : Endian) (vring : Vring)
    (backendAddr : BitVec 64) (results : CopyResults) (fuel : Nat)
    : Option RequestOutcome :=
  let head := vring.desc (headIndex ring host vring)
  let _status := headerErrorCheck host head
  if results.readHeader < 0 then
    some .givenUp
  else
    let fos := sectorAddress backendAddr results.hdr.sector
    (run (walkPass host vring) fuel (walkStart host head fos)).map
      (finishRequest host vring results)

/-- The descriptors after the header form a chain that ends: `data` followed by the
descriptor `final` of the status byte.
-/
def DataChain (ring : RingSize) (host : Endian) (vring : Vring) (data : List (BitVec 32))
    (final : BitVec 32)
    : Prop :=
  Trail (chainLink host vring)
    (some (nextDesc host (vring.desc (headIndex ring host vring)))) (data ++ [final])

def writeVring : Vring :=
  {
    desc := fun idx =>
      if idx = 0 then ⟨16, 1, 1⟩ else if idx = 1 then ⟨512, 1, 2⟩ else ⟨1, 2, 0⟩
    availRing := fun _ => 0
    infoAvailIdx := 0
  }

theorem writeVring_chain : DataChain micVringEntries .little writeVring [1] 2 := by
  have first : nextDesc .little
      (writeVring.desc (headIndex micVringEntries .little writeVring)) = 1 := by decide
  have second : chainLink .little writeVring 1 = some 2 := by decide
  have third : chainLink .little writeVring 2 = none := by decide
  rw [DataChain, first]
  refine .cons ?_
  rw [second]
  refine .cons ?_
  rw [third]
  exact .nil

/-- A request whose header can be read and whose chain ends is answered, as the rest of
the pass decides from the walked chain.
-/
theorem serveRequest_returns (ring : RingSize) (host : Endian) (vring : Vring)
    (backendAddr : BitVec 64) (results : CopyResults) {data : List (BitVec 32)}
    {final : BitVec 32} (readable : 0 ≤ results.readHeader)
    (chain : DataChain ring host vring data final)
    : ∃ pos,
        Returns (serveRequest ring host vring backendAddr results)
          (finishRequest host vring results
            ⟨
              final,
              pos,
              tile (sectorAddress backendAddr results.hdr.sector)
                (data.map (fun idx => (vring.desc idx).len))
            ⟩) := by
  obtain ⟨walked, last, pos, split, settled⟩ :=
    walk_settles host vring chain (sectorAddress backendAddr results.hdr.sector) []
  obtain ⟨rfl, same⟩ := List.append_inj' split rfl
  obtain ⟨rfl, -⟩ := List.cons_eq_cons.mp same
  refine ⟨pos, ?_⟩
  have unfolded : serveRequest ring host vring backendAddr results
      = fun fuel =>
          (run (walkPass host vring) fuel
            (walkStart host (vring.desc (headIndex ring host vring))
              (sectorAddress backendAddr results.hdr.sector))).map
            (finishRequest host vring results) := by
    funext fuel
    rw [serveRequest, if_neg (by omega)]
  rw [unfolded]
  exact settled.returns.map _

end LinuxDoc.Mpssd
