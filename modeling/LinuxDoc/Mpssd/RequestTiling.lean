import LinuxDoc.Mpssd.WalkBounds
import Mathlib.Data.List.Chain

/-! The walk of `virtio_block` tiles the range of the disk that a request names.
The links are given here as the card writes them, in little-endian fields, so that on a
little-endian host the converted and the raw reads of the loop see the same.
-/

namespace LinuxDoc.Mpssd

open Foundations Foundations.Loop

/-- From a descriptor the links lead through the given ones, and the last has no next. -/
def Linked (vring : Vring) (idx : BitVec 32) : List (BitVec 32) → Prop
  | [] => (vring.desc idx).flags &&& vringDescFNext = 0
  | next :: rest =>
      (vring.desc idx).flags &&& vringDescFNext ≠ 0
      ∧ (vring.desc idx).next.setWidth 32 = next
      ∧ Linked vring next rest

instance Linked.decidable (vring : Vring) : ∀ idx path, Decidable (Linked vring idx path)
  | idx, [] => inferInstanceAs (Decidable ((vring.desc idx).flags &&& vringDescFNext = 0))
  | idx, next :: rest =>
      have := Linked.decidable vring next rest
      inferInstanceAs (Decidable ((vring.desc idx).flags &&& vringDescFNext ≠ 0
        ∧ (vring.desc idx).next.setWidth 32 = next ∧ Linked vring next rest))

/-- The iovecs have these lengths, in order, and cover a range without gaps from its start.
-/
structure Tiles (start : BitVec 64) (lens : List (BitVec 32)) (iovs : List Iovec) : Prop where
  lengths : iovs.map Iovec.iovLen = lens.map (BitVec.setWidth 64)
  first : ∀ iov ∈ iovs.head?, iov.iovBase = start
  joined : iovs.IsChain fun iov next => next.iovBase = iov.iovBase + iov.iovLen

theorem tile_tiles (start : BitVec 64) (lens : List (BitVec 32))
    : Tiles start lens (tile start lens) := by
  induction lens generalizing start with
  | nil => exact ⟨rfl, by simp [tile], .nil⟩
  | cons len rest ih =>
      obtain ⟨lengths, first, joined⟩ := ih (start + len.setWidth 64)
      refine ⟨by rw [tile, List.map_cons, lengths, List.map_cons], by simp [tile], ?_⟩
      rw [tile]
      cases later : tile (start + len.setWidth 64) rest with
      | nil => exact .singleton _
      | cons next more =>
          rw [later] at first joined
          exact .cons_cons (first next rfl) joined

/-- On a little-endian host the conversions do nothing. -/
theorem le16toh_little (value : BitVec 16) : le16toh .little value = value := by
  have small := value.isLt
  have same : Endian.little.reorder 2 value.toNat = value.toNat := by
    rw [Endian.reorder, Endian.decode_encode, Nat.mod_eq_of_lt (by simpa using small)]
  rw [le16toh, same, BitVec.ofNat_toNat, BitVec.setWidth_eq]

/-- The links of the card are those that `next_desc` finds. -/
theorem Linked.trail {vring : Vring} {idx : BitVec 32} {path : List (BitVec 32)}
    (linked : Linked vring idx path)
    : Trail (chainLink .little vring) (some idx) (idx :: path) := by
  induction path generalizing idx with
  | nil =>
      have last : (vring.desc idx).flags &&& vringDescFNext = 0 := linked
      refine .cons ?_
      rw [chainLink, if_pos last]
      exact .nil
  | cons next rest ih =>
      obtain ⟨more, link, later⟩ := linked
      refine .cons ?_
      rw [chainLink, if_neg more, nextDesc, le16toh_little, if_neg more, le16toh_little, link]
      exact ih later

/-- For a chain of a header, at most `seg_max` data descriptors and a last one without a next
descriptor, the walk ends at the last one, has stored one iovec for each data descriptor, end to end
from the sector of the request on, and never stored one behind the array. The chain is a trail,
which the walk follows (`walk_settles`).
-/
theorem walk_tiles (ring : RingSize) (vring : Vring) (backendAddr sector : BitVec 64)
    (data : List (BitVec 32)) (final : BitVec 32)
    (chain : Linked vring (headIndex ring .little vring) (data ++ [final]))
    (short : data.length ≤ ring.segMax)
    : ∃ walked,
        Returns
          (fun fuel => run (walkPass .little vring) fuel
            (walkStart .little (vring.desc (headIndex ring .little vring))
              (sectorAddress backendAddr sector)))
          walked
        ∧ walked.descIdx = final
        ∧ walked.iovs.length = data.length
        ∧ Tiles (backendAddr + 512 * sector) (data.map fun idx => (vring.desc idx).len)
            walked.iovs
        ∧ ∀ state,
            Reaches (walkPass .little vring)
              (walkStart .little (vring.desc (headIndex ring .little vring))
                (sectorAddress backendAddr sector)) state
            → state.iovs.length ≤ ring.segMax := by
  have trail : Trail (chainLink .little vring)
      (some (nextDesc .little (vring.desc (headIndex ring .little vring)))) (data ++ [final]) := by
    have more : (vring.desc (headIndex ring .little vring)).flags &&& vringDescFNext ≠ 0 := by
      cases data <;> exact chain.1
    cases chain.trail with
    | cons tail => rwa [chainLink, if_neg more] at tail
  have start : sectorAddress backendAddr sector = backendAddr + 512 * sector := by
    rw [sectorAddress, BitVec.mul_comm]
    rfl
  obtain ⟨walked, last, pos, split, settled⟩ :=
    walk_settles .little vring trail (sectorAddress backendAddr sector) []
  obtain ⟨rfl, same⟩ := List.append_inj' split rfl
  obtain ⟨rfl, -⟩ := List.cons_eq_cons.mp same
  have tiles := tile_tiles (sectorAddress backendAddr sector)
    (data.map fun idx => (vring.desc idx).len)
  refine ⟨_, settled.returns, rfl, ?_, start ▸ tiles, ?_⟩
  · simpa using congrArg List.length tiles.lengths
  · intro state reached
    have stored : state.iovs.length < (data ++ [final]).length := by
      refine (reached.invariant (OnTrail .little vring (data ++ [final])) ?_
        (fun _ _ => OnTrail.continues)).bounds.2
      exact ⟨_, trail, List.Subset.refl _, by simp [walkStart]⟩
    simp only [List.length_append, List.length_singleton] at stored
    omega

def twoDataVring : Vring where
  desc := fun idx =>
    if idx = 0 then ⟨16, 1, 3⟩ else if idx = 3 then ⟨512, 1, 1⟩
    else if idx = 1 then ⟨1024, 3, 2⟩ else ⟨1, 2, 0⟩
  availRing := fun _ => 0
  infoAvailIdx := 0

theorem twoDataVring_tiled
    : ∃ walked,
        Returns
          (fun fuel => run (walkPass .little twoDataVring) fuel
            (walkStart .little (twoDataVring.desc 0) (sectorAddress 0x10000 2)))
          walked
        ∧ walked.descIdx = 2
        ∧ Tiles 0x10400 [512, 1024] walked.iovs := by
  obtain ⟨walked, returns, final, _, tiles, _⟩ :=
    walk_tiles micVringEntries twoDataVring 0x10000 2 [3, 1] 2 (by decide) (by decide)
  exact ⟨walked, returns, final, tiles⟩

end LinuxDoc.Mpssd
