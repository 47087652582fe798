import LinuxDoc.Mpssd.BlockRequest

/-! The status byte of a block request against what happened to the request.
Every assignment that reports an error is undone by a later one, so the guest reads zero
for every chain that ends in a one-byte status descriptor.
-/

namespace LinuxDoc.Mpssd

open Foundations Foundations.Loop

/-- Nothing went wrong with the request: its header descriptor is accepted, its type is
supported, and the transfer did not fail.
-/
structure Succeeded (ring : RingSize) (host : Endian) (vring : Vring)
    (results : CopyResults)
    : Prop where
  headerAccepted : headerErrorCheck host (vring.desc (headIndex ring host vring)) = 0
  typeSupported : supportedType results.hdr.type = true
  transferred : 0 ≤ results.transferBlocks

/-- The status byte tells the guest whether the request succeeded. -/
def StatusTruthful (ring : RingSize) (host : Endian) (vring : Vring)
    (results : CopyResults) (status : BitVec 8)
    : Prop :=
  status = 0 ↔ Succeeded ring host vring results

/-- A one-byte status descriptor turns any status into zero: an error in the transfer is
only recorded over an earlier error, and an earlier error is replaced by the check of the
status descriptor.
-/
theorem finishRequest_status (host : Endian) (vring : Vring) (results : CopyResults)
    (walked : WalkState) (oneByte : le32toh host (vring.desc walked.descIdx).len = 1)
    : finishRequest host vring results walked
      = .answered (if supportedType results.hdr.type then some walked.iovs else none) 0 := by
  have checked : statusErrorCheck host (vring.desc walked.descIdx) = 0 := by
    rw [statusErrorCheck, if_neg (by simp [oneByte])]
  cases supported : supportedType results.hdr.type with
  | false => simp [finishRequest, supported, checked]
  | true => simp [finishRequest, supported]

/-- The status is truthful exactly for the requests that succeed: each is answered with zero,
whether it succeeded or not. `serveRequest_returns` runs the request, and nothing on its way sets
the status.
-/
theorem statusTruthful_iff (ring : RingSize) (host : Endian) (vring : Vring)
    (backendAddr : BitVec 64) (results : CopyResults) (data : List (BitVec 32))
    (final : BitVec 32) (readable : 0 ≤ results.readHeader)
    (chain : DataChain ring host vring data final)
    (oneByte : le32toh host (vring.desc final).len = 1)
    : ∃ transfer status,
        Returns (serveRequest ring host vring backendAddr results)
          (.answered transfer status)
        ∧ (StatusTruthful ring host vring results status
          ↔ Succeeded ring host vring results) := by
  obtain ⟨pos, returned⟩ :=
    serveRequest_returns ring host vring backendAddr results readable chain
  rw [finishRequest_status host vring results _ oneByte] at returned
  refine ⟨_, 0, returned, ?_⟩
  simp [StatusTruthful]

theorem statusTruthful_iff_write
    : ∃ transfer status,
        Returns (serveRequest micVringEntries .little writeVring 0x10000 ⟨0, ⟨1, 0⟩, 0⟩)
          (.answered transfer status)
        ∧ StatusTruthful micVringEntries .little writeVring ⟨0, ⟨1, 0⟩, 0⟩ status := by
  obtain ⟨transfer, status, returned, truthful⟩ :=
    statusTruthful_iff micVringEntries .little writeVring 0x10000 ⟨0, ⟨1, 0⟩, 0⟩ [1] 2 (by decide)
      writeVring_chain (by decide)
  exact ⟨transfer, status, returned, truthful.mpr ⟨by decide, by decide, by decide⟩⟩

/-- A write whose transfer fails is reported as a success. -/
theorem failedTransfer_reportedAsSuccess
    : ∃ transfer,
        Returns (serveRequest micVringEntries .little writeVring 0x10000 ⟨0, ⟨1, 0⟩, -1⟩)
          (.answered transfer 0)
        ∧ ¬ StatusTruthful micVringEntries .little writeVring ⟨0, ⟨1, 0⟩, -1⟩ 0 := by
  obtain ⟨pos, returned⟩ := serveRequest_returns micVringEntries .little writeVring 0x10000
    ⟨0, ⟨1, 0⟩, -1⟩ (by decide) writeVring_chain
  refine ⟨_, returned, ?_⟩
  intro truthful
  have transferred := (truthful.mp rfl).transferred
  exact absurd transferred (by decide)

end LinuxDoc.Mpssd
