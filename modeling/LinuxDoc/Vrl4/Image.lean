import LinuxDoc.Foundations.Bytes
import LinuxDoc.Vrl4.Transfer

/-! The vrl4 generator: its boot header and the image it writes for a kernel. -/

namespace LinuxDoc.Vrl4

open Foundations Foundations.Loop

structure Hdr where
  magic1 : UInt32
  reserved1 : UInt32
  magic2 : UInt32
  reserved2 : UInt32
  copySize : UInt16
  bootOptions : UInt16
  reserved3 : UInt32
  startAddress : UInt32
  reserved4 : UInt32
  reserved5 : UInt32
  reserved6 : Vector UInt8 308

def htole16 (host : Endian) (value : Nat) : UInt16 := UInt16.ofNat (host.reorder 2 value)
def htole32 (host : Endian) (value : Nat) : UInt32 := UInt32.ofNat (host.reorder 4 value)

def declareHdr (host : Endian) : Hdr :=
  {
    magic1 := htole32 host 0xea000000
    reserved1 := htole32 host 0x56
    magic2 := htole32 host 0xe59ff008
    reserved2 := 0
    copySize := 0
    bootOptions := 0
    -- The initialiser converts 16 bits and widens the result to the member.
    reserved3 := (htole16 host 0x1).toUInt32
    startAddress := 0
    reserved4 := 0
    reserved5 := 0
    reserved6 := .replicate 308 0
  }

def Hdr.bytes (hdr : Hdr) (host : Endian) : List UInt8 :=
  host.encode 4 hdr.magic1.toNat
  ++ (host.encode 4 hdr.reserved1.toNat
  ++ (host.encode 4 hdr.magic2.toNat
  ++ (host.encode 4 hdr.reserved2.toNat
  ++ (host.encode 2 hdr.copySize.toNat
  ++ (host.encode 2 hdr.bootOptions.toNat
  ++ (host.encode 4 hdr.reserved3.toNat
  ++ (host.encode 4 hdr.startAddress.toNat
  ++ (host.encode 4 hdr.reserved4.toNat
  ++ (host.encode 4 hdr.reserved5.toNat
  ++ hdr.reserved6.toList)))))))))

def sizeofHdr : Nat := 344

theorem Hdr.bytes_length (hdr : Hdr) (host : Endian) : (hdr.bytes host).length = sizeofHdr := by
  simp [bytes, sizeofHdr, Endian.encode_length]

def alignBits : UInt64 := 9
def align : UInt64 := 1 <<< alignBits
def startBase : UInt64 := 0xe55b0000
def maxBootProgLen : Nat := 16 * 512

def roundUp (x : UInt64) : UInt64 := (x + align - 1) &&& ~~~(align - 1)

def alignedHdrLen : UInt64 := roundUp (.ofNat sizeofHdr)

def mainHdr (host : Endian) (progLen : Nat) : Hdr :=
  {
    declareHdr host with
    startAddress := htole32 host (startBase + alignedHdrLen).toNat
    copySize := htole16 host (alignedHdrLen + roundUp (.ofNat progLen)).toNat
  }

def copyPass (schedule : Schedule) (fuel : Nat) (p : Process)
    : Option (Pass Process (Int × Process)) :=
  match doRead schedule maxBootProgLen p fuel with
  | none => none
  | some (none, p) => some (.leave (1, p))
  | some (some [], p) => some (.leave (0, p))
  | some (some bootProgram, p) =>
      match doWrite schedule bootProgram p fuel with
      | none => none
      | some (none, p) => some (.leave (1, p))
      | some (some _, p) => some (.again p)

def writeImage (host : Endian) (schedule : Schedule) (bootProgram : List UInt8) (p : Process)
    (fuel : Nat)
    : Option (Int × Process) :=
  match doWrite schedule ((mainHdr host bootProgram.length).bytes host) p fuel with
  | none => none
  | some (none, p) => some (-1, p)
  | some (some _, p) =>
      match writeZero schedule fuel (alignedHdrLen.toNat - sizeofHdr) p with
      | none => none
      | some (none, p) => some (-1, p)
      | some (some _, p) =>
          match doWrite schedule bootProgram p fuel with
          | none => none
          | some (none, p) => some (1, p)
          | some (some _, p) => run (copyPass schedule fuel) fuel p

/-- `main` on standard input `input`: its result and the process it leaves. -/
def main (host : Endian) (schedule : Schedule) (input : List UInt8) (fuel : Nat)
    : Option (Int × Process) :=
  match doRead schedule maxBootProgLen ⟨input, [], 0⟩ fuel with
  | none => none
  | some (none, p) => some (-1, p)
  | some (some [], p) => some (-1, p)
  | some (some bootProgram, p) => writeImage host schedule bootProgram p fuel

def image (host : Endian) (input : List UInt8) : List UInt8 :=
  (mainHdr host (min maxBootProgLen input.length)).bytes host
  ++ (List.replicate (alignedHdrLen.toNat - sizeofHdr) 0 ++ input)

/-- What a run of `main` leaves on standard output: the expected output when it returns 0,
and a part of it from the start in any case.
-/
structure Writes (schedule : Schedule) (expected : List UInt8) (status : Int) (q : Process)
    : Prop where
  initial : q.stdout <+: expected
  complete : status = 0 → q.stdout = expected
  failed : status ≠ 0 → Fails schedule

variable {schedule : Schedule} {status : Int}

theorem Sends.writes {bytes expected : List UInt8} {p q : Process}
    (sends : Sends schedule bytes p false q) (nonzero : status ≠ 0)
    (initial : p.stdout ++ bytes <+: expected)
    : Writes schedule expected status q := by
  obtain ⟨sent, part, output⟩ := sends.stdout
  refine ⟨?_, fun zero => absurd zero nonzero, fun _ => sends.failed rfl⟩
  rw [output]
  exact ((List.prefix_append_right_inj _).mpr part).trans initial

/-- What one pass of the copying loop can do: stop with part of the input written, or move
the next piece of it to the output.
-/
theorem copyPass_cases {fuel : Nat} {p : Process} {outcome : Pass Process (Int × Process)}
    (pass : copyPass schedule fuel p = some outcome)
    : (∃ status q,
        outcome = .leave (status, q) ∧ Writes schedule (p.stdout ++ p.stdin) status q)
      ∨ ∃ q,
          outcome = .again q ∧ q.stdout ++ q.stdin = p.stdout ++ p.stdin
          ∧ q.stdin.length < p.stdin.length := by
  rw [copyPass] at pass
  rcases doRead_then pass with
    ⟨s, receives, stopped⟩ | ⟨s, receives, ended⟩ | ⟨bytes, s, nonempty, receives, rest⟩
  · cases stopped
    refine .inl ⟨1, s, rfl, ?_, by simp, fun _ => receives.failed rfl⟩
    rw [receives.stdout]
    exact List.prefix_append _ _
  · cases ended
    have empty : p.stdin = [] := by
      simpa [maxBootProgLen] using (receives.data [] rfl).1.symm
    refine .inl ⟨0, s, rfl, ?_, ?_, by simp⟩ <;> simp [receives.stdout, empty]
  obtain ⟨taken, left⟩ := receives.data bytes rfl
  have positive := List.length_pos_iff.mpr nonempty
  rcases doWrite_then rest with ⟨q, sends, stopped⟩ | ⟨q, sends, around⟩
  · cases stopped
    refine .inl ⟨1, q, rfl, sends.writes (by decide) ?_⟩
    rw [receives.stdout, taken]
    exact (List.prefix_append_right_inj _).mpr (List.take_prefix _ _)
  · cases around
    refine .inr ⟨q, rfl, ?_, ?_⟩
    · rw [sends.done rfl, sends.stdin, receives.stdout, taken, left, List.append_assoc,
        List.take_append_drop]
    · have size := congrArg List.length taken
      simp only [List.length_take, maxBootProgLen] at size
      simp only [sends.stdin, left, List.length_drop, maxBootProgLen]
      omega

/-- Output and remaining input always make up the same bytes. -/
theorem copy_writes {fuel inner : Nat} {p q : Process}
    (returned : run (copyPass schedule inner) fuel p = some (status, q))
    : Writes schedule (p.stdout ++ p.stdin) status q := by
  refine run_result (fun s => s.stdout ++ s.stdin = p.stdout ++ p.stdin)
    (fun result => Writes schedule (p.stdout ++ p.stdin) result.1 result.2) ?_ rfl returned
  intro s inv
  cases pass : copyPass schedule inner s with
  | none => exact .short
  | some outcome =>
      rcases copyPass_cases pass with ⟨_, t, rfl, writes⟩ | ⟨t, rfl, same, _⟩
      · exact .leave (inv ▸ writes)
      · exact .again (same.trans inv)

/-- From a first piece of the input in the buffer on, `main` writes the header, the padding,
that piece and the rest of the input.
-/
theorem writeImage_writes {host : Endian} {bootProgram : List UInt8} {p q : Process} {fuel : Nat}
    (fresh : p.stdout = [])
    (returned : writeImage host schedule bootProgram p fuel = some (status, q))
    : Writes schedule
        ((mainHdr host bootProgram.length).bytes host
          ++ (List.replicate (alignedHdrLen.toNat - sizeofHdr) 0 ++ (bootProgram ++ p.stdin)))
        status q := by
  rw [writeImage] at returned
  -- The number of zeros does not matter, and should not be computed.
  generalize alignedHdrLen.toNat - sizeofHdr = zeros at returned ⊢
  rcases doWrite_then returned with ⟨s, header, stopped⟩ | ⟨s, header, rest⟩
  · cases stopped
    exact header.writes (by decide) (by simp [fresh])
  rcases writeZero_then rest with ⟨t, padding, stopped⟩ | ⟨t, padding, rest⟩
  · cases stopped
    exact (header.append padding).writes (by decide) (by simp [fresh])
  have padded := header.append padding
  rcases doWrite_then rest with ⟨u, program, stopped⟩ | ⟨u, program, rest⟩
  · cases stopped
    exact (padded.append program).writes (by decide) (by simp [fresh])
  have sends := padded.append program
  simpa [sends.done rfl, sends.stdin, fresh] using copy_writes rest

variable {input : List UInt8}

/-- Every run of `main` on a non-empty input writes the image, as far as it gets. -/
theorem main_writes {host : Endian} {fuel : Nat} {q : Process} (nonempty : input ≠ [])
    (returned : main host schedule input fuel = some (status, q))
    : Writes schedule (image host input) status q := by
  rw [main] at returned
  rcases doRead_then returned with
    ⟨p, receives, stopped⟩ | ⟨p, receives, _⟩ | ⟨bytes, p, _, receives, rest⟩
  · cases stopped
    exact ⟨by simp [receives.stdout], by simp, fun _ => receives.failed rfl⟩
  · have taken := (receives.data [] rfl).1
    simp [maxBootProgLen, nonempty] at taken
  · obtain ⟨taken, left⟩ := receives.data bytes rfl
    have writes := writeImage_writes receives.stdout rest
    rw [taken, left, List.take_append_drop, List.length_take] at writes
    exact writes

/-- The copying loop ends under a fair schedule: each pass leaves less input. -/
theorem Fair.copy_settles (fair : Fair schedule) (p : Process)
    : ∃ result, Settles (copyPass schedule) p result := by
  refine settles_of_wellFounded (InvImage.wf (fun s : Process => s.stdin.length) wellFounded_lt)
    (fun _ => True) ?_ trivial
  intro s _
  obtain ⟨bytes, t, first, reads⟩ := fair.doRead_returns maxBootProgLen s
  cases bytes with
  | nil =>
      exact .inl ⟨(0, t), first, fun fuel enough => by simp [copyPass, reads fuel enough]⟩
  | cons byte rest =>
      obtain ⟨count, q, second, writes⟩ := fair.doWrite_returns (byte :: rest) t
      have around : ∀ fuel, max first second ≤ fuel → copyPass schedule fuel s = some (.again q)
          := by
        intro fuel enough
        simp [copyPass, reads fuel (by omega), writes fuel (by omega)]
      rcases copyPass_cases (around _ le_rfl) with ⟨_, _, left, _⟩ | ⟨next, same, _, less⟩
      · cases left
      · cases same
        exact .inr ⟨q, ⟨_, around⟩, trivial, less⟩

/-- Under a fair schedule `main` returns 0 on every non-empty input. -/
theorem Fair.main_returns (fair : Fair schedule) (host : Endian) (nonempty : input ≠ [])
    : ∃ q, Returns (main host schedule input) (0, q) := by
  obtain ⟨bytes, p, first, reads⟩ := fair.doRead_returns maxBootProgLen ⟨input, [], 0⟩
  obtain ⟨_, p₁, second, header⟩ :=
    fair.doWrite_returns ((mainHdr host bytes.length).bytes host) p
  obtain ⟨p₂, third, padding⟩ :=
    fair.writeZero_returns (alignedHdrLen.toNat - sizeofHdr) p₁
  obtain ⟨_, p₃, fourth, program⟩ := fair.doWrite_returns bytes p₂
  obtain ⟨⟨status, q⟩, settled⟩ := fair.copy_settles p₃
  obtain ⟨fifth, copies⟩ := settled.returns
  have returns : ∀ fuel, max first (max second (max third (max fourth fifth))) ≤ fuel
      → main host schedule input fuel = some (status, q) := by
    intro fuel enough
    have receives := (doRead_receives (reads fuel (by omega))).data bytes rfl
    cases bytes with
    | nil => simp [maxBootProgLen, nonempty] at receives
    | cons byte rest =>
        simp only [main, reads fuel (by omega), writeImage, header fuel (by omega),
          padding fuel (by omega), program fuel (by omega)]
        exact copies fuel (by omega)
  have zero : status = 0 := by
    by_contra nonzero
    exact fair.noFail ((main_writes nonempty (returns _ le_rfl)).failed nonzero)
  exact ⟨q, _, zero ▸ returns⟩

-- The header's bytes

/-- A member converted with the macro of its own width is stored in little-endian order. -/
theorem encode_htole32 (host : Endian) (value : Nat)
    : host.encode 4 (htole32 host value).toNat = Endian.little.encode 4 value := by
  have fits := host.reorder_lt 4 value
  rw [htole32, UInt32.toNat_ofNat_of_lt' (by simpa using fits), Endian.encode_reorder]

theorem encode_htole16 (host : Endian) (value : Nat)
    : host.encode 2 (htole16 host value).toNat = Endian.little.encode 2 value := by
  have fits := host.reorder_lt 2 value
  rw [htole16, UInt16.toNat_ofNat_of_lt' (by simpa using fits), Endian.encode_reorder]

theorem encode_zero (host : Endian) (count : Nat)
    : host.encode count 0 = Endian.little.encode count 0 := by
  cases host <;> simp [Endian.encode, List.map_const']

/-- Rounding up a length below 2⁶³ adds 511 and clears the low nine bits. -/
theorem roundUp_toNat (x : UInt64) (small : x.toNat < 2 ^ 63)
    : (roundUp x).toNat = (x.toNat + 511) / 512 * 512 := by
  have mask : (~~~(align - 1)).toNat = 2 ^ 64 - 2 ^ 9 := by decide
  have sum : (x + align - 1).toNat = x.toNat + 511 := by
    have sector : align.toNat = 512 := by decide
    have one : (1 : UInt64).toNat = 1 := rfl
    rw [UInt64.toNat_sub, UInt64.toNat_add]
    omega
  rw [roundUp, UInt64.toNat_and, mask, sum]
  exact and_highMask (by omega) (by decide)

/-- The size to copy, which fits its 16 bits. -/
theorem copySize_toNat {progLen : Nat} (bounded : progLen ≤ maxBootProgLen)
    : (alignedHdrLen + roundUp (.ofNat progLen)).toNat = 512 + (progLen + 511) / 512 * 512 := by
  rw [maxBootProgLen] at bounded
  have small : (UInt64.ofNat progLen).toNat = progLen :=
    UInt64.toNat_ofNat_of_lt' (lt_of_le_of_lt bounded (by decide))
  have rounded := roundUp_toNat (.ofNat progLen) (by omega)
  have aligned : alignedHdrLen.toNat = 512 := by decide
  rw [UInt64.toNat_add, rounded, small, aligned]
  omega

def hdrStart (copySize : Nat) : List UInt8 :=
  Endian.little.encode 4 0xea000000
  ++ (Endian.little.encode 4 0x56
  ++ (Endian.little.encode 4 0xe59ff008
  ++ (Endian.little.encode 4 0
  ++ (Endian.little.encode 2 copySize
  ++ Endian.little.encode 2 0))))

def hdrEnd (startAddress : Nat) : List UInt8 :=
  Endian.little.encode 4 startAddress
  ++ (Endian.little.encode 4 0
  ++ (Endian.little.encode 4 0
  ++ List.replicate 308 0))

/-- The stored header. Only `reserved3` depends on the host. -/
theorem mainHdr_bytes (host : Endian) {progLen : Nat} (bounded : progLen ≤ maxBootProgLen)
    : (mainHdr host progLen).bytes host
      = hdrStart (512 + (progLen + 511) / 512 * 512)
        ++ (host.encode 4 (htole16 host 1).toNat ++ hdrEnd 0xe55b0200) := by
  have start : (startBase + alignedHdrLen).toNat = 0xe55b0200 := by decide
  simp only [Hdr.bytes, mainHdr, declareHdr, hdrStart, hdrEnd, encode_htole32, encode_htole16,
    start, copySize_toNat bounded, UInt32.toNat_zero, UInt16.toNat_zero, encode_zero host,
    UInt16.toNat_toUInt32, Vector.toList_replicate, List.append_assoc]

theorem image_eq (host : Endian) (input : List UInt8)
    : image host input
      = hdrStart (512 + (min maxBootProgLen input.length + 511) / 512 * 512)
        ++ (host.encode 4 (htole16 host 1).toNat
          ++ (hdrEnd 0xe55b0200 ++ (List.replicate 168 0 ++ input))) := by
  have padding : alignedHdrLen.toNat - sizeofHdr = 168 := by decide
  rw [image, mainHdr_bytes host (Nat.min_le_left _ _), padding]
  simp only [List.append_assoc]

def bootHeader (copySize startAddress : Nat) : List UInt8 :=
  hdrStart copySize ++ (Endian.little.encode 4 1 ++ hdrEnd startAddress)

theorem bootHeader_length (copySize startAddress : Nat)
    : (bootHeader copySize startAddress).length = 344 := by
  simp only [bootHeader, hdrStart, hdrEnd, List.length_append, Endian.encode_length,
    List.length_replicate]

/-- `copy_size` is at offset 16. -/
theorem bootHeader_copySize (copySize startAddress : Nat)
    : Endian.little.decode (((bootHeader copySize startAddress).drop 16).take 2)
      = copySize % 256 ^ 2 := by
  have skip : (bootHeader copySize startAddress).drop 16
      = Endian.little.encode 2 copySize ++ (Endian.little.encode 2 0
        ++ (Endian.little.encode 4 1 ++ hdrEnd startAddress)) := rfl
  rw [skip, List.take_left' (Endian.encode_length _ _ _), Endian.decode_encode]

/-- `start_address` is at offset 24. -/
theorem bootHeader_startAddress (copySize startAddress : Nat)
    : Endian.little.decode (((bootHeader copySize startAddress).drop 24).take 4)
      = startAddress % 256 ^ 4 := by
  have skip : (bootHeader copySize startAddress).drop 24 = hdrEnd startAddress := rfl
  rw [skip, hdrEnd, List.take_left' (Endian.encode_length _ _ _), Endian.decode_encode]

theorem image_little (input : List UInt8)
    : image .little input
      = bootHeader (512 + (min maxBootProgLen input.length + 511) / 512 * 512) 0xe55b0200
        ++ (List.replicate 168 0 ++ input) := by
  have converted : (htole16 .little 1).toNat = 1 := by decide
  rw [image_eq, converted, bootHeader]
  simp only [List.append_assoc]

/-- `copy_size` for a kernel: the padded header, and the first part of the kernel rounded up
to whole blocks of 512 bytes.
-/
def bootCopySize (input : List UInt8) : Nat :=
  512 + (min 8192 input.length + 511) / 512 * 512

def bootImage (input : List UInt8) : List UInt8 :=
  bootHeader (bootCopySize input) 0xe55b0200 ++ (List.replicate 168 0 ++ input)

/-- On a little-endian host the kernel follows its padded header unchanged, in whatever
pieces the bytes are read and written; a run that fails has written the first part of that.
Witness: every loop keeps what is written and what is still to come together.
-/
theorem main_embeds_kernel (input : List UInt8) (nonempty : input ≠ [])
    : (bootHeader (bootCopySize input) 0xe55b0200).length = 344
      ∧ Endian.little.decode
          (((bootHeader (bootCopySize input) 0xe55b0200).drop 16).take 2) = bootCopySize input
      ∧ Endian.little.decode
          (((bootHeader (bootCopySize input) 0xe55b0200).drop 24).take 4) = 0xe55b0200
      ∧ (∀ schedule fuel status q,
          main .little schedule input fuel = some (status, q)
          → (status = 0 → q.stdout = bootImage input) ∧ q.stdout <+: bootImage input)
      ∧ ∀ schedule, Fair schedule → ∃ q, Returns (main .little schedule input) (0, q) := by
  have expected : image .little input = bootImage input := image_little input
  refine ⟨bootHeader_length _ _, ?_, bootHeader_startAddress _ _, ?_, ?_⟩
  · rw [bootHeader_copySize]
    exact Nat.mod_eq_of_lt (by rw [bootCopySize]; omega)
  · intro schedule fuel status q returned
    have writes := main_writes nonempty returned
    rw [expected] at writes
    exact ⟨writes.complete, writes.initial⟩
  · intro schedule fair
    exact fair.main_returns .little nonempty

/-- A build for this host writes what a build for a little-endian host writes. -/
def HostIndependent (host : Endian) (input : List UInt8) : Prop :=
  ∀ schedule schedule' fuel fuel' q q',
    main host schedule input fuel = some (0, q)
    → main .little schedule' input fuel' = some (0, q')
    → q.stdout = q'.stdout

def generous : Schedule := fun _ => .transfer maxBootProgLen

theorem generous_fair : Fair generous :=
  {
    noFail := by simp [Fails, generous]
    moves := fun _ => ⟨0, maxBootProgLen, by decide, rfl⟩
  }

/-- A kernel of 9000 bytes, of which the last 808 are left to the copying loop. -/
theorem longKernel_embedded
    : ∃ q, Returns (main .little generous (List.replicate 9000 0x41)) (0, q)
      ∧ q.stdout = bootHeader 8704 0xe55b0200
        ++ (List.replicate 168 0 ++ List.replicate 9000 0x41) := by
  have nonempty : List.replicate 9000 (0x41 : UInt8) ≠ [] :=
    List.ne_nil_of_length_pos (by rw [List.length_replicate]; decide)
  obtain ⟨_, _, _, runs, returns⟩ := main_embeds_kernel (List.replicate 9000 0x41) nonempty
  obtain ⟨q, fuel, returned⟩ := returns generous generous_fair
  have size : bootCopySize (List.replicate 9000 0x41) = 8704 := by
    rw [bootCopySize, List.length_replicate]
    decide
  have written := (runs generous fuel 0 q (returned fuel le_rfl)).1 rfl
  rw [bootImage, size] at written
  exact ⟨q, ⟨fuel, returned⟩, written⟩

/-- Some run of `main` writes the whole image. -/
theorem main_image (host : Endian) (nonempty : input ≠ [])
    : ∃ fuel q, main host generous input fuel = some (0, q) ∧ q.stdout = image host input := by
  obtain ⟨q, fuel, returns⟩ := generous_fair.main_returns host nonempty
  have returned := returns fuel le_rfl
  exact ⟨fuel, q, returned, (main_writes nonempty returned).complete rfl⟩

/-- The images agree up to the four bytes of `reserved3`, which differ. -/
theorem image_eq_little_iff (host : Endian) (input : List UInt8)
    : image host input = image .little input ↔ host = .little := by
  constructor
  · intro same
    rw [image_eq, image_eq] at same
    have reserved3 := List.append_cancel_right (List.append_cancel_left same)
    cases host with
    | little => rfl
    | big => exact absurd reserved3 (by decide)
  · intro same
    rw [same]

/-- `reserved3` is initialised with a conversion of the wrong width, so on every input a build for a
big-endian host writes another header. `main_writes` determines the whole image from the host, and
the two images are compared.
-/
theorem hostIndependent_iff (host : Endian) (input : List UInt8) (nonempty : input ≠ [])
    : HostIndependent host input ↔ host = .little := by
  rw [← image_eq_little_iff host input]
  constructor
  · intro independent
    obtain ⟨fuel, q, returned, output⟩ := main_image host nonempty
    obtain ⟨fuel', q', returned', output'⟩ := main_image .little nonempty
    rw [← output, ← output']
    exact independent _ _ _ _ _ _ returned returned'
  · intro same schedule schedule' fuel fuel' q q' returned returned'
    rw [(main_writes nonempty returned).complete rfl,
      (main_writes nonempty returned').complete rfl, same]

theorem oneByteKernel_hostIndependent_iff
    : ([0x41] : List UInt8) ≠ [] ∧ (HostIndependent .little [0x41] ↔ Endian.little = .little) :=
  ⟨by decide, hostIndependent_iff .little [0x41] (by decide)⟩

theorem bigEndianHeader_differs
    : ∃ fuel fuel' q q',
        main .big generous [0x41] fuel = some (0, q)
        ∧ main .little generous [0x41] fuel' = some (0, q')
        ∧ (q.stdout.drop 20).take 4 = [0, 0, 1, 0]
        ∧ (q'.stdout.drop 20).take 4 = [1, 0, 0, 0] := by
  have nonempty : ([0x41] : List UInt8) ≠ [] := by decide
  obtain ⟨fuel, q, returned, output⟩ := main_image .big nonempty
  obtain ⟨fuel', q', returned', output'⟩ := main_image .little nonempty
  refine ⟨fuel, fuel', q, q', returned, returned', ?_, ?_⟩
  · rw [output]
    decide
  · rw [output']
    decide

end LinuxDoc.Vrl4
