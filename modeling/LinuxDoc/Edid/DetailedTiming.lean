import Mathlib.Data.Nat.Bitwise
import Mathlib.Tactic.Common

/-! The detailed timing descriptor of the EDID template, as the assembler computes it and as
its own comments say how to read it.
-/

namespace LinuxDoc.Edid

abbrev Value := BitVec 64

structure Mode where
  clock : Value
  xpix : Value
  ypix : Value
  xblank : Value
  yblank : Value
  xoffset : Value
  xpulse : Value
  yoffset : Value
  ypulse : Value
  dpi : Value
  hsyncPol : Value
  vsyncPol : Value

def msbs2 (v1 v2 : Value) : Value :=
  (((v1 >>> 8) &&& 0x0f) <<< 4) + ((v2 >>> 8) &&& 0x0f)

def msbs4 (v1 v2 v3 v4 : Value) : Value :=
  ((v1 &&& 0x03) >>> 2) + ((v2 &&& 0x03) >>> 4) + ((v3 &&& 0x03) >>> 6) + ((v4 &&& 0x03) >>> 8)

def pixdpi2mm (pix dpi : Value) : Value := (pix * 25).sdiv dpi

def Mode.xsize (mode : Mode) : Value := pixdpi2mm mode.xpix mode.dpi
def Mode.ysize (mode : Mode) : Value := pixdpi2mm mode.ypix mode.dpi

def byte (value : Value) : UInt8 := ⟨value.setWidth 8⟩

/-- The 18 bytes of `descriptor1`; the first two are the `.word` of the pixel clock. -/
def descriptor1 (mode : Mode) : Vector UInt8 18 :=
  #v[
    byte (mode.clock.sdiv 10),
    byte (mode.clock.sdiv 10 >>> 8),
    byte (mode.xpix &&& 0xff),
    byte (mode.xblank &&& 0xff),
    byte (msbs2 mode.xpix mode.xblank),
    byte (mode.ypix &&& 0xff),
    byte (mode.yblank &&& 0xff),
    byte (msbs2 mode.ypix mode.yblank),
    byte (mode.xoffset &&& 0xff),
    byte (mode.xpulse &&& 0xff),
    byte (((mode.yoffset - 63) <<< 4) + (mode.ypulse - 63)),
    byte (msbs4 mode.xoffset mode.xpulse mode.yoffset mode.ypulse),
    byte (mode.xsize &&& 0xff),
    byte (mode.ysize &&& 0xff),
    byte (msbs2 mode.xsize mode.ysize),
    byte 0,
    byte 0,
    byte (0x18 + (mode.vsyncPol <<< 2) + (mode.hsyncPol <<< 1))
  ]

/-- What a detailed timing descriptor says about a mode: the pixel clock in 10 kHz units,
pixels and lines of the picture and of its synchronisation, and the size in millimetres.
-/
structure Timing where
  clock : Nat
  xActive : Nat
  xBlank : Nat
  yActive : Nat
  yBlank : Nat
  xSyncOffset : Nat
  xSyncPulse : Nat
  ySyncOffset : Nat
  ySyncPulse : Nat
  xSize : Nat
  ySize : Nat
  deriving DecidableEq, Repr

def bits (data : UInt8) (high low : Nat) : Nat :=
  data.toNat / 2 ^ low % 2 ^ (high - low + 1)

/-- Read a descriptor by the layout that the comments in the template give. -/
def decode (data : Vector UInt8 18) : Timing :=
  {
    clock := data[0].toNat + 256 * data[1].toNat
    xActive := data[2].toNat + 256 * bits data[4] 7 4
    xBlank := data[3].toNat + 256 * bits data[4] 3 0
    yActive := data[5].toNat + 256 * bits data[7] 7 4
    yBlank := data[6].toNat + 256 * bits data[7] 3 0
    xSyncOffset := data[8].toNat + 256 * bits data[11] 7 6
    xSyncPulse := data[9].toNat + 256 * bits data[11] 5 4
    ySyncOffset := bits data[10] 7 4 + 16 * bits data[11] 3 2
    ySyncPulse := bits data[10] 3 0 + 16 * bits data[11] 1 0
    xSize := data[12].toNat + 256 * bits data[14] 7 4
    ySize := data[13].toNat + 256 * bits data[14] 3 0
  }

/-- The parameters of a mode. Vertical synchronisation is entered with 63 added. -/
def Mode.timing (mode : Mode) : Timing :=
  {
    clock := (mode.clock.sdiv 10).toNat
    xActive := mode.xpix.toNat
    xBlank := mode.xblank.toNat
    yActive := mode.ypix.toNat
    yBlank := mode.yblank.toNat
    xSyncOffset := mode.xoffset.toNat
    xSyncPulse := mode.xpulse.toNat
    ySyncOffset := (mode.yoffset - 63).toNat
    ySyncPulse := (mode.ypulse - 63).toNat
    xSize := mode.xsize.toNat
    ySize := mode.ysize.toNat
  }

structure Mode.InRange (mode : Mode) : Prop where
  clock : mode.timing.clock ≤ 65535
  xActive : mode.timing.xActive ≤ 4095
  xBlank : mode.timing.xBlank ≤ 4095
  yActive : mode.timing.yActive ≤ 4095
  yBlank : mode.timing.yBlank ≤ 4095
  xSyncOffset : mode.timing.xSyncOffset ≤ 1023
  xSyncPulse : mode.timing.xSyncPulse ≤ 1023
  ySyncOffset : mode.timing.ySyncOffset ≤ 63
  ySyncPulse : mode.timing.ySyncPulse ≤ 63
  xSize : mode.timing.xSize ≤ 4095
  ySize : mode.timing.ySize ≤ 4095

theorem byte_toNat (value : Value) : (byte value).toNat = value.toNat % 256 := by
  simp [byte, UInt8.toNat]

theorem byte_lsb_toNat (value : Value) : (byte (value &&& 0xff)).toNat = value.toNat % 256 := by
  have mask : value.toNat &&& 255 = value.toNat % 256 := Nat.and_two_pow_sub_one_eq_mod _ 8
  simp [byte_toNat, mask]

/-- The low nibble of a value's second byte. -/
theorem nibble_toNat (value : Value)
    : ((value >>> 8) &&& 0x0f : Value).toNat = value.toNat / 256 % 16 := by
  have mask : value.toNat / 256 &&& 15 = value.toNat / 256 % 16 :=
    Nat.and_two_pow_sub_one_eq_mod _ 4
  simp [Nat.shiftRight_eq_div_pow, mask]

theorem msbs2_toNat (v1 v2 : Value)
    : (byte (msbs2 v1 v2)).toNat = v1.toNat / 256 % 16 * 16 + v2.toNat / 256 % 16 := by
  rw [byte_toNat, msbs2, BitVec.toNat_add, BitVec.toNat_shiftLeft, nibble_toNat, nibble_toNat,
    Nat.shiftLeft_eq]
  omega

/-- A quantity of at most 12 bits is its low byte with the high nibble of `msbs2`. -/
theorem join_msbs2_high {v1 : Value} (fits : v1.toNat ≤ 4095) (v2 : Value)
    : (byte (v1 &&& 0xff)).toNat + 256 * bits (byte (msbs2 v1 v2)) 7 4 = v1.toNat := by
  rw [bits, byte_lsb_toNat, msbs2_toNat]
  omega

theorem join_msbs2_low (v1 : Value) {v2 : Value} (fits : v2.toNat ≤ 4095)
    : (byte (v2 &&& 0xff)).toNat + 256 * bits (byte (msbs2 v1 v2)) 3 0 = v2.toNat := by
  rw [bits, byte_lsb_toNat, msbs2_toNat]
  omega

/-- The template's macro shifts the wrong way: no bit of its operands is left. -/
theorem msbs4_eq_zero (v1 v2 v3 v4 : Value) : msbs4 v1 v2 v3 v4 = 0 := by
  have shifted (value : Value) (count : Nat) (atLeast : 2 ≤ count)
      : (value &&& 0x03) >>> count = 0 := by
    apply BitVec.eq_of_toNat_eq
    have mask : value.toNat &&& 3 = value.toNat % 4 := Nat.and_two_pow_sub_one_eq_mod _ 2
    have wide : 2 ^ 2 ≤ 2 ^ count := Nat.pow_le_pow_right (by decide) atLeast
    simp [mask, Nat.shiftRight_eq_div_pow]
    omega
  simp only [msbs4, shifted _ 2 (by decide), shifted _ 4 (by decide), shifted _ 6 (by decide),
    shifted _ 8 (by decide)]
  decide

/-- The byte of vertical synchronisation; a wide pulse runs into the offset's nibble. -/
theorem ySync_toNat (offset pulse : Value)
    : (byte ((offset <<< 4) + pulse)).toNat = (offset.toNat * 16 + pulse.toNat) % 256 := by
  rw [byte_toNat, BitVec.toNat_add, BitVec.toNat_shiftLeft, Nat.shiftLeft_eq]
  omega

theorem ySync_high (offset pulse : Value)
    : bits (byte ((offset <<< 4) + pulse)) 7 4 = (offset.toNat + pulse.toNat / 16) % 16 := by
  rw [bits, ySync_toNat]
  omega

theorem ySync_low (offset pulse : Value)
    : bits (byte ((offset <<< 4) + pulse)) 3 0 = pulse.toNat % 16 := by
  rw [bits, ySync_toNat]
  omega

theorem join_word {value : Value} (fits : value.toNat ≤ 65535)
    : (byte value).toNat + 256 * (byte (value >>> 8)).toNat = value.toNat := by
  rw [byte_toNat, byte_toNat, BitVec.toNat_ushiftRight, Nat.shiftRight_eq_div_pow]
  omega

/-- What reading the assembled descriptor yields: of synchronisation only the low bits, and
the vertical offset with the rest of the pulse added.
-/
theorem decode_descriptor1 {mode : Mode} (ranged : mode.InRange)
    : decode (descriptor1 mode)
      = {
          mode.timing with
          xSyncOffset := mode.xoffset.toNat % 256
          xSyncPulse := mode.xpulse.toNat % 256
          ySyncOffset := ((mode.yoffset - 63).toNat + (mode.ypulse - 63).toNat / 16) % 16
          ySyncPulse := (mode.ypulse - 63).toNat % 16
        } := by
  have clock := join_word ranged.clock
  have xActive := join_msbs2_high ranged.xActive mode.xblank
  have xBlank := join_msbs2_low mode.xpix ranged.xBlank
  have yActive := join_msbs2_high ranged.yActive mode.yblank
  have yBlank := join_msbs2_low mode.ypix ranged.yBlank
  have xSize := join_msbs2_high ranged.xSize mode.ysize
  have ySize := join_msbs2_low mode.xsize ranged.ySize
  have msbs (high low : Nat)
      : bits (byte (msbs4 mode.xoffset mode.xpulse mode.yoffset mode.ypulse)) high low = 0 := by
    rw [msbs4_eq_zero, bits, show (byte 0).toNat = 0 from rfl, Nat.zero_div, Nat.zero_mod]
  have xSync (value : Value) (high low : Nat)
      : (byte (value &&& 0xff)).toNat
          + 256 * bits (byte (msbs4 mode.xoffset mode.xpulse mode.yoffset mode.ypulse)) high low
        = value.toNat % 256 := by
    rw [msbs, byte_lsb_toNat, Nat.mul_zero, Nat.add_zero]
  have ySyncOffset := ySync_high (mode.yoffset - 63) (mode.ypulse - 63)
  have ySyncPulse := ySync_low (mode.yoffset - 63) (mode.ypulse - 63)
  simp only [Mode.timing, decode, Timing.mk.injEq]
  refine ⟨clock, xActive, xBlank, yActive, yBlank, xSync _ 7 6, xSync _ 5 4, ?_, ?_, xSize, ySize⟩
  · rw [← ySyncOffset]
    exact congrArg (_ + 16 * ·) (msbs 3 2)
  · rw [← ySyncPulse]
    exact congrArg (_ + 16 * ·) (msbs 1 0)

/-- The descriptor decodes back to the mode exactly while no synchronisation parameter needs the
bits that `msbs4` was to carry. Decoding gives the mode with these bits cut off
(`decode_descriptor1`).
-/
theorem decode_descriptor1_eq_timing_iff (mode : Mode) (ranged : mode.InRange)
    : decode (descriptor1 mode) = mode.timing
      ↔ mode.timing.xSyncOffset ≤ 255 ∧ mode.timing.xSyncPulse ≤ 255
        ∧ mode.timing.ySyncOffset ≤ 15 ∧ mode.timing.ySyncPulse ≤ 15 := by
  have yOffset := ranged.ySyncOffset
  have yPulse := ranged.ySyncPulse
  rw [decode_descriptor1 ranged]
  simp only [Mode.timing, Timing.mk.injEq, true_and, and_true] at *
  omega

def xga : Mode :=
  {
    clock := 65000, xpix := 1024, ypix := 768, xblank := 320, yblank := 38, xoffset := 8
    xpulse := 144, yoffset := 63 + 3, ypulse := 63 + 6, dpi := 72, hsyncPol := 0, vsyncPol := 0
  }

theorem xga_decoded
    : xga.InRange
      ∧ (decode (descriptor1 xga) = xga.timing
        ↔ xga.timing.xSyncOffset ≤ 255 ∧ xga.timing.xSyncPulse ≤ 255
          ∧ xga.timing.ySyncOffset ≤ 15 ∧ xga.timing.ySyncPulse ≤ 15) := by
  have ranged : xga.InRange := by constructor <;> decide
  exact ⟨ranged, decode_descriptor1_eq_timing_iff xga ranged⟩

/-- A mode with a long horizontal front porch loses the high bits of its offset. -/
theorem longFrontPorch_misread
    : { xga with xoffset := 300 }.InRange
      ∧ decode (descriptor1 { xga with xoffset := 300 })
        = { ({ xga with xoffset := 300 } : Mode).timing with xSyncOffset := 44 } := by
  refine ⟨?_, ?_⟩
  · constructor <;> decide
  · decide

end LinuxDoc.Edid
