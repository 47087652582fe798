/-! The V4L2 PCI skeleton driver: its format, standard, timings and input ioctls, and the
callbacks by which the videobuf2 framework (vb2) sizes and checks its buffers.
What the driver calls in the kernel and is not part of it is a parameter.
-/

namespace LinuxDoc.V4l2Skeleton

inductive Field where
  | none
  | top
  | bottom
  | interlaced
  | alternate
  | other (value : UInt32)
  deriving DecidableEq, Repr

inductive Colorspace where
  | smpte170m
  | rec709
  | other (value : UInt32)
  deriving DecidableEq, Repr

/-- `struct v4l2_pix_format`: the members that the driver names, and the rest. -/
structure PixFormat where
  width : UInt32
  height : UInt32
  pixelformat : UInt32
  field : Field
  bytesperline : UInt32
  sizeimage : UInt32
  colorspace : Colorspace
  priv : UInt32
  rest : List UInt8
  deriving DecidableEq, Repr

/-- `struct v4l2_dv_timings`: the members that the driver reads, and the rest unread. -/
structure DvTimings where
  width : UInt32
  height : UInt32
  interlaced : UInt32
  rest : List UInt8
  deriving DecidableEq, Repr

abbrev StdId := UInt64

def v4l2PixFmtYuyv : UInt32 := 0x56595559
def v4l2Std52560 : StdId := 0xf900
def v4l2Std62550 : StdId := 0xff06ff
def skelTvnorms : StdId := 0xffffff

/-- `struct skeleton`, as far as it describes the picture; `tvnorms` is that of its
`video_device`.
-/
structure Skeleton where
  std : StdId
  timings : DvTimings
  format : PixFormat
  input : UInt32
  field : Field
  tvnorms : StdId

/-- What the driver gets from the kernel: the 720p60 preset, the check of timings against
`skel_timings_cap`, the preset that timings are part of, and the comparison of timings.
-/
structure Kernel where
  cea1280x720p60 : DvTimings
  validDvTimings : DvTimings → Bool
  findDvTimingsCap : DvTimings → Option DvTimings
  matchDvTimings : DvTimings → DvTimings → Bool

inductive Errno where
  | einval
  | ebusy
  | enodata
  | enomem
  | enobufs
  deriving DecidableEq, Repr

def fillPixFormat (skel : Skeleton) (pix : PixFormat) : PixFormat :=
  let pix := { pix with pixelformat := v4l2PixFmtYuyv }
  let pix :=
    if skel.input = 0 then
      {
        pix with
        width := 720
        height := if skel.std &&& v4l2Std52560 ≠ 0 then 480 else 576
        field := .interlaced
        colorspace := .smpte170m
      }
    else
      let pix := { pix with width := skel.timings.width, height := skel.timings.height }
      let pix :=
        if skel.timings.interlaced ≠ 0 then
          { pix with field := .alternate, height := pix.height / 2 }
        else
          { pix with field := .none }
      { pix with colorspace := .rec709 }
  let pix := { pix with bytesperline := pix.width * 2 }
  { pix with sizeimage := pix.bytesperline * pix.height, priv := 0 }

inductive Memory where
  | mmap
  | dmabuf
  deriving DecidableEq, Repr

structure Buffer where
  memory : Memory
  planeSize : UInt32
  deriving DecidableEq, Repr

structure Device where
  skel : Skeleton
  buffers : List Buffer

def Device.busy (dev : Device) : Bool := dev.buffers ≠ []

def tryFmtVidCap (skel : Skeleton) (f : PixFormat) : Except Errno PixFormat :=
  if f.pixelformat ≠ v4l2PixFmtYuyv then .error .einval
  else .ok (fillPixFormat skel f)

def sFmtVidCap (f : PixFormat) (dev : Device) : Device × Except Errno Unit :=
  match tryFmtVidCap dev.skel f with
  | .error e => (dev, .error e)
  | .ok pix =>
      if dev.busy then (dev, .error .ebusy)
      else ({ dev with skel := { dev.skel with format := pix } }, .ok ())

def sStd (std : StdId) (dev : Device) : Device × Except Errno Unit :=
  if dev.skel.input ≠ 0 then (dev, .error .enodata)
  else if std = dev.skel.std then (dev, .ok ())
  else if dev.busy then (dev, .error .ebusy)
  else
    let skel := { dev.skel with std }
    ({ dev with skel := { skel with format := fillPixFormat skel skel.format } }, .ok ())

/-- `skeleton_s_dv_timings`; finding the preset stores it in the caller's timings. -/
def sDvTimings (kernel : Kernel) (timings : DvTimings) (dev : Device)
    : Device × Except Errno Unit :=
  if dev.skel.input = 0 then (dev, .error .enodata)
  else if kernel.validDvTimings timings = false then (dev, .error .einval)
  else
    match kernel.findDvTimingsCap timings with
    | none => (dev, .error .einval)
    | some timings =>
        if kernel.matchDvTimings timings dev.skel.timings then (dev, .ok ())
        else if dev.busy then (dev, .error .ebusy)
        else
          let skel := { dev.skel with timings }
          ({ dev with skel := { skel with format := fillPixFormat skel skel.format } }, .ok ())

def sInput (i : UInt32) (dev : Device) : Device × Except Errno Unit :=
  if i > 1 then (dev, .error .einval)
  else if dev.busy then (dev, .error .ebusy)
  else
    let skel :=
      { dev.skel with input := i, tvnorms := if i ≠ 0 then 0 else skelTvnorms }
    ({ dev with skel := { skel with format := fillPixFormat skel skel.format } }, .ok ())

/-- `queue_setup`: the driver's state afterwards, and the number of buffers and the plane
size that vb2 is to allocate.
-/
def queueSetup (fileioActive : Bool) (numBuffers : UInt32) (fmt : Option PixFormat)
    (nbuffers : UInt32) (skel : Skeleton)
    : Skeleton × Except Errno (UInt32 × UInt32) :=
  let skel := { skel with field := skel.format.field }
  -- `read()` cannot pass the field of a frame back to the user.
  if skel.field = .alternate ∧ fileioActive then (skel, .error .einval)
  else
    let skel := if skel.field = .alternate then { skel with field := .top } else skel
    let nbuffers := if numBuffers + nbuffers < 3 then 3 - numBuffers else nbuffers
    match fmt with
    | none => (skel, .ok (nbuffers, skel.format.sizeimage))
    | some fmt =>
        if fmt.sizeimage < skel.format.sizeimage then (skel, .error .einval)
        else (skel, .ok (nbuffers, fmt.sizeimage))

/-- `buffer_prepare`: the payload size that is set, or the error and the line that is
logged.
-/
def bufferPrepare (skel : Skeleton) (vb : Buffer) : Except (Errno × String) UInt32 :=
  let size := skel.format.sizeimage
  if vb.planeSize < size then
    .error (.einval, "buffer too small (" ++ toString vb.planeSize ++ " < "
      ++ toString size ++ ")\n")
  else .ok size

/-- A request for buffers, with what only vb2 knows: the error with which it refuses the
request by itself (the queue streams, is mapped or has another owner), whether the queue
serves `read()`, how many buffers can be had, and the plane size of imported memory.
-/
structure BufferRequest where
  count : UInt32
  memory : Memory
  refused : Option Errno
  fileioActive : Bool
  available : Nat
  imported : UInt32

def BufferRequest.allocate (request : BufferRequest) (nbuffers size : UInt32)
    : List Buffer :=
  let planeSize :=
    match request.memory with
    | .mmap => size
    | .dmabuf => request.imported
  List.replicate (min nbuffers.toNat request.available) ⟨request.memory, planeSize⟩

/-- `VIDIOC_REQBUFS`: vb2 frees the buffers there are and asks the driver with no format. -/
def reqbufs (request : BufferRequest) (dev : Device) : Device × Except Errno Unit :=
  match request.refused with
  | some e => (dev, .error e)
  | none =>
      if request.count = 0 then ({ dev with buffers := [] }, .ok ())
      else
        match queueSetup request.fileioActive 0 none request.count dev.skel with
        | (skel, .error e) => ({ skel, buffers := [] }, .error e)
        | (skel, .ok (nbuffers, size)) =>
            let buffers := request.allocate nbuffers size
            ({ skel, buffers }, if buffers = [] then .error .enomem else .ok ())

/-- `VIDIOC_CREATE_BUFS`: vb2 adds buffers for the user's format; a count of zero only asks
whether the request is valid.
-/
def createBufs (request : BufferRequest) (format : PixFormat) (dev : Device)
    : Device × Except Errno Unit :=
  match request.refused with
  | some e => (dev, .error e)
  | none =>
      if request.count = 0 then (dev, .ok ())
      else
        match queueSetup request.fileioActive dev.buffers.length.toUInt32 (some format)
          request.count dev.skel with
        | (skel, .error e) => ({ dev with skel }, .error e)
        | (skel, .ok (nbuffers, size)) =>
            let buffers := request.allocate nbuffers size
            ({ skel, buffers := dev.buffers ++ buffers },
              if buffers = [] then .error .enomem else .ok ())

inductive Action where
  | sFmt (f : PixFormat)
  | tryFmt (f : PixFormat)
  | sStd (std : StdId)
  | sDvTimings (timings : DvTimings)
  | sInput (i : UInt32)
  | reqbufs (request : BufferRequest)
  | createBufs (request : BufferRequest) (format : PixFormat)
  | release

def perform (kernel : Kernel) (dev : Device) : Action → Device × Except Errno Unit
  | .sFmt f => sFmtVidCap f dev
  | .tryFmt f => (dev, (tryFmtVidCap dev.skel f).map (fun _ => ()))
  | .sStd std => sStd std dev
  | .sDvTimings timings => sDvTimings kernel timings dev
  | .sInput i => sInput i dev
  | .reqbufs request => reqbufs request dev
  | .createBufs request format => createBufs request format dev
  | .release => ({ dev with buffers := [] }, .ok ())

/-- The state in which `skeleton_probe` leaves the device: zeroed memory with the initial
timings and standard, and the format filled from them.
-/
def probe (kernel : Kernel) : Device :=
  let skel : Skeleton :=
    {
      std := v4l2Std62550
      timings := kernel.cea1280x720p60
      format := ⟨0, 0, 0, .other 0, 0, 0, .other 0, 0, []⟩
      input := 0
      field := .other 0
      tvnorms := skelTvnorms
    }
  { skel := { skel with format := fillPixFormat skel skel.format }, buffers := [] }

end LinuxDoc.V4l2Skeleton
