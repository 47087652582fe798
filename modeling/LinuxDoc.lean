import LinuxDoc.Vdso.LookupTotality
import LinuxDoc.Mpssd.RequestStatus
import LinuxDoc.Mpssd.BackendWindow
import LinuxDoc.Mpssd.RequestTiling
import LinuxDoc.Mpssd.BackendSwitch
import LinuxDoc.Getdelays.Session
import LinuxDoc.AmtVersion.Connection
import LinuxDoc.Vrl4.Image
import LinuxDoc.Edid.DetailedTiming
import LinuxDoc.Vdso.PositionIndependence
import LinuxDoc.V4l2Skeleton.FormatConsistency
import LinuxDoc.WwMutex.LockObjs
import LinuxDoc.Cfag12864b.FrameBuffer
import LinuxDoc.NandEcc.BitWise
import LinuxDoc.NandEcc.Correction
import LinuxDoc.NandEcc.WordWise
import LinuxDoc.CircularBuffer.Fifo
import LinuxDoc.ObjectCache.RcuSafety
import LinuxDoc.BuildToc.Preservation
import LinuxDoc.Mpssd.ShutdownWait
import LinuxDoc.Mpssd.BlockDescriptor
import LinuxDoc.Mpssd.PacketTransfer
import LinuxDoc.Mpssd.SystemMap
import LinuxDoc.TracePostprocess.PageAlloc.Aggregation
import LinuxDoc.TracePostprocess.Vmscan.Reports
import LinuxDoc.Getdelays.LogFile
import LinuxDoc.AmtVersion.TransportStatus
import LinuxDoc.Dslm.Measure
import LinuxDoc.Freefall.HeadParking
import LinuxDoc.CnTest.Registration
import LinuxDoc.Configfs.Storeme
import LinuxDoc.V4l2Skeleton.AlternateField
import LinuxDoc.V4l2Skeleton.ProbeBalance
import LinuxDoc.TxTimestamp.ResolveHostname
import LinuxDoc.TxTimestamp.PacketBuffer
import LinuxDoc.DeviceMapper.Reverse
import LinuxDoc.GadgetHid.Joystick
import LinuxDoc.GadgetHid.Rejected
import LinuxDoc.Xc3028.Hunk
import LinuxDoc.Hm12.Descramble
import LinuxDoc.Tcmu.CommandRing
import LinuxDoc.JavaClassName.Name
import LinuxDoc.DvbFirmware.Mpc718
import LinuxDoc.ClksrcRegisters.Translation
import LinuxDoc.TracePostprocess.EventRegex.Captures
import LinuxDoc.ToyRcu.AtomicFoo
import LinuxDoc.KuserHelpers.AtomicAdd
import LinuxDoc.Vlock.Election
import LinuxDoc.PacketFilter.Frames
import LinuxDoc.PacketFilter.JitImage
import LinuxDoc.CrcTutorial.LittleEndian
import LinuxDoc.CrcTutorial.Checking
import LinuxDoc.IntervalTree.RoundTrip
