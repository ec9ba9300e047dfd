import PolymlRs.Interp.Gc
import PolymlRs.Sched.Safety
import PolymlRs.Image.Bicimage
import PolymlRs.Image.BicRoundTrip
import PolymlRs.Heap.Bytes
import PolymlRs.Image.Pexport
import PolymlRs.Image.PexportRoundTrip
import PolymlRs.Rts.Arbitrary
import PolymlRs.Rts.ArbitraryExact
import PolymlRs.Gc.WeakExact
import PolymlRs.Gc.WeakOutcome
import PolymlRs.Sched.Mutex
import PolymlRs.Image.Export
import PolymlRs.Image.ExportWalk
import PolymlRs.Image.LoaderSlots
import PolymlRs.Image.LoaderSound
import PolymlRs.Image.ExportImage
import PolymlRs.Image.ExportRoundTrip
import PolymlRs.Lib.Interleaving
import PolymlRs.Sched.BlockEvents
import PolymlRs.Sched.LostWake
import PolymlRs.Sched.RequestCopy
import PolymlRs.Gc.StartLookup
import PolymlRs.Interp.Calls
import PolymlRs.Interp.RegionCall
import PolymlRs.Interp.StackSlots
import PolymlRs.Gc.ArenaBound
import PolymlRs.Jit.Region
import PolymlRs.Jit.Memtrans
import PolymlRs.Jit.RegionRuns
import PolymlRs.Jit.RegionCode
import PolymlRs.Jit.StackBounds
import PolymlRs.Image.ExportGated
import PolymlRs.Image.PexportSound
import PolymlRs.Lib.TwosComplement
import PolymlRs.Rts.Bitwise
import PolymlRs.Rts.CodeCalls
import PolymlRs.Rts.Gcd
import PolymlRs.Interp.Disasm
import PolymlRs.Interp.RtsCall
import PolymlRs.Jit.InstrLengths
import PolymlRs.Sched.CircularWait
import PolymlRs.Jit.Arity
import PolymlRs.Sched.Exit
import PolymlRs.Sched.ExitRuns
import PolymlRs.Image.BicTruncated
import PolymlRs.Image.BicVarint
import PolymlRs.Interp.StepOne
import PolymlRs.Interp.BurstExact
import PolymlRs.Jit.Execute
import PolymlRs.Jit.SameWords
import PolymlRs.Jit.ScanSound
import PolymlRs.Jit.SlotRuns
import PolymlRs.Interp.SideStackRuns
import PolymlRs.Jit.Installed
