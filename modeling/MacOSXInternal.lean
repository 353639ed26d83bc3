import MacOSXInternal.Lib.Runs
import MacOSXInternal.Lib.Loop
import MacOSXInternal.Lib.Exits
import MacOSXInternal.Lib.Flags
import MacOSXInternal.Lib.Rendezvous
import MacOSXInternal.Lib.SignedWord
import MacOSXInternal.Lib.LeadingZeros
import MacOSXInternal.Lib.ByteOrder
import MacOSXInternal.Lib.Splice
import MacOSXInternal.Lib.AddressSpace
import MacOSXInternal.Lib.Memory
import MacOSXInternal.Lib.Undo
import MacOSXInternal.Lib.Names
import MacOSXInternal.Lib.Ports
import MacOSXInternal.Lib.Semaphore
import MacOSXInternal.Lib.Towers
import MacOSXInternal.Lib.Towers.Shortest
import MacOSXInternal.Lib.Raster
import MacOSXInternal.Lib.Forth
import MacOSXInternal.Lib.Watched
import MacOSXInternal.Lib.Traced
import MacOSXInternal.Lib.PowerPC.Instruction
import MacOSXInternal.Lib.PowerPC.Machine
import MacOSXInternal.Lib.PowerPC.Stopping
import MacOSXInternal.Lib.PowerPC.Branch
import MacOSXInternal.Lib.PowerPC.Reservation
import MacOSXInternal.Lib.PowerPC.Timebase
import MacOSXInternal.CarbonThreadManager.Ring
import MacOSXInternal.Cnid2path.Path
import MacOSXInternal.Cnid2path.Safety
import MacOSXInternal.Dummyd.Readline
import MacOSXInternal.Dummyd.Echo
import MacOSXInternal.Dummyd.Thread
import MacOSXInternal.Dummyd.Server
import MacOSXInternal.FbRotate.Angle
import MacOSXInternal.FdPassing.Handover
import MacOSXInternal.Font.Print
import MacOSXInternal.Font.Clock
import MacOSXInternal.Frr.Install
import MacOSXInternal.Frr.Reroute
import MacOSXInternal.Frr.Stacking
import MacOSXInternal.Frr.AllOrNothing
import MacOSXInternal.Frr.CompareAndStore
import MacOSXInternal.Fslogger.Walk
import MacOSXInternal.Fslogger.Stream
import MacOSXInternal.Fslogger.Decode
import MacOSXInternal.Fslogger.Reads
import MacOSXInternal.Fslogger.Safe
import MacOSXInternal.Fslogger.Separate
import MacOSXInternal.Hanoi.HanoiLib
import MacOSXInternal.Hanoi.Solve
import MacOSXInternal.Hanoi.Setup
import MacOSXInternal.Hanoi.Watch
import MacOSXInternal.Hanoi.Game
import MacOSXInternal.Hanoi.Shortest
import MacOSXInternal.Hanoi.StackComment
import MacOSXInternal.Hanoi.Screen
import MacOSXInternal.Hanoi.Picture
import MacOSXInternal.Hanoi.Bounds
import MacOSXInternal.HashTableSize.Calculate
import MacOSXInternal.Kdebug.Program
import MacOSXInternal.Kdebug.Handler
import MacOSXInternal.Kdebug.CleanUp
import MacOSXInternal.Kdebug.Samples
import MacOSXInternal.Lstasks.Tables
import MacOSXInternal.Lstasks.Program
import MacOSXInternal.Lstasks.Ledger
import MacOSXInternal.Lstasks.Totals
import MacOSXInternal.Kqueue.Watch
import MacOSXInternal.Lstasks.Arrays
import MacOSXInternal.MachIpc.Factorial
import MacOSXInternal.MachIpc.StringLength
import MacOSXInternal.MachIpc.Protocol
import MacOSXInternal.MachSemaphore.Handshake
import MacOSXInternal.Mouse.Demo
import MacOSXInternal.Notify.Lines
import MacOSXInternal.Notify.Signals
import MacOSXInternal.PosixIpc.SharedMemory
import MacOSXInternal.PosixIpc.Semaphore
import MacOSXInternal.SchedPriShift.Interval
import MacOSXInternal.ShmIpc.SharedPage
import MacOSXInternal.ShmIpc.InOrder
import MacOSXInternal.SimpleCryptoDisk.Buffer
import MacOSXInternal.SimpleCryptoDisk.Driver
import MacOSXInternal.SimpleCryptoDisk.Bookkeeping
import MacOSXInternal.SimpleCryptoDisk.Transparency
import MacOSXInternal.SimpleCryptoDisk.ShortRead
import MacOSXInternal.Srmap.Walk
import MacOSXInternal.Srmap.Table
import MacOSXInternal.Srmap.Safety
import MacOSXInternal.Stacktrace.BackChain
import MacOSXInternal.Timebase.Mftb32
import MacOSXInternal.Vmachmon.Factorial
import MacOSXInternal.Vmachmon.Monitor
import MacOSXInternal.VnodeWatcher.UserClient
import MacOSXInternal.VnodeWatcher.LifeCycle
import MacOSXInternal.VnodeWatcher.Drain
import MacOSXInternal.VnodeWatcher.Notification
import MacOSXInternal.VnodeWatcher.RoundTrip
import MacOSXInternal.VnodeWatcher.Printed
import MacOSXInternal.VmRw.LostUpdate
import MacOSXInternal.MachException.Repair
