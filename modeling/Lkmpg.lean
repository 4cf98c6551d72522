import Lkmpg.Lib.Transition
import Lkmpg.Lib.SlotMap
import Lkmpg.Vinput.Registry
import Lkmpg.Vinput.RegistryMap
import Lkmpg.Vinput.RegistryRuns
import Lkmpg.Vinput.Handles
import Lkmpg.Vinput.Listed
import Lkmpg.Lib.ListCursor
import Lkmpg.Vinput.Concurrent
import Lkmpg.Vinput.Ownership
import Lkmpg.Vinput.Teardown
import Lkmpg.Vinput.Outlive
import Lkmpg.Blkram.Transfer
import Lkmpg.Blkram.Disk
import Lkmpg.Blkram.Interleaving
import Lkmpg.Lib.ExclusiveFlag
import Lkmpg.Sleep.Open
import Lkmpg.Chardev.Sessions
import Lkmpg.Chardev2.Device
import Lkmpg.Chardev2.Serial
import Lkmpg.Chardev2.Overlap
import Lkmpg.Vinput.Sequential
import Lkmpg.Chardev2.Message
import Lkmpg.Chardev2.Readback
import Lkmpg.Chardev2.NthByte
import Lkmpg.Vkbd.Text
import Lkmpg.Vkbd.Injected
import Lkmpg.Lib.SavedChain
import Lkmpg.SyscallSteal.Hooks
import Lkmpg.Completions.Unload
import Lkmpg.Bottomhalf.Work
import Lkmpg.Led.Write
import Lkmpg.Dht11.Decode
import Lkmpg.Gpio.Ladder
import Lkmpg.Sleep.Signals
import Lkmpg.Sleep.Output
import Lkmpg.Ioctl.Values
import Lkmpg.Vinput.ExportFailure
import Lkmpg.Lib.FirstMatch
import Lkmpg.Vinput.TypeLookup
import Lkmpg.Lib.DecimalText
import Lkmpg.Vkbd.KeyText
import Lkmpg.Vkbd.KeyCode
import Lkmpg.Blkram.Bounds
import Lkmpg.Vkbd.Read
import Lkmpg.Devtools.TestRun
import Lkmpg.Chardev2.RoundTrip
import Lkmpg.Chardev2.Index
import Lkmpg.Chardev2.GetMsg
import Lkmpg.Chardev2.Faults
import Lkmpg.Lib.UserCopy
import Lkmpg.StaticKey.Command
import Lkmpg.Procfs3.Device
import Lkmpg.Procfs3.Reads
import Lkmpg.Procfs3.FailedWrite
import Lkmpg.Debugfs.Message
import Lkmpg.Dht11.StartPulse
import Lkmpg.Dht11.Samples
import Lkmpg.Dht11.Clock
import Lkmpg.Gpio.Led
import Lkmpg.Lib.Loop
import Lkmpg.SyscallSteal.Search
import Lkmpg.Procfs.Greeting
import Lkmpg.Lib.WrapCounter
import Lkmpg.Vnetloop.Stats
import Lkmpg.Lib.BoundedBuffer
import Lkmpg.Vkbd.Buffers
import Lkmpg.Lib.Base64
import Lkmpg.Lib.ShellText
import Lkmpg.Devtools.Command
import Lkmpg.Lib.SeqCount
import Lkmpg.Vnetloop.Snapshot
import Lkmpg.Lib.Lifetimes
import Lkmpg.Lifecycle.Drivers
import Lkmpg.SyscallSteal.Alerts
import Lkmpg.StaticKey.Sessions
import Lkmpg.Blkram.Overlap
import Lkmpg.Procfs4.Sequence
import Lkmpg.Kbleds.Timer
import Lkmpg.Procfs2.Writes
import Lkmpg.Devtools.SameLogic
import Lkmpg.Sysfs.Attribute
import Lkmpg.Vinput.Sharing
import Lkmpg.Lib.Progress
import Lkmpg.Sleep.Progress
import Lkmpg.Dht11.Sessions
import Lkmpg.Completions.Ending
import Lkmpg.Lib.Atomic
import Lkmpg.Ioctl.Calls
import Lkmpg.Lib.Locked
import Lkmpg.Debugfs.Calls
