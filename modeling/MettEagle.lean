import MettEagle.Lib.Act
import MettEagle.Lib.Run
import MettEagle.Lib.BitSet
import MettEagle.Lib.FlagCount
import MettEagle.Lib.Shares
import MettEagle.Lib.Tally
import MettEagle.Lib.Latch
import MettEagle.Lib.Noninterference
import MettEagle.Lib.Pages
import MettEagle.Lib.StringBlock
import MettEagle.Lib.Decimal
import MettEagle.Lib.Json
import MettEagle.Lib.Fields
import MettEagle.Lib.NameTable
import MettEagle.L4
import MettEagle.Fmt
import MettEagle.Liblog
import MettEagle.Server
import MettEagle.Invoke
import MettEagle.InvokeSpec
import MettEagle.Client
import MettEagle.ActionMap
import MettEagle.ErrorReplies
import MettEagle.ClientStub
import MettEagle.Libfaas
import MettEagle.Lib.Procedures
import MettEagle.Lib.Permits
import MettEagle.ServerLoop
import MettEagle.Timeouts
import MettEagle.Cpus
import MettEagle.Register
import MettEagle.CpuRace
import MettEagle.DeletionIrq
import MettEagle.Lib.Owners
import MettEagle.CpuAccounts
import MettEagle.Isolation
import MettEagle.CapAlloc
import MettEagle.CapSafety
import MettEagle.CapAlone
import MettEagle.CapTake
import MettEagle.CapRaces
import MettEagle.CapTeardown
import MettEagle.AppModel
import MettEagle.Stack
import MettEagle.ArgStrings
import MettEagle.Benchmark
import MettEagle.Launch
import MettEagle.Wrappers
import MettEagle.Environ
import MettEagle.Startup
import MettEagle.StackPages
import MettEagle.Measure
import MettEagle.Calls
import MettEagle.Programs
import MettEagle.LogSync
import MettEagle.LogLines
import MettEagle.CapProgress
import MettEagle.Placement
import MettEagle.BenchmarkEnds
import MettEagle.BenchmarkCpus
