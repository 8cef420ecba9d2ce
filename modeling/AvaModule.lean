import AvaModule.Ds.RbTree.Runs
import AvaModule.Ds.Spsc.Runs
import AvaModule.Sched.Runs
import AvaModule.Sched.Service
import AvaModule.Sched.Deadline
import AvaModule.Lib.WrapRing
import AvaModule.Ds.Mpsc.Model
import AvaModule.Ds.Mpsc.Word
import AvaModule.Ds.Mpsc.Invariant
import AvaModule.Ds.Mpsc.Frame
import AvaModule.Ds.Mpsc.Producer
import AvaModule.Ds.Mpsc.Region
import AvaModule.Ds.Mpsc.Exchange
import AvaModule.Ds.Spsc.Sequential
import AvaModule.Shm.Model
import AvaModule.Shm.Channel
import AvaModule.Shm.Startup
import AvaModule.Ds.Mpsc.Exact
import AvaModule.Lib.LittleEndian
import AvaModule.Log.Model
import AvaModule.Ds.Mpsc.Alone
import AvaModule.Ds.Mpsc.Messages
import AvaModule.Log.Records
import AvaModule.Log.Flush
import AvaModule.Log.Runs
import AvaModule.Log.Delivery
import AvaModule.Log.Async
import AvaModule.Ds.List
import AvaModule.Lib.Tiling
import AvaModule.Ds.Mp.Model
import AvaModule.Ds.Mp.Layout
import AvaModule.Ds.Mp.FreeList
import AvaModule.Ds.Mp.Alloc
import AvaModule.Ds.Mp.Runs
import AvaModule.Comm.Net.Invariant
import AvaModule.Comm.Net.Steps
import AvaModule.Comm.Net.Poll
import AvaModule.Comm.Net.Runs
import AvaModule.Filter.Pll
import AvaModule.Lib.RampHold
import AvaModule.Foc.Model
import AvaModule.Foc.Steps
import AvaModule.Foc.Calibration
import AvaModule.Foc.Outcome
import AvaModule.Foc.First
import AvaModule.Foc.Second
import AvaModule.Ds.RbTree.Walk
import AvaModule.Ds.RbTree.Order
import AvaModule.Sched.Lifetime
import AvaModule.Lib.RoundRobin
import AvaModule.Sched.Fcfs
import AvaModule.Sched.Capacity
import AvaModule.Ds.Spsc.Overwrite
import AvaModule.Ds.Mpsc.Drained
import AvaModule.Log.Bounds
import AvaModule.Ds.Mpsc.Reinit
import AvaModule.Ds.Mp.Reinit
import AvaModule.Ds.Init
import AvaModule.Ds.Mpsc.Consumer
import AvaModule.Ds.Mpsc.Runs
import AvaModule.Foc.Position
import AvaModule.Foc.Offset
import AvaModule.Foc.Resumed
import AvaModule.Comm.Net.Spin
import AvaModule.Comm.Net.Logged
import AvaModule.Comm.Net.Broadcast
import AvaModule.Ds.Mp.Wrapped
import AvaModule.Ds.Mp.Frames
import AvaModule.Ds.Mp.Served
import AvaModule.Comm.Net.Submit
import AvaModule.Ds.Mpsc.Delivery
import AvaModule.Lib.ShiftRegister
import AvaModule.Crypto.Crc
import AvaModule.Util.FindMax
import AvaModule.Filter.Iir
import AvaModule.Obs.Hfi
import AvaModule.Foc.Svpwm
import AvaModule.Ctl.Pid
import AvaModule.Foc.Current
import AvaModule.Foc.Leftovers
import AvaModule.Filter.Maf
import AvaModule.Trans.Fft
import AvaModule.Filter.Rls
import AvaModule.Util.Warp
import AvaModule.Ds.Spsc.Capacity
import AvaModule.Lib.SineTable
import AvaModule.Util.FastMath
import AvaModule.Ds.ListOps
import AvaModule.Ds.ListHeap
import AvaModule.Ds.Mp.Inside
import AvaModule.Ds.Mp.Kept
import AvaModule.Comm.Net.Channels
import AvaModule.Ds.Mp.Reset
import AvaModule.Filter.PllLock
import AvaModule.Lib.Sliding
import AvaModule.Obs.Lbg
import AvaModule.Obs.Smo
import AvaModule.Crypto.Residue
import AvaModule.Crypto.TwoBits
import AvaModule.Ds.Mpsc.Progress
import AvaModule.Filter.Bands
import AvaModule.Foc.Exec
import AvaModule.Foc.Limits
import AvaModule.Foc.Rates
import AvaModule.Foc.Settle
import AvaModule.Sched.Backlog
import AvaModule.Util.BitScan
import AvaModule.Wavegen.Waves
