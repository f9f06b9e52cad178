import SseExt.BackLog
import SseExt.D3D11
import SseExt.Detour
import SseExt.Elapsed
import SseExt.Events
import SseExt.GameHandles
import SseExt.Hash
import SseExt.HashContract
import SseExt.HashOrder
import SseExt.Hook.Code
import SseExt.Hook.Install
import SseExt.Hook.Redirect
import SseExt.Ini.Integers
import SseExt.Ini.Layout
import SseExt.Ini.Parse
import SseExt.Ini.Reader
import SseExt.Ini.Values
import SseExt.Lib.ByteMemory
import SseExt.Lib.Chain
import SseExt.Lib.Ends
import SseExt.Lib.Footprint
import SseExt.Lib.Handles
import SseExt.Lib.HashPolicy
import SseExt.Lib.HashTable
import SseExt.Lib.InStream
import SseExt.Lib.KeepFirst
import SseExt.Lib.KeyOrder
import SseExt.Lib.Keyed
import SseExt.Lib.LittleEndian
import SseExt.Lib.Numeral
import SseExt.Lib.Ownership
import SseExt.Lib.Refinement
import SseExt.Lib.Signed64
import SseExt.Lib.SortedVec
import SseExt.Lib.Threads
import SseExt.Lib.Tickets
import SseExt.Lib.Trace
import SseExt.Lib.Transition
import SseExt.Lib.UpperBound
import SseExt.Model
import SseExt.ModelLoader
import SseExt.Node
import SseExt.Patching
import SseExt.PerfCounter
import SseExt.PerfTimer
import SseExt.Plugin.FormID
import SseExt.Plugin.Migrate
import SseExt.Plugin.PluginInfo
import SseExt.Plugin.Resolve
import SseExt.Plugin.Startup
import SseExt.Queue.Drain
import SseExt.Queue.ProducerConsumer
import SseExt.Queue.Progress
import SseExt.Queue.Shutdown
import SseExt.Queue.WorkerPool
import SseExt.Serialization
import SseExt.SmartPointer.AutoPointer
import SseExt.SmartPointer.Cascade
import SseExt.SmartPointer.Heap
import SseExt.SmartPointer.Safety
import SseExt.SpinLock
import SseExt.Stl.Map
import SseExt.Stl.MapLoad
import SseExt.Stl.MapRefines
import SseExt.Stl.Set
import SseExt.Stl.VectorMap
import SseExt.Stl.VectorMapAssign
import SseExt.Stl.VectorMapOrder
import SseExt.StrHelpers
import SseExt.Stream
import SseExt.StringCache.Archive
import SseExt.StringCache.FixedString
import SseExt.StringCache.Interning
import SseExt.StringCache.Key
import SseExt.StringCache.Pool
import SseExt.StringCache.Stats
import SseExt.StringCache.Threads
import SseExt.TaskQueue.Effect
import SseExt.TaskQueue.Ending
import SseExt.TaskQueue.Return
import SseExt.TaskQueue.RunConcurrent
import SseExt.TaskQueue.Wakeup
import SseExt.Tasks.Actors
import SseExt.Tasks.Budget
import SseExt.Tasks.Delivery
import SseExt.Tasks.Fixed
import SseExt.Tasks.Frames
import SseExt.Tasks.Locking
import SseExt.Tasks.Progress
import SseExt.Tasks.Reentry
import SseExt.Tasks.Static
import SseExt.Tasks.StaticDelivery
import SseExt.Tasks.StaticRefines
import SseExt.Tasks.TaskQueue
import SseExt.VFT
import SseExt.VersionDb.AddressLibrary
import SseExt.VersionDb.Codec
import SseExt.VersionDb.Dump
import SseExt.VersionDb.Failure
import SseExt.VersionDb.Load
import SseExt.VersionDb.Queries
import SseExt.VersionDb.Truncation
