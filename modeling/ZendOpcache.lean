import ZendOpcache.Transition.Run
import ZendOpcache.Hash.Session
import ZendOpcache.Memory.SharedAlloc
import ZendOpcache.Cache.Session
import ZendOpcache.Restart.Safety
import ZendOpcache.Optimizer.FoldUses
import ZendOpcache.Optimizer.CompoundAssign
import ZendOpcache.Optimizer.BlockPass
import ZendOpcache.Optimizer.DelSource
import ZendOpcache.Optimizer.BlockInvariant
import ZendOpcache.Optimizer.JmpInvariant
import ZendOpcache.Optimizer.EntryBlock
import ZendOpcache.Memory.SaveState
import ZendOpcache.Memory.CreateSegments
import ZendOpcache.Memory.Pool
import ZendOpcache.Optimizer.Sources
import ZendOpcache.Cache.IncludePath
import ZendOpcache.Cache.IncludeKeys
import ZendOpcache.Cache.IncludeRun
import ZendOpcache.Cache.Key
import ZendOpcache.Optimizer.TUsage
import ZendOpcache.Transition.Trace
import ZendOpcache.Optimizer.Execution
import ZendOpcache.Optimizer.Assemble
import ZendOpcache.Optimizer.Walk
import ZendOpcache.Optimizer.Threading
import ZendOpcache.Optimizer.ThreadJmpz
import ZendOpcache.Optimizer.ThreadJmpzEx
import ZendOpcache.Optimizer.ThreadConstants
import ZendOpcache.Optimizer.ThreadJmp
import ZendOpcache.Optimizer.ThreadJoins
import ZendOpcache.Optimizer.JmpWalk
import ZendOpcache.Hash.Counted
import ZendOpcache.Hash.TwoLevel
import ZendOpcache.Restart.Status
import ZendOpcache.Cache.Wasted
import ZendOpcache.Optimizer.NopRemoval
import ZendOpcache.Optimizer.NopTables
import ZendOpcache.Optimizer.NopTrace
import ZendOpcache.Optimizer.TempAllocation
import ZendOpcache.Optimizer.TempRenumber
import ZendOpcache.Optimizer.Pass1
import ZendOpcache.Optimizer.Pass2
import ZendOpcache.Optimizer.Pass3
import ZendOpcache.Optimizer.Passes
import ZendOpcache.Transition.Logged
import ZendOpcache.Optimizer.Settings
import ZendOpcache.Optimizer.SettingsRun
import ZendOpcache.Persist.Entries
import ZendOpcache.Persist.Store
import ZendOpcache.Persist.Load
import ZendOpcache.Persist.Values
import ZendOpcache.Persist.StoreValues
import ZendOpcache.Persist.LoadValues
import ZendOpcache.Persist.Duplicates
import ZendOpcache.Persist.StaticMembers
import ZendOpcache.Cache.Invalidate
import ZendOpcache.Interned.Buffer
import ZendOpcache.Interned.Count
import ZendOpcache.Optimizer.Additions
import ZendOpcache.Hash.Stores
import ZendOpcache.Optimizer.JmpLoops
import ZendOpcache.Optimizer.Pass2Flow
import ZendOpcache.Optimizer.OffsetLiterals
import ZendOpcache.Optimizer.JmpFollow
import ZendOpcache.Optimizer.JmpPass
import ZendOpcache.Optimizer.LiteralBuffers
import ZendOpcache.Checksum.Adler32
import ZendOpcache.Checksum.AdlerSums
import ZendOpcache.Checksum.Chaining
import ZendOpcache.Checksum.ScriptBytes
import ZendOpcache.Blacklist.Ere
import ZendOpcache.Blacklist.Lines
import ZendOpcache.Blacklist.Matching
import ZendOpcache.Blacklist.Stuck
import ZendOpcache.Cache.Revalidate
import ZendOpcache.Cache.Served
import ZendOpcache.Optimizer.AccessSources
import ZendOpcache.Optimizer.BrkCont
import ZendOpcache.Restart.GivenUp
import ZendOpcache.HashTable.Buckets
import ZendOpcache.HashTable.Clone
import ZendOpcache.Code.MovedArrays
import ZendOpcache.Code.PersistOpArray
import ZendOpcache.Code.SameCode
import ZendOpcache.ScriptSize.Agreement
import ZendOpcache.Cache.Status
import ZendOpcache.Blacklist.Load
import ZendOpcache.Interned.SymbolTables
