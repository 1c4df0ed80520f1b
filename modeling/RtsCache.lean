import RtsCache.UndoHeap
import RtsCache.UndoMachine
import RtsCache.UndoRules
import RtsCache.LinkedPath
import RtsCache.PoolLayout
import RtsCache.HashmapMachine
import RtsCache.HashmapInvariant
import RtsCache.HashmapScan
import RtsCache.HashmapUpdate
import RtsCache.HashmapBodies
import RtsCache.HashmapRebuild
import RtsCache.HashmapOps
import RtsCache.HashmapCreate
import RtsCache.RunRefinement
import RtsCache.HashmapRuns
import RtsCache.HashmapAborts
import RtsCache.QueueMachine
import RtsCache.QueueInvariant
import RtsCache.QueueRuns
import RtsCache.UndoQuiet
import RtsCache.QueueWrap
import RtsCache.CacheMachine
import RtsCache.DoublyLinked
import RtsCache.CacheInvariant
import RtsCache.CacheCalls
import RtsCache.CacheOps
import RtsCache.CacheAborts
import RtsCache.CacheCommits
import RtsCache.UndoFaults
import RtsCache.CacheFaults
import RtsCache.CacheRuns
import RtsCache.BitSmear
import RtsCache.CuckooIndex
import RtsCache.CuckooMachine
import RtsCache.TableOverlay
import RtsCache.CuckooSpec
import RtsCache.CuckooRuns
import RtsCache.CuckooCount
import RtsCache.ScalableMachine
import RtsCache.ScalableRuns
import RtsCache.CuckooSizing
import RtsCache.CuckooReset
import RtsCache.CuckooDeletes
import RtsCache.CuckooKicks
import RtsCache.CuckooInserts
import RtsCache.CuckooRelocation
import RtsCache.ScalableBounds
import RtsCache.UndoWrites
import RtsCache.FlexibleArrays
import RtsCache.CacheNew
import RtsCache.WordMixing
import RtsCache.HashMixer
import RtsCache.LosslessFold
import RtsCache.FnvHash
import RtsCache.MurmurHash
import RtsCache.FullPeriod
import RtsCache.RandomBits
import RtsCache.CuckooReach
import RtsCache.CuckooProvenance
import RtsCache.CuckooDraws
import RtsCache.CuckooMemory
import RtsCache.ScalableMemory
import RtsCache.ScalableDeletes
import RtsCache.SlotMultiset
import RtsCache.BucketMultiset
import RtsCache.StoppingVisits
import RtsCache.HashmapForeach
import RtsCache.ScalableLoad
import RtsCache.ScalableGrowth
import RtsCache.CuckooUsable
import RtsCache.PmemMain
import RtsCache.CacheLists
import RtsCache.CacheDeletes
import RtsCache.CacheAdds
import RtsCache.CacheReads
import RtsCache.CacheGrowth
import RtsCache.HashmapFootprint
import RtsCache.DelimitedText
import RtsCache.HashmapDebug
import RtsCache.HashmapNew
import RtsCache.HashmapOrder
import RtsCache.HashmapGrowth
import RtsCache.PrimeHash
import RtsCache.HashSpread
import RtsCache.UndoFrame
import RtsCache.HeapParts
import RtsCache.HashmapFrame
import RtsCache.HashmapShared
