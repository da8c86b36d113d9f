import HtSglang.Library.Scatter
import HtSglang.Library.Rows
import HtSglang.Library.Greedy
import HtSglang.Library.Loop
import HtSglang.Library.Residue
import HtSglang.Library.Dict
import HtSglang.Library.MinReduce
import HtSglang.Library.OpRun
import HtSglang.Library.TwoPointer
import HtSglang.Library.CommonPrefix
import HtSglang.Generation.FinishState
import HtSglang.Library.Ancestry
import HtSglang.Library.Best
import HtSglang.Library.Entries
import HtSglang.Library.Pages
import HtSglang.Library.Segments
import HtSglang.Dcp.TokenVector
import HtSglang.Dcp.WeightedIndices
import HtSglang.Dcp.ReshardPlan
import HtSglang.Dcp.PoolView
import HtSglang.Dcp.Reshard
import HtSglang.Dcp.ReshardRuntime
import HtSglang.Dcp.ReshardTrailer
import HtSglang.Dcp.Consensus
import HtSglang.Dcp.Cutover
import HtSglang.Dcp.ReshardRuns
import HtSglang.Dcp.EvenLens
import HtSglang.Library.Overlay
import HtSglang.Dcp.GdnFlipPlan
import HtSglang.Distributed.PartitionUnits
import HtSglang.Distributed.KvAlignedSplit
import HtSglang.Distributed.UnitRebalance
import HtSglang.Distributed.PpIndices
import HtSglang.Distributed.PpLayerSplit
import HtSglang.MemCache.MultiEnded
import HtSglang.MemCache.MultiEndedFlush
import HtSglang.MemCache.MultiEndedBooks
import HtSglang.MemCache.MultiEndedMoves
import HtSglang.MemCache.MultiEndedWalk
import HtSglang.MemCache.MultiEndedCompaction
import HtSglang.MemCache.MultiEndedSystem
import HtSglang.MemCache.MultiEndedRuns
import HtSglang.MemCache.RadixKey
import HtSglang.MemCache.RadixCache
import HtSglang.MemCache.RadixShape
import HtSglang.MemCache.RadixBooks
import HtSglang.MemCache.RadixLocking
import HtSglang.MemCache.RadixDescent
import HtSglang.MemCache.RadixSystem
import HtSglang.MemCache.RadixHistory
import HtSglang.MemCache.PageAllocator
import HtSglang.MemCache.RadixPages
import HtSglang.MemCache.RadixRequests
import HtSglang.MemCache.RadixConservation
import HtSglang.MemCache.PinLedger
import HtSglang.Library.LossyUtf8
import HtSglang.Generation.Detokenizer
import HtSglang.Generation.StopStrings
import HtSglang.Disaggregation.DecodePrealloc
import HtSglang.Disaggregation.PrefillSend
import HtSglang.MemCache.LruFileEvictor
import HtSglang.MemCache.LruFileEvictorRuns
import HtSglang.Scheduling.IgnoreEosAdmission
import HtSglang.Scheduling.PpAdmission
import HtSglang.Scheduling.PpRetraction
import HtSglang.MemCache.FreeGroup
import HtSglang.Moe.TokenWaves
import HtSglang.Moe.CapturableRemap
import HtSglang.Scheduling.IgnoreEosOrder
import HtSglang.Scheduling.MambaAdmission
import HtSglang.ModelExecutor.PressureLadder
import HtSglang.MemCache.SessionRegion
import HtSglang.Library.Cuts
import HtSglang.Planner.PpCut
import HtSglang.Planner.KvFloor
import HtSglang.Planner.NestingHull
import HtSglang.Ngram.Trie
import HtSglang.Ngram.TrieRuns
import HtSglang.Ngram.TrieMatch
import HtSglang.Speculative.TreeVerify
