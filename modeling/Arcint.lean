import Arcint.Foundation.Loop
import Arcint.Decode.Lane
import Arcint.Decode.GeneratePaged
import Arcint.Decode.Prefill
import Arcint.Decode.Rollback
import Arcint.Decode.Speculation
import Arcint.Ngram.Context
import Arcint.Core.Turnstile
import Arcint.Foundation.Machine
import Arcint.Ngram.Staging
import Arcint.Ple.ShortConv
import Arcint.Ple.Tail
import Arcint.Fill.Scheduler
import Arcint.Foundation.Checks
import Arcint.Foundation.Slice
import Arcint.Segment.Plan
import Arcint.Segment.Slots
import Arcint.Segment.Runtime
import Arcint.Fill.Arcwell
import Arcint.Fill.Partition
import Arcint.Fill.Coordinator
import Arcint.Fill.CensusSeed
import Arcint.Fill.ExpertStore
import Arcint.Fill.SeedReaders
import Arcint.Fill.StoreReads
import Arcint.Foundation.SortBy
import Arcint.Fill.StoreLayout
import Arcint.Cache.BlockPool
import Arcint.Cache.PageRuns
import Arcint.Cache.PrefixCache
import Arcint.Cache.Lanes
import Arcint.Cache.Ownership
import Arcint.Cache.Accounting
import Arcint.Cache.WordPool
import Arcint.Foundation.Find
import Arcint.Ngram.Window
import Arcint.Text.Bytes
import Arcint.Text.Reasoning
import Arcint.Text.StreamChat
import Arcint.Fit.ChunkBelt
import Arcint.Fit.Context
import Arcint.Fit.Convergence
import Arcint.Foundation.Access
import Arcint.Foundation.Wire
import Arcint.Gguf.Decode
import Arcint.Gguf.Extent
import Arcint.Cache.Reclaim
import Arcint.Cache.Supply
import Arcint.Decode.Dflash
import Arcint.Decode.MtpHead
import Arcint.Decode.Stateful
import Arcint.Fit.AtDepth
import Arcint.Fit.Ledger
import Arcint.Foundation.Scatter
import Arcint.Gguf.Graph
import Arcint.Text.Stop
import Arcint.Text.StreamUtf8
import Arcint.Cache.HostTier
import Arcint.Cache.Lookup
import Arcint.Decode.Schedule
import Arcint.Decode.Snapshots
import Arcint.Fit.Refusal
import Arcint.Foundation.Delimited
import Arcint.Foundation.Scan
import Arcint.Foundation.Substitution
import Arcint.Foundation.Wrap
import Arcint.Gdn.Chunk
import Arcint.Gdn.Core
import Arcint.Ngram.Twin
import Arcint.Text.StopCuts
import Arcint.Gguf.Deviation
import Arcint.Text.CodePoints
import Arcint.Foundation.Layout
import Arcint.Ngram.Constants
import Arcint.Ngram.Gather
import Arcint.Ngram.Ports
import Arcint.Segment.Acceptance
import Arcint.Core.Chat
import Arcint.Core.ChatIntegers
import Arcint.Text.ToolCallErrors
import Arcint.Text.ToolCallRoundTrip
import Arcint.Foundation.Binary
import Arcint.Foundation.Edits
import Arcint.Gguf.ExactMins
import Arcint.Gguf.RepackExact
import Arcint.Fill.Quantise
import Arcint.Gdn.ShortConv
import Arcint.Gguf.Matvec
import Arcint.Native.Blocks
import Arcint.Ngram.Export
import Arcint.Fill.Filler
import Arcint.Fill.StoreRecords
import Arcint.Native.Dispatch
import Arcint.Native.DispatchModes
import Arcint.Native.Jobs
import Arcint.Foundation.Ranked
import Arcint.Foundation.Tensor
import Arcint.Moe.Agreement
import Arcint.Native.ExactDot
import Arcint.Native.ExpertAgreement
import Arcint.Core.Nucleus
import Arcint.Fill.DenseU8
import Arcint.Fill.ResidentSlots
import Arcint.Core.Turns
import Arcint.Decode.DflashSelect
import Arcint.Core.Sha256
import Arcint.Fit.BeltBounds
import Arcint.Decode.StateBlob
import Arcint.Foundation.Rounding
import Arcint.Gguf.HalfRounding
import Arcint.Fill.StagingRing
import Arcint.Foundation.OnlineSoftmax
import Arcint.Foundation.Stateful
import Arcint.Moe.Rows
import Arcint.Network.Arith
import Arcint.Network.Attention
import Arcint.Network.Backbone
import Arcint.Network.PagedPartials
import Arcint.Network.Qwen35
import Arcint.Network.Segments
import Arcint.Fill.Census
import Arcint.Fill.CensusText
import Arcint.Fill.PolicyCompare
import Arcint.Fill.ServedSeed
import Arcint.Fill.TokenLabels
import Arcint.Foundation.Worklist
import Arcint.Network.RopeNodes
