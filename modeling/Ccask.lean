import Ccask.Effect.Program
import Ccask.Effect.Simulation
import Ccask.Effect.Scan
import Ccask.Effect.Online
import Ccask.Effect.Script
import Ccask.Effect.Telling
import Ccask.Effect.Pool
import Ccask.Index.LastWrite
import Ccask.Index.Ring
import Ccask.Index.Queue
import Ccask.Index.Packing
import Ccask.Index.Linked
import Ccask.Index.Chains
import Ccask.Model.Names
import Ccask.Model.World
import Ccask.Model.Vectored
import Ccask.Model.LocalIov
import Ccask.Model.Records
import Ccask.Model.Files
import Ccask.Model.FileList
import Ccask.Model.Keydir
import Ccask.Model.Hint
import Ccask.Model.Writer
import Ccask.Model.Core
import Ccask.Model.Compactor
import Ccask.Model.Sections
import Ccask.Model.Compacting
import Ccask.Model.Invalidators
import Ccask.Model.Shutdown
import Ccask.Model.Ringbuf
import Ccask.Audit.Transfers
import Ccask.Audit.SafeTransfers
import Ccask.Audit.Calls
import Ccask.Audit.Scan
import Ccask.Audit.Recovery
import Ccask.Audit.WriteEnds
import Ccask.Audit.AppendOnly
import Ccask.Audit.Replies
import Ccask.Audit.Mount
import Ccask.Audit.Restart
import Ccask.Audit.FileList
import Ccask.Audit.Store
import Ccask.Audit.Lookup
import Ccask.Audit.Puts
import Ccask.Audit.Refinement
import Ccask.Audit.Dump
import Ccask.Audit.Replace
import Ccask.Audit.Compaction
import Ccask.Audit.Tombstone
import Ccask.Audit.TornTail
import Ccask.Audit.DescriptorRace
import Ccask.Audit.RotationRace
import Ccask.Audit.LogOrder
import Ccask.Audit.GetRace
import Ccask.Audit.Integrity
import Ccask.Audit.DumpReplies
import Ccask.Audit.OpenFiles
import Ccask.Audit.CrashedCompaction
import Ccask.Audit.StaleTemps
import Ccask.Audit.Transparency
import Ccask.Audit.Durable
import Ccask.Audit.FailedCompaction
import Ccask.Audit.HintFiles
import Ccask.Audit.UpsertRace
import Ccask.Audit.Tiling
import Ccask.Audit.Invalidators
import Ccask.Audit.Shutdown
import Ccask.Audit.FailedPut
import Ccask.Audit.GetBounds
import Ccask.Audit.MixedPuts
import Ccask.Audit.Draining
import Ccask.Audit.RingQueue
import Ccask.Audit.RingLock
import Ccask.Audit.FileNames
import Ccask.Audit.Onward
import Ccask.Model.Uthash
import Ccask.Audit.Uthash
import Ccask.Audit.PartialRecovery
import Ccask.Audit.PartialStart
import Ccask.Audit.PossibleStarts
import Ccask.Audit.FaultyProcess
import Ccask.Model.Main
import Ccask.Audit.MainRuns
import Ccask.Audit.FaultyDump
import Ccask.Audit.CompactSections
import Ccask.Audit.GeneratorSections
import Ccask.Audit.HintPairs
import Ccask.Audit.PairsKept
import Ccask.Audit.Settling
import Ccask.Audit.SettledPuts
import Ccask.Audit.SurvivingPuts
