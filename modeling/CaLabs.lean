import CaLabs.Mips.Interpreter
import CaLabs.Lab2.Pipe
import CaLabs.Pipeline.Elastic
import CaLabs.Pipeline.Refinement
import CaLabs.Lab1.Cache
import CaLabs.Lab1.Pipe
import CaLabs.Lab2.Refinement
import CaLabs.Lab2.SameStream
import CaLabs.Lab1.Lru
import CaLabs.Lab2.L1Replacement
import CaLabs.Lab2.Scheduling
import CaLabs.Lab2.DramTiming
import CaLabs.Halting
import CaLabs.Lab1.Rrip
import CaLabs.Lab2.DramFill
import CaLabs.Lab2.MissTracking
import CaLabs.Lab2.Waiting
import CaLabs.Lab3.Host
import CaLabs.Lab5.AtlasService
import CaLabs.Lab5.Bliss
import CaLabs.Lab2.EarlyFill
import CaLabs.Lab2.QueueInStep
import CaLabs.Lab3.BarrierReductions
import CaLabs.Lab3.Blocks
import CaLabs.Lab3.FinalReductions
import CaLabs.Lab3.VectorReduction
import CaLabs.Lab5.AtlasOwnership
import CaLabs.Lab3.VectorKernel
import CaLabs.Lab3.VectorOps
import CaLabs.Lab5.Controller
import CaLabs.Lab5.Precharge
import CaLabs.Lab2.Selection
import CaLabs.Lab1.Geometry
import CaLabs.Lab1.Content
import CaLabs.Pipeline.Undefined
import CaLabs.ByteMemory
import CaLabs.Lab5.WorkConservation
import CaLabs.Lab4.Adaptive
import CaLabs.Lab4.Ghb
import CaLabs.Lab1.MissPenalty
import CaLabs.Lab2.Duplicates
import CaLabs.Lab2.BankExclusion
import CaLabs.Lab5.SchedulerOrder
import CaLabs.Lab5.AtlasQuanta
import CaLabs.Lab4.AdaptiveWindow
import CaLabs.Lab4.RecentRequests
import CaLabs.Lab4.LearningPhase
import CaLabs.Lab4.AbopTargets
import CaLabs.Lab4.Hybrid
import CaLabs.Lab1.Inclusion
import CaLabs.Lab1.RripSearch
import CaLabs.Lab2.MshrUniqueness
import CaLabs.Lab2.L2Replacement
import CaLabs.Lab2.L1Fill
import CaLabs.Lab2.NextAccess
import CaLabs.Lab5.AtlasBanks
import CaLabs.Lab5.Graphene
import CaLabs.Lab4.Renaming
import CaLabs.Lab4.FoldedShiftRegister
import CaLabs.Lab5.AddressMapping
import CaLabs.Lab5.DeviceTiming
import CaLabs.Lab4.RripVictim
import CaLabs.Lab5.Conservation
import CaLabs.Lab5.RowSwap
import CaLabs.Lab4.VirtualMemory
import CaLabs.Lab4.MissHandling
import CaLabs.Lab4.LruTable
import CaLabs.Lab5.Hydra
import CaLabs.Lab5.RowCounters
import CaLabs.Lab4.Channel
import CaLabs.Lab4.PageTableWalker
