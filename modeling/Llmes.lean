import Llmes.SideBook
import Llmes.CachedRefinement
import Llmes.CachedRuns
import Llmes.CachedNext
import Llmes.CachedDistances
import Llmes.CachedLawful
import Llmes.ArrayRuns
import Llmes.Refusal
import Llmes.Engines
import Llmes.Priority
import Llmes.Termination
import Llmes.OccupancySet
import Llmes.Invariants
import Llmes.ReferenceRefinement
import Llmes.Handles
import Llmes.Conservation
import Llmes.Retirement
import Llmes.Lib.OrderedMap
import Llmes.Lib.BitScan
import Llmes.Lib.Machine
import Llmes.Lib.Strip
import Llmes.Hft.Events
import Llmes.Hft.MirrorRuns
import Llmes.Hft.Offsets
import Llmes.Hft.PriceRuns
import Llmes.SharedPool
import Llmes.Symmetries
import Llmes.EngineAgreement
import Llmes.ReplayPasses
import Llmes.Slicing
import Llmes.Observation
import Llmes.Cancelling
import Llmes.Bench.CsvSamples
