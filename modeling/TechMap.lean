import TechMap.Equivalence
import TechMap.Extraction.Scratch
import TechMap.Mapping.Run
import TechMap.Numeric.Shortest
import TechMap.Proofs.Mapping.Correctness
import TechMap.Random.Network
import TechMap.Proofs.Mapping.CycleWalk
import TechMap.Proofs.Mapping.Ranking
import TechMap.Proofs.Cut.Antichain
import TechMap.Proofs.Cut.Product
import TechMap.Proofs.Mapping.Arrivals
import TechMap.Proofs.Mapping.Completeness
import TechMap.Proofs.Mapping.Counts
import TechMap.Proofs.Mapping.Departures
import TechMap.Proofs.Mapping.Slack
import TechMap.Proofs.Mapping.Target
import TechMap.Proofs.Extraction.Exact
import TechMap.Proofs.Extraction.Session
import TechMap.Proofs.Mapping.FreeCone
import TechMap.Proofs.Mapping.Duality
import TechMap.Proofs.Mapping.Remapping
import TechMap.Proofs.Mapping.Rollback
import TechMap.Proofs.Network.Intact
import TechMap.Proofs.Network.Renaming
import TechMap.Proofs.Mapping.AreaRecovery
import TechMap.Proofs.Network.Stability
import TechMap.Proofs.MuxRule.Report
import TechMap.Proofs.Cut.Choices
import TechMap.Proofs.Mapping.LeastCover
import TechMap.Proofs.Mapping.Prioritization
import TechMap.Proofs.Mapping.Retention
import TechMap.Proofs.Mapping.Backfill
import TechMap.Proofs.Mapping.Budget
import TechMap.Proofs.Cut.Stored
import TechMap.Proofs.Network.Lanes
import TechMap.Proofs.Equivalence
import TechMap.Proofs.Random.Input
import TechMap.Proofs.Random.Buffer
