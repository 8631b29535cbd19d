import DecisionGraph.Client
import DecisionGraph.Proofs.Outcome
import DecisionGraph.Proofs.Subtable
import DecisionGraph.Proofs.UniqueTable
import DecisionGraph.Proofs.Edges
import DecisionGraph.Proofs.Meaning
import DecisionGraph.Proofs.VarOrder
import DecisionGraph.Proofs.Layers
import DecisionGraph.Proofs.Accounts
import DecisionGraph.Proofs.Collection
import DecisionGraph.Proofs.Invariant
import DecisionGraph.Proofs.Synthesis
import DecisionGraph.Proofs.Reduction
import DecisionGraph.Proofs.Rotation
import DecisionGraph.Proofs.Exchange
import DecisionGraph.Proofs.Sifting
import DecisionGraph.Proofs.Runs
import DecisionGraph.Proofs.Noting
import DecisionGraph.Proofs.WellFormed
import DecisionGraph.Proofs.Functions
import DecisionGraph.Proofs.Canonicity
import DecisionGraph.Proofs.Travels
import DecisionGraph.Proofs.Reordering
import DecisionGraph.Proofs.Equivalence
import DecisionGraph.Proofs.Sweep
import DecisionGraph.Proofs.Isomorphism
import DecisionGraph.Proofs.Frame
import DecisionGraph.Proofs.SubtableMap
import DecisionGraph.Proofs.Transparency
import DecisionGraph.Proofs.Reducedness
import DecisionGraph.Proofs.Safety
import DecisionGraph.Proofs.Release
import DecisionGraph.Proofs.NormalForm
import DecisionGraph.Proofs.Conflict
import DecisionGraph.Proofs.Turns
import DecisionGraph.Proofs.Footprint
import DecisionGraph.Proofs.Cofactor
import DecisionGraph.Proofs.Counting
import DecisionGraph.Proofs.Additions
import DecisionGraph.Proofs.WaterMarks
import DecisionGraph.Proofs.Staleness
import DecisionGraph.Proofs.Depth
import DecisionGraph.Proofs.Tours
import DecisionGraph.Proofs.Size
