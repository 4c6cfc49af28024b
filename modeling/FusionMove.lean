import FusionMove.Access
import FusionMove.Energy.Draft
import FusionMove.Proposal.Callback
import FusionMove.Certificate.Checked
import FusionMove.Cut.Checked
import FusionMove.Solver.Iterate
import FusionMove.Solver.Bound
import FusionMove.Solver.Snapshot
import FusionMove.Solver.Portable
import FusionMove.Proofs.Mask.Lattice
import FusionMove.Proofs.Mask.Submodular
import FusionMove.Proofs.Cut.Channel
import FusionMove.Proofs.Cut.Residual
import FusionMove.Proofs.Cut.Push
import FusionMove.Proofs.Cut.Search
import FusionMove.Proofs.Cut.Augment
import FusionMove.Proofs.Cut.MinimumCut
import FusionMove.Proofs.Cut.Contract
import FusionMove.Proofs.Cut.Potential
import FusionMove.Proofs.Cut.Descending
import FusionMove.Proofs.Cut.Unsolved
import FusionMove.Proofs.Cut.Loops
import FusionMove.Proofs.Cut.Stopping
import FusionMove.Proofs.Cut.Conservation
import FusionMove.Proofs.Cut.Shortest
import FusionMove.Proofs.Action
import FusionMove.Proofs.Agreement
import FusionMove.Proofs.Fusion.Gray
import FusionMove.Proofs.Fusion.Table
import FusionMove.Proofs.Fusion.Visits
import FusionMove.Proofs.Certificate.Cells
import FusionMove.Proofs.Certificate.Shares
import FusionMove.Proofs.Certificate.Spread
import FusionMove.Proofs.Certificate.Checked
import FusionMove.Proofs.Certificate.Writes
import FusionMove.Proofs.Solver.Ready
import FusionMove.Proofs.Solver.Start
import FusionMove.Proofs.Solver.Restore
import FusionMove.Proofs.Solver.Load
import FusionMove.Proofs.Solver.Move
import FusionMove.Proofs.Solver.Measure
import FusionMove.Proofs.Solver.Reached
import FusionMove.Proofs.Solver.Setup
import FusionMove.Proofs.Solver.Heights
import FusionMove.Proofs.Solver.Descent
import FusionMove.Proofs.Solver.Optimal
import FusionMove.Proofs.Solver.Box
import FusionMove.Proofs.Solver.Conforming
import FusionMove.Proofs.Solver.Termination
import FusionMove.Proofs.Solver.Budget
import FusionMove.Proofs.Solver.Pairwise
import FusionMove.Proofs.Solver.BoundValue
import FusionMove.Proofs.Solver.Settlement
import FusionMove.Proofs.Solver.Expansion
import FusionMove.Proofs.Solver.Potts
import FusionMove.Proofs.Solver.Twin
import FusionMove.Proofs.Solver.Stale
import FusionMove.Proofs.Solver.Resume
import FusionMove.Proofs.Solver.Refusal
import FusionMove.Proofs.Solver.Forget
import FusionMove.Proofs.Cut.Checked
import FusionMove.Proofs.Cut.Assembly
import FusionMove.Proofs.Solver.Checked
import FusionMove.Proofs.Solver.SnapshotBounds
import FusionMove.Proofs.Energy.Draft
import FusionMove.Proofs.Energy.History
import FusionMove.Solver.Session
import FusionMove.Proofs.Solver.Safety
import FusionMove.Proofs.Solver.Acceptance
