import FusionMove.Solver.Start

namespace FusionMove

/-!
# Snapshots

A snapshot is what a solver needs to resume over the same model: the labeling, the duals block by
block, the heights and the counters.  It holds neither the model nor the graph nor the strategy.

* `Snapshot.capture` — the snapshot of a solver;
* `Snapshot.shapeFault?` — what does not fit the model's dimensions;
* `Snapshot.contentFault?` — whether the duals are tight and the heights consistent;
* `Solver.restore` — put a snapshot that passes both into effect.
-/

/-- The format that snapshots are written in. -/
def snapshotVersion : Nat := 1

/-- The portable state of a solver. -/
structure Snapshot where
  version : Nat
  iteration : Nat
  idle : Nat
  phase : Phase
  numLabels : Nat
  labels : Array Nat
  /-- The values of every clique, row by row with one row a member. -/
  dual : List (Array Int)
  /-- Row by row with one row a variable. -/
  heights : Array Int
  deriving DecidableEq, Repr

namespace Snapshot

/-- The snapshot of a solver. -/
def capture {σ τ : Type} (s : Solver σ τ) : Snapshot where
  version := snapshotVersion
  iteration := s.iteration
  idle := s.idle
  phase := s.phase
  numLabels := s.numLabels
  labels := s.labels
  dual := s.certificate.dual.blocks
  heights := s.certificate.heights.values

/-- Number of variables. -/
def numVars (p : Snapshot) : Nat :=
  p.labels.size

/-- The labeling that a snapshot holds. -/
def labeling (p : Snapshot) (v : Nat) : Nat :=
  p.labels.getD v 0

/-- The certificate that a snapshot of the model's dimensions holds. -/
def certificate (m : Model) (p : Snapshot) : Certificate where
  dual := { Duals.ofSizes (m.cliques.map (·.size)) m.numLabels with
    values := (p.dual.map (·.toList)).flatten.toArray }
  heights := ⟨p.heights, m.numLabels⟩

/-- The first way in which a snapshot does not have the model's dimensions. -/
def shapeFault? (m : Model) (p : Snapshot) : Option Fault :=
  if p.version ≠ snapshotVersion then some (.snapshotMismatch .version)
  else if p.phase = .uninitialized then some (.snapshotMismatch .uninitialized)
  else if p.numLabels ≠ m.numLabels then some (.snapshotMismatch .labelCount)
  else if p.labels.size ≠ m.numVars then some (.snapshotMismatch .variableCount)
  else match p.labels.toList.find? (m.numLabels ≤ ·) with
  | some label => some (.labelOutOfRange label m.numLabels)
  | none =>
    if p.dual.length ≠ m.numCliques then some (.snapshotMismatch .cliqueCount)
    else if p.dual.map (·.size) ≠ m.cliques.map (·.size * m.numLabels) then
      some (.snapshotMismatch .dualSize)
    else if p.heights.size ≠ m.numVars * m.numLabels then some (.snapshotMismatch .heightSize)
    else none

/-- The first way in which a snapshot of the model's dimensions is no valid certificate. -/
def contentFault? (m : Model) (p : Snapshot) : Option Fault :=
  if ¬ (p.certificate m).Tight m p.labeling then some (.snapshotMismatch .notTight)
  else if ¬ (p.certificate m).Consistent m then some (.snapshotMismatch .heights)
  else none

end Snapshot

namespace Solver

variable {σ τ : Type}

/-- Stop if there is a fault. -/
def refuse (fault? : Option Fault) : Action (Solver σ τ) Unit :=
  match fault? with
  | none => return ()
  | some fault => Action.fail fault

/-- The solver with the content of a snapshot. -/
def load (m : Model) (p : Snapshot) (s : Solver σ τ) : Solver σ τ :=
  { s with
    labels := p.labels
    certificate := p.certificate m
    iteration := p.iteration
    idle := p.idle
    phase := p.phase }

/-- Replace the state of a solver by a snapshot. -/
def restore (m : Model) (p : Snapshot) : Action (Solver σ τ) Unit := do
  refuse (p.shapeFault? m)
  let s ← Action.get
  -- the tables stay when the content is refused; the phase does not change
  if s.phase = .uninitialized then buildTables m
  refuse (p.contentFault? m)
  Action.modify (load m p)
  Action.record (.restored p.iteration p.phase.name)

end Solver

end FusionMove
