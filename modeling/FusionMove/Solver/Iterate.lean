import FusionMove.Fusion.Table
import FusionMove.Solver.Start

namespace FusionMove.Solver

/-!
# Iterating

An iteration fuses the current labeling `x` with a proposal `f`.

1. `loadTables` — every factor of the graph gets the residual table of its clique: the energies of
   the fusions less the duals at the labels taken.  At the empty mask it is zero, or the duals are
   not tight.
2. `loadCosts` — every node gets the height difference between its two labels as a cost, on the
   side that keeps costs non-negative.
3. `fuse` — the oracle chooses who takes the label of `f`; the potentials go into the duals there.
4. `repair` — every clique whose duals now exceed its energy gets the excess back, split evenly.
   A clique whose energy exceeds its duals is a fault.

`round` does this once, and `iterate` repeats it until the strategy gives up or a budget is used up.
-/

open scoped CoreArithmetic

variable {σ τ : Type}

/-! ### Loading the fusion problem -/

/-- Ask the strategy for the proposal of this iteration. -/
def propose : Action (Solver σ τ) Unit := do
  let s ← Action.get
  let answer ← Action.ofExcept
    (s.strategy.propose s.iteration s.certificate.heights s.labels s.proposed)
  Action.modify fun s => { s with proposed := answer.1, strategy := answer.2 }

/-- The duals of clique `c` at the given member labels, by member. -/
def dualsAt (t : Certificate) (c : Nat) (labels : List Nat) : List Int :=
  labels.zipIdx.map fun p => t.dual.get c p.2 p.1

/-- The residual table of a clique, written over `table`. -/
def residualTable (t : Certificate) (c : Nat) (clique : Clique) (x f : Nat → Nat)
    (table : Array Int) : Except Fault (Array Int) := do
  let current := clique.labelsAt x
  let fused := clique.labelsAt f
  let filled ← Fusion.tabulate? clique.energy current fused table
  Fusion.discount? filled (dualsAt t c fused) (dualsAt t c current)

/-- Refuse a residual table that is not zero at the empty mask. -/
def checkResidual (c : Nat) (clique : Clique) (table : Array Int) : Action (Solver σ τ) Unit := do
  let s ← Action.get
  let residual := table.getD 0 0
  if residual ≠ 0 then
    Action.record (.tightnessViolated c s.iteration residual (clique.labelsAt s.labeling)
      (clique.labelsAt s.proposal) table.toList)
    Action.fail (.tightnessViolated c residual table.toList)

/-- Write the residual table of a clique into its factor. -/
def loadTable (c : Nat) (clique : Clique) : Action (Solver σ τ) Unit := do
  let s ← Action.get
  let room := (s.graph.factors[c]?.map (·.table)).getD #[]
  let table ← Action.ofExcept
    (residualTable s.certificate c clique s.labeling s.proposal room)
  -- the table stays written when the check fails
  Action.modify fun s => s.withGraph (s.graph.setTable c table)
  checkResidual c clique table

/-- Fix the nodes whose two labels are the same. -/
def fixAgreeing (s : Solver σ τ) : Solver σ τ :=
  s.withGraph { s.graph with
    fixed := Array.ofFn fun v : Fin s.labels.size => s.labeling v = s.proposal v }

/-- Write the residual tables of all cliques. -/
def loadTables (m : Model) : Action (Solver σ τ) Unit := do
  Action.modify fixAgreeing
  Action.forEach m.cliques.zipIdx fun p => loadTable p.2 p.1

/-- By how much the height of `v` drops from its current label to its proposed one. -/
def drop (s : Solver σ τ) (v : Nat) : Int :=
  s.certificate.heights.get v (s.labeling v) - s.certificate.heights.get v (s.proposal v)

/-- Write the height differences into the nodes, and no constant. -/
def loadCosts (s : Solver σ τ) : Solver σ τ :=
  s.withGraph { s.graph with
    nodes := Array.ofFn fun v : Fin s.graph.numNodes =>
      ⟨max (s.drop v) 0, max (-s.drop v) 0, s.graph.chosen v⟩
    constant := 0 }

/-! ### Taking the answer over -/

/-- How many labels change when the chosen variables take their proposed label. -/
def switches (s : Solver σ τ) (chosen : Nat → Bool) : Nat :=
  (List.range s.labels.size).countP fun v => chosen v && s.labeling v ≠ s.proposal v

/-- The chosen variables take their proposed label. -/
def switch (chosen : Nat → Bool) (s : Solver σ τ) : Solver σ τ :=
  { s with
    labels := Array.ofFn fun v : Fin s.labels.size =>
      if chosen v then s.proposal v else s.labeling v }

/-- Add the potentials to the duals at the proposed labels. -/
def absorb (m : Model) (potential : Nat → Nat → Int) (s : Solver σ τ) : Solver σ τ :=
  { s with
    certificate := m.cliques.zipIdx.foldl
      (fun t p => t.spread p.2 p.1.nodes s.proposal (potential p.2)) s.certificate }

/-- Let the oracle choose and take its answer over; the result is how many labels changed. -/
def fuse (m : Model) (o : Cut.Oracle σ) : Action (Solver σ τ) Nat := do
  Action.modify loadCosts
  let answer ← onEngine o.run
  let s ← Action.get
  Action.record (.fusionEnergy s.iteration answer.energy)
  Action.modify (switch answer.chosen)
  Action.modify (absorb m answer.potential)
  return s.switches answer.chosen

/-! ### Repairing the duals -/

/-- Refuse a clique whose energy exceeds its duals at the current labels. -/
def checkFeasible (c : Nat) (clique : Clique) (energy dualSum : Int) :
    Action (Solver σ τ) Unit := do
  let s ← Action.get
  if dualSum < energy then
    let table := ((s.graph.factors[c]?.map (·.table)).getD #[]).toList
    Action.record (.dualInfeasible c s.iteration energy dualSum (energy - dualSum)
      (clique.labelsAt s.labeling) table)
    Action.fail (.dualInfeasible c energy dualSum (energy - dualSum) table)

/-- Make the duals of a clique tight at the current labels. -/
def repairClique (c : Nat) (clique : Clique) : Action (Solver σ τ) Unit := do
  let s ← Action.get
  let labels := clique.labelsAt s.labeling
  let dualSum := s.certificate.dualSum c labels
  let energy := clique.energyAt s.labeling
  checkEnergy c labels energy
  checkFeasible c clique energy dualSum
  Action.modify (spreadEvenly c clique (energy - dualSum))

/-- Make the duals of all cliques tight at the current labels. -/
def repair (m : Model) : Action (Solver σ τ) Unit :=
  Action.forEach m.cliques.zipIdx fun p => repairClique p.2 p.1

/-! ### The outer loop -/

/-- Fuse with a proposal that differs from the labeling; the result is how many labels changed. -/
def fusionMove (m : Model) (o : Cut.Oracle σ) : Action (Solver σ τ) Nat := do
  loadTables m
  let switched ← fuse m o
  repair m
  return switched

/-- Count a completed iteration in which `switched` labels changed. -/
def tally (switched : Nat) (s : Solver σ τ) : Solver σ τ :=
  { s with
    iteration := s.iteration + 1
    idle := if switched = 0 then s.idle + 1 else 0 }

/-- Count and report a completed iteration. -/
def complete (m : Model) (switched : Nat) : Action (Solver σ τ) Unit := do
  Action.modify (tally switched)
  let s ← Action.get
  let energy := if s.config.traceEnergy then some (m.energy s.labeling) else none
  Action.record (.iterated s.iteration s.strategy.name switched energy)

/-- Enter a phase. -/
def enter (phase : Phase) : Action (Solver σ τ) Unit :=
  Action.modify fun s => { s with phase := phase }

/-- Fuse with the next proposal and count the iteration; the result is whether there was one.  A
    proposal that is the labeling itself is nothing to fuse with and does not count. -/
def round (m : Model) (o : Cut.Oracle σ) : Action (Solver σ τ) Bool := do
  propose
  let s ← Action.get
  if s.proposed = s.labels then return false
  else
    let switched ← fusionMove m o
    complete m switched
    return true

/-- Iterate within a budget until the proposal is the labeling itself or `patience` iterations in a
    row changed nothing; the result is how many iterations were completed. -/
def rounds (m : Model) (o : Cut.Oracle σ) (patience : Nat) : Nat → Action (Solver σ τ) Nat
  | 0 => return 0
  | budget + 1 => do
    let fused ← round m o
    let s ← Action.get
    if ¬ fused then
      enter .converged
      return 0
    else if patience ≤ s.idle then
      enter .converged
      return 1
    else
      let more ← rounds m o patience budget
      return more + 1

/-- What a run of iterations reports. -/
structure Report where
  iterations : Nat
  phase : Phase
  deriving DecidableEq, Repr

/-- Enter the phase in which a run ends, and report it. -/
def conclude : Action (Solver σ τ) Unit := do
  let s ← Action.get
  if s.phase = .converged then
    Action.record (.converged s.iteration)
  else
    enter .exhausted
    Action.record (.exhausted s.iteration)

/-- Iterate a solver that has not converged. -/
def run (m : Model) (o : Cut.Oracle σ) (budget : Nat) : Action (Solver σ τ) Report := do
  enter .iterating
  let s ← Action.get
  let done ← rounds m o (s.strategy.patience s.numLabels) budget
  conclude
  let s ← Action.get
  return ⟨done, s.phase⟩

/-- Run at most `budget` iterations.  A solver that has converged does nothing. -/
def iterate (m : Model) (o : Cut.Oracle σ) (budget : Nat) : Action (Solver σ τ) Report := do
  ensureStarted m
  let s ← Action.get
  if s.phase = .converged then return ⟨0, .converged⟩ else run m o budget

/-- The largest budget: what a counter of 64 bits holds. -/
def maxBudget : Nat := 2 ^ (64 : Nat) - 1

/-- Iterate until convergence. -/
def solve (m : Model) (o : Cut.Oracle σ) : Action (Solver σ τ) Report :=
  iterate m o maxBudget

end FusionMove.Solver
