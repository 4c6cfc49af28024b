import FusionMove.Proposal.Strategy
import FusionMove.Certificate.Validity
import FusionMove.Cut.Oracle

namespace FusionMove

/-!
# Solvers

A `Solver` minimises an energy model by fusion moves.  It holds a labeling, a certificate of duals
and heights for it, the graph in which each fusion is solved, and the strategy that proposes what
to fuse with.  The model and the oracle are parameters of the operations, not part of the state.

A solver starts without tables (`Phase.uninitialized`).  The first operation that needs them builds
them; from then on it is iterating, has converged, or has run out of its budget.

The counters of iterations and of idle iterations are unbounded.  As with energies, that a counter of
64 bits overflows at `2^64` is set aside; only a budget has a largest value, `Solver.maxBudget`.
-/

/-- Where a solver is in its life. -/
inductive Phase where
  | uninitialized
  | iterating
  /-- The strategy cannot improve the labeling. -/
  | converged
  /-- The budget ran out; more iterations may follow. -/
  | exhausted
  deriving DecidableEq, Repr

/-- The written form of a phase. -/
def Phase.name : Phase → String
  | .uninitialized => "Uninitialized"
  | .iterating => "Iterating"
  | .converged => "Converged"
  | .exhausted => "Exhausted"

/-- The phase that is written `name`. -/
def Phase.ofName? (name : String) : Option Phase :=
  [Phase.uninitialized, .iterating, .converged, .exhausted].find? fun p => p.name = name

/-- What a solver is made with. -/
structure Config where
  proposal : Expansion
  /-- Report the total energy after every iteration. -/
  traceEnergy : Bool
  deriving DecidableEq, Repr

/-- Propose the largest height drop, and do not trace the energy. -/
def Config.standard : Config :=
  ⟨.steepest, false⟩

/-- A run of the optimiser over an oracle with memory `σ` and callbacks with memory `τ`. -/
structure Solver (σ τ : Type) where
  engine : Cut.Engine σ
  numLabels : Nat
  labels : Array Nat
  /-- The proposal of the last iteration. -/
  proposed : Array Nat
  /-- The places of every variable in the cliques. -/
  places : Array (List (Nat × Nat))
  certificate : Certificate
  /-- Completed iterations. -/
  iteration : Nat
  /-- Completed iterations since a label last changed or the strategy was set. -/
  idle : Nat
  phase : Phase
  strategy : Strategy τ
  config : Config

namespace Solver

variable {σ τ : Type}

/-- A solver without tables, on the given graph. -/
def new (engine : Cut.Engine σ) (config : Config) : Solver σ τ where
  engine := engine
  numLabels := 0
  labels := #[]
  proposed := #[]
  places := #[]
  certificate := Certificate.empty
  iteration := 0
  idle := 0
  phase := .uninitialized
  strategy := config.proposal.toStrategy
  config := config

/-- The current labeling. -/
def labeling (s : Solver σ τ) (v : Nat) : Nat :=
  s.labels.getD v 0

/-- The proposed labeling. -/
def proposal (s : Solver σ τ) (v : Nat) : Nat :=
  s.proposed.getD v 0

/-- The graph that fusions are solved in. -/
def graph (s : Solver σ τ) : Cut.Graph :=
  s.engine.graph

/-- The solver with another graph. -/
def withGraph (s : Solver σ τ) (g : Cut.Graph) : Solver σ τ :=
  { s with engine := { s.engine with graph := g } }

/-- Run an action on the graph. -/
def onGraph {α : Type} (x : Action Cut.Graph α) : Action (Solver σ τ) α :=
  Action.zoom graph (fun g s => s.withGraph g) x

/-- Run an action on the graph together with the oracle's memory. -/
def onEngine {α : Type} (x : Action (Cut.Engine σ) α) : Action (Solver σ τ) α :=
  Action.zoom engine (fun e s => { s with engine := e }) x

/-! ### Looking at a solver -/

/-- The label of a variable, once there is a labeling. -/
def label? (s : Solver σ τ) (v : Nat) : Option Nat :=
  if s.phase = .uninitialized then none else s.labels[v]?

/-- The dual of a member of a clique at a label. -/
def dual? (m : Model) (s : Solver σ τ) (c i l : Nat) : Option Int :=
  if s.certificate.dual.numCliques ≤ c ∨ s.numLabels ≤ l then none
  else if ((m.cliques[c]?.map (·.size)).getD 0) ≤ i then none
  else some (s.certificate.dual.get c i l)

/-- The height of a variable at a label. -/
def height? (s : Solver σ τ) (v l : Nat) : Option Int :=
  if s.certificate.heights.numVars ≤ v ∨ s.numLabels ≤ l then none
  else some (s.certificate.heights.get v l)

/-- The cliques that hold a variable, with its position in each. -/
def adjacent (s : Solver σ τ) (v : Nat) : List (Nat × Nat) :=
  s.places.getD v []

/-- The energy of the current labeling, once there is one. -/
def currentEnergy? (m : Model) (s : Solver σ τ) : Option Int :=
  if s.phase = .uninitialized then none else some (m.energy s.labeling)

/-! ### Changing the strategy -/

/-- Let another strategy propose.  The count of idle iterations starts anew, and a converged solver
    may iterate again. -/
def setStrategy (strategy : Strategy τ) : Action (Solver σ τ) Unit := do
  let s ← Action.get
  Action.record (.strategyChanged s.strategy.name strategy.name)
  Action.modify fun s => { s with
    strategy := strategy
    idle := 0
    phase := if s.phase = .converged then .exhausted else s.phase }

end Solver

end FusionMove
