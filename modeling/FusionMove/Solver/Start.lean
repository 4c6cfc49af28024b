import FusionMove.Certificate.Shares
import FusionMove.Solver.Basic

namespace FusionMove

/-!
# Starting a solver

* `Cut.fit` — a graph with one node a variable and one zero table a clique; a graph that already
  has factors is kept if its counts fit the model;
* `Solver.buildTables` — check the model, set up the graph, build all tables;
* `Solver.start` — build the tables, label every variable with its cheapest label, and split the
  energy of every clique evenly over its members.
-/

open scoped CoreArithmetic

/-! ### The graph of a model -/

namespace Cut

/-- Add a factor of zeros over the given members. -/
def addBlankFactor (members : List Nat) : Action Graph Unit := do
  let g ← Action.get
  let added ← Action.ofExcept (g.addFactor members (Array.replicate (2 ^ members.length) 0))
  Action.modify fun _ => added.2

/-- Give a graph without factors the nodes and factors of the model. -/
def grow (m : Model) : Action Graph Unit := do
  Action.modify fun g => if g.numNodes = 0 then (g.addNodes m.numVars).2 else g
  Action.forEach m.cliques fun c => addBlankFactor c.nodes

/-- Refuse a graph with other counts than the model. -/
def checkCounts (m : Model) (g : Graph) : Action Graph Unit :=
  if g.factors.length = m.numCliques ∧ g.numNodes = m.numVars then return ()
  else do
    Action.record (.graphMismatch g.numNodes g.factors.length m.numVars m.numCliques)
    Action.fail (.graphMismatch m.numCliques g.factors.length)

/-- Make the graph one for the model. -/
def fit (m : Model) : Action Graph Unit := do
  let g ← Action.get
  if g.factors.isEmpty then grow m
  let g ← Action.get
  checkCounts m g

end Cut

namespace Solver

variable {σ τ : Type}

/-! ### Tables -/

/-- Refuse a model with a clique that breaks the limits. -/
def checkModel (m : Model) : Action (Solver σ τ) Unit :=
  match m.fault? with
  | none => return ()
  | some fault => do
    Action.record (.modelRejected fault)
    Action.fail fault

/-- The solver with fresh tables for the model. -/
def allocate (m : Model) (s : Solver σ τ) : Solver σ τ :=
  { s with
    numLabels := m.numLabels
    labels := Array.replicate m.numVars 0
    proposed := Array.replicate m.numVars 0
    places := Array.ofFn fun v : Fin m.numVars => Certificate.places m v
    certificate := Certificate.initial m }

/-- Check the model, set up the graph and build all tables. -/
def buildTables (m : Model) : Action (Solver σ τ) Unit := do
  Action.require (m.numLabels ≠ 0) .noLabels
  checkModel m
  onGraph (Cut.fit m)
  -- from here on every unary cost that is read is stored
  Action.require m.complete .outOfRange
  Action.modify (allocate m)

/-! ### The first labeling and its duals -/

/-- The cheapest label of `v`, the lowest on ties. -/
def cheapest (m : Model) (v : Nat) : Nat :=
  (List.range m.numLabels).foldl (fun best l => if m.unary v l < m.unary v best then l else best) 0

/-- Label every variable with its cheapest label. -/
def chooseLabels (m : Model) (s : Solver σ τ) : Solver σ τ :=
  { s with labels := Array.ofFn fun v : Fin s.labels.size => cheapest m v }

/-- Refuse a clique energy below zero. -/
def checkEnergy (c : Nat) (labels : List Nat) (energy : Int) : Action (Solver σ τ) Unit :=
  if energy < 0 then do
    Action.record (.negativeEnergy c energy labels)
    Action.fail (.negativeEnergy c energy)
  else return ()

/-- Split `amount` evenly over the members of a clique, each at its current label. -/
def spreadEvenly (c : Nat) (clique : Clique) (amount : Int) (s : Solver σ τ) : Solver σ τ :=
  let share := Shares.share amount (.ofNat clique.size)
  { s with certificate := s.certificate.spread c clique.nodes s.labeling share }

/-- Split the energy of a clique at the first labeling over its members. -/
def seed (c : Nat) (clique : Clique) : Action (Solver σ τ) Unit := do
  let s ← Action.get
  let energy := clique.energyAt s.labeling
  checkEnergy c (clique.labelsAt s.labeling) energy
  Action.modify (spreadEvenly c clique energy)

/-- Build tables, labeling and duals. -/
def start (m : Model) : Action (Solver σ τ) Unit := do
  buildTables m
  Action.modify (chooseLabels m)
  Action.forEach m.cliques.zipIdx fun p => seed p.2 p.1
  Action.modify fun s => { s with phase := .iterating }
  let s ← Action.get
  Action.record (.started s.labels.size s.certificate.dual.numCliques s.numLabels)

/-- Build what is missing in a solver without tables. -/
def ensureStarted (m : Model) : Action (Solver σ τ) Unit := do
  let s ← Action.get
  if s.phase = .uninitialized then start m

end Solver

end FusionMove
