import FusionMove.Certificate.Checked
import FusionMove.Cut.Checked
import FusionMove.Solver.Bound
import FusionMove.Solver.Iterate
import FusionMove.Solver.Snapshot

namespace FusionMove

/-!
# Operations, access by access

The operations of a solver over the oracle of augmenting paths, in their checked forms: every label,
dual, height, cost and table entry is asked for where it is used, and an operation stops with
`Fault.outOfRange` at the first one that is not there.  `Solver.Checked` has them under the names
that they have in `Solver`.  What asks for nothing, or refuses by itself what is missing, has no
checked form of its own: the setting up of the graph, the strategies, the changes of phase.

* `Checked.start`, `Checked.round`, `Checked.measure`, `Checked.restore` — the operations;
* `Checked.dual`, `Checked.height` — what a solver shows.
-/

open scoped CoreArithmetic

/-- The cost of a label at a variable, if it is stored. -/
def Model.cost? (m : Model) (v l : Nat) : Except Fault Int :=
  present (m.unary? v l)

namespace Solver.Checked

variable {τ : Type}

/-! ### Starting -/

/-- Build fresh tables for the model. -/
def allocate (m : Model) : Action (Solver Unit τ) Unit := do
  let heights ← Action.ofExcept (Heights.ofFn? m.numVars m.numLabels m.cost?)
  let places ← Action.ofExcept (placeTable? (m.cliques.map (·.nodes)) m.numVars)
  Action.modify fun s => { s with
    numLabels := m.numLabels
    labels := Array.replicate m.numVars 0
    proposed := Array.replicate m.numVars 0
    places := places
    certificate := ⟨Duals.ofSizes (m.cliques.map (·.size)) m.numLabels, heights⟩ }

/-- Check the model, set up the graph and build all tables. -/
def buildTables (m : Model) : Action (Solver Unit τ) Unit := do
  Action.require (m.numLabels ≠ 0) .noLabels
  checkModel m
  onGraph (Cut.fit m)
  allocate m

/-- The cheapest label of `v`, the lowest on ties. -/
def cheapest (m : Model) (v : Nat) : Except Fault Nat :=
  (List.range m.numLabels).foldlM (fun best l => do
    let cost ← m.cost? v l
    let least ← m.cost? v best
    return if cost < least then l else best) 0

/-- Label every variable with its cheapest label. -/
def chooseLabels (m : Model) : Action (Solver Unit τ) Unit := do
  let s ← Action.get
  let labels ← Action.ofExcept (arrayOf? s.labels.size (cheapest m))
  Action.modify fun s => { s with labels := labels }

/-- Split `amount` evenly over the members of a clique.  A member comes with its position. -/
def spreadEvenly (c : Nat) (clique : Clique) (amount : Int)
    (label? : Nat × Nat → Except Fault Nat) : Action (Solver Unit τ) Unit := do
  let s ← Action.get
  let shares ← Action.ofExcept (Shares.of? amount (.ofNat clique.size))
  let certificate ← Action.ofExcept
    (s.certificate.spread? c clique.nodes label? fun i => .ok (shares.part (.ofNat i)))
  Action.modify fun s => { s with certificate := certificate }

/-- Split the energy of a clique at the first labeling over its members. -/
def seed (c : Nat) (clique : Clique) : Action (Solver Unit τ) Unit := do
  let s ← Action.get
  let labels ← Action.ofExcept (clique.gather? s.labels)
  let energy := clique.energy labels
  checkEnergy c labels energy
  spreadEvenly c clique energy fun p => present s.labels[p.1]?

/-- Build tables, labeling and duals. -/
def start (m : Model) : Action (Solver Unit τ) Unit := do
  buildTables m
  chooseLabels m
  Action.forEach m.cliques.zipIdx fun p => seed p.2 p.1
  Action.modify fun s => { s with phase := .iterating }
  let s ← Action.get
  Action.record (.started s.labels.size s.certificate.dual.numCliques s.numLabels)

/-- Build what is missing in a solver without tables. -/
def ensureStarted (m : Model) : Action (Solver Unit τ) Unit := do
  let s ← Action.get
  if s.phase = .uninitialized then start m

/-! ### Iterating -/

/-- The residual table of a clique, written over the one in its factor. -/
def residualTable (c : Nat) (clique : Clique) (s : Solver Unit τ) : Except Fault (Array Int) := do
  let current ← clique.gather? s.labels
  let fused ← clique.gather? s.proposed
  let currentDuals ← s.certificate.dualsAt? c clique.size current
  let fusedDuals ← s.certificate.dualsAt? c clique.size fused
  let factor ← present s.graph.factors[c]?
  let filled ← Fusion.fill? clique.energy current fused factor.table
  let table ← Fusion.reduce? filled fusedDuals currentDuals
  -- the entry at the empty mask is looked at next
  let _ ← present table[0]?
  return table

/-- Write the residual table of a clique into its factor. -/
def loadTable (c : Nat) (clique : Clique) : Action (Solver Unit τ) Unit := do
  let s ← Action.get
  let table ← Action.ofExcept (residualTable c clique s)
  Action.modify fun s => s.withGraph (s.graph.setTable c table)
  checkResidual c clique table

/-- Write the residual tables of all cliques. -/
def loadTables (m : Model) : Action (Solver Unit τ) Unit := do
  Action.modify fixAgreeing
  Action.forEach m.cliques.zipIdx fun p => loadTable p.2 p.1

/-- By how much the height of `v` drops from its current label to its proposed one. -/
def drop (s : Solver Unit τ) (v : Nat) : Except Fault Int := do
  let current ← present s.labels[v]?
  let next ← present s.proposed[v]?
  let above ← s.certificate.heights.get? v current
  let below ← s.certificate.heights.get? v next
  return above - below

/-- Write the height differences into the nodes, one by one, and no constant. -/
def loadCosts : Action (Solver Unit τ) Unit := do
  let s ← Action.get
  let graph ← Action.ofExcept ((List.range s.labels.size).foldlM (fun g v => do
    let d ← drop s v
    if 0 < d then g.addCosts? v d 0 else g.addCosts? v 0 (-d))
    { s.graph.clearCosts with constant := 0 })
  Action.modify fun s => s.withGraph graph

/-- The label of `v` after a fusion, and whether it changes. -/
def outcome (chosen : Nat → Bool) (s : Solver Unit τ) (v : Nat) : Except Fault (Nat × Bool) := do
  let current ← present s.labels[v]?
  if chosen v then
    let next ← present s.proposed[v]?
    return (next, current ≠ next)
  else return (current, false)

/-- Add the potentials in the graph to the duals at the proposed labels. -/
def absorb (m : Model) (s : Solver Unit τ) : Except Fault Certificate :=
  m.cliques.zipIdx.foldlM (fun t p => do
    let factor ← present s.graph.factors[p.2]?
    t.spread? p.2 p.1.nodes (fun q => present s.proposed[q.1]?) fun i => present factor.potential[i]?)
    s.certificate

/-- Let the oracle choose and take its answer over; the result is how many labels changed. -/
def fuse (m : Model) : Action (Solver Unit τ) Nat := do
  loadCosts
  let answer ← onEngine Cut.checkedFlow.run
  let s ← Action.get
  Action.record (.fusionEnergy s.iteration answer.energy)
  let outcomes ← Action.ofExcept ((List.range s.labels.size).mapM (outcome answer.chosen s))
  Action.modify fun s => { s with labels := (outcomes.map (·.1)).toArray }
  let certificate ← Action.ofExcept (absorb m s)
  Action.modify fun s => { s with certificate := certificate }
  return outcomes.countP (·.2)

/-- Refuse a clique whose energy exceeds its duals at `labels`. -/
def checkFeasible (c : Nat) (labels : List Nat) (energy dualSum : Int) :
    Action (Solver Unit τ) Unit := do
  let s ← Action.get
  if dualSum < energy then
    let factor ← Action.ofExcept (present s.graph.factors[c]?)
    let table := factor.table.toList
    Action.record (.dualInfeasible c s.iteration energy dualSum (energy - dualSum) labels table)
    Action.fail (.dualInfeasible c energy dualSum (energy - dualSum) table)

/-- Make the duals of a clique tight at the current labels. -/
def repairClique (c : Nat) (clique : Clique) : Action (Solver Unit τ) Unit := do
  let s ← Action.get
  let labels ← Action.ofExcept (clique.gather? s.labels)
  let duals ← Action.ofExcept (s.certificate.dualsAt? c clique.size labels)
  let energy := clique.energy labels
  checkEnergy c labels energy
  checkFeasible c labels energy duals.sum
  spreadEvenly c clique (energy - duals.sum) fun p => present labels[p.2]?

/-- Make the duals of all cliques tight at the current labels. -/
def repair (m : Model) : Action (Solver Unit τ) Unit :=
  Action.forEach m.cliques.zipIdx fun p => repairClique p.2 p.1

/-- Fuse with a proposal that differs from the labeling; the result is how many labels changed. -/
def fusionMove (m : Model) : Action (Solver Unit τ) Nat := do
  loadTables m
  let switched ← fuse m
  repair m
  return switched

/-- Count and report a completed iteration. -/
def complete (m : Model) (switched : Nat) : Action (Solver Unit τ) Unit := do
  Action.modify (tally switched)
  let s ← Action.get
  if s.config.traceEnergy then
    let energy ← Action.ofExcept (m.evaluate s.labels)
    Action.record (.iterated s.iteration s.strategy.name switched (some energy))
  else
    Action.record (.iterated s.iteration s.strategy.name switched none)

/-- Fuse with the next proposal and count the iteration; the result is whether there was one. -/
def round (m : Model) : Action (Solver Unit τ) Bool := do
  propose
  let s ← Action.get
  if s.proposed = s.labels then return false
  else
    let switched ← fusionMove m
    complete m switched
    return true

/-- Iterate within a budget until the proposal is the labeling itself or `patience` iterations in a
    row changed nothing. -/
def rounds (m : Model) (patience : Nat) : Nat → Action (Solver Unit τ) Nat
  | 0 => return 0
  | budget + 1 => do
    let fused ← round m
    let s ← Action.get
    if ¬ fused then
      enter .converged
      return 0
    else if patience ≤ s.idle then
      enter .converged
      return 1
    else
      let more ← rounds m patience budget
      return more + 1

/-- Iterate a solver that has not converged. -/
def run (m : Model) (budget : Nat) : Action (Solver Unit τ) Report := do
  enter .iterating
  let s ← Action.get
  let done ← rounds m (s.strategy.patience s.numLabels) budget
  conclude
  let s ← Action.get
  return ⟨done, s.phase⟩

/-- Run at most `budget` iterations. -/
def iterate (m : Model) (budget : Nat) : Action (Solver Unit τ) Report := do
  ensureStarted m
  let s ← Action.get
  if s.phase = .converged then return ⟨0, .converged⟩ else run m budget

/-! ### Lower bounds -/

/-- Give a triple of energy zero the dual sum zero, given that it is `dualSum` now. -/
def settle (c : Nat) (clique : Clique) (triple : List Nat) (dualSum : Int) :
    Action (Solver Unit τ) Unit := do
  let s ← Action.get
  let current ← Action.ofExcept (clique.gather? s.labels)
  let first ← Action.ofExcept ((List.range 3).findM? fun i => do
    let label ← present triple[i]?
    let held ← present current[i]?
    return decide (label ≠ held))
  match first with
  | some i =>
    let v ← Action.ofExcept (present clique.nodes[i]?)
    let label ← Action.ofExcept (present triple[i]?)
    let certificate ← Action.ofExcept (s.certificate.shift? c i v label (-dualSum))
    Action.modify fun s => { s with certificate := certificate }
  | none =>
    if dualSum ≠ 0 then
      Action.record (.notTight c current dualSum)
      let block ← Action.ofExcept (s.certificate.dual.slice? c)
      Action.fail (.tightnessViolated c dualSum block.toList)

section

variable {α : Type} [IntCast α] [Div α] [LE α] [DecidableLE α]

/-- Visit one triple of a clique, given the largest ratio so far. -/
def visitTriple (c : Nat) (clique : Clique) (ratio : α) (triple : List Nat) :
    Action (Solver Unit τ) α := do
  let s ← Action.get
  let energy := clique.energy triple
  if energy < 0 then
    Action.fail (.negativeEnergy c energy)
  else
    let duals ← Action.ofExcept (s.certificate.dualsAt? c 3 triple)
    if energy = 0 then
      settle c clique triple duals.sum
      return ratio
    else
      let here := (duals.sum : α) / (energy : α)
      return if ratio ≤ here then here else ratio

/-- Visit all triples of a clique. -/
def visitClique (ratio : α) (p : Clique × Nat) : Action (Solver Unit τ) α := do
  let s ← Action.get
  (triples s.numLabels).foldlM (visitTriple p.2 p.1) ratio

/-- The lower bound in the arithmetic `α`; builds the tables if there are none. -/
def measure (m : Model) : Action (Solver Unit τ) (Bound α) := do
  checkTriples m
  ensureStarted m
  let ratio ← m.cliques.zipIdx.foldlM visitClique ((0 : Int) : α)
  let s ← Action.get
  let objective ← Action.ofExcept s.certificate.heights.objective?
  return ⟨objective, ratio⟩

end

/-- The lower bound in floating point. -/
def lowerBound (m : Model) : Action (Solver Unit τ) Float := do
  let b : Bound Float ← measure m
  if b.Unscaled then
    Action.record (.lowerBoundUnscaled b.objective)
  else
    Action.record (.lowerBound b.value b.objective b.ratio)
  return b.value

/-! ### Snapshots -/

/-- Whether every block of a snapshot has the size that its clique asks for. -/
def blocksFit (m : Model) (p : Snapshot) : Except Fault Bool :=
  p.dual.zipIdx.allM fun b => do
    let clique ← present m.cliques[b.2]?
    return decide (b.1.size = clique.size * m.numLabels)

/-- The first way in which a snapshot does not have the model's dimensions. -/
def shapeFault (m : Model) (p : Snapshot) : Except Fault (Option Fault) := do
  if p.version ≠ snapshotVersion then return some (.snapshotMismatch .version)
  else if p.phase = .uninitialized then return some (.snapshotMismatch .uninitialized)
  else if p.numLabels ≠ m.numLabels then return some (.snapshotMismatch .labelCount)
  else if p.labels.size ≠ m.numVars then return some (.snapshotMismatch .variableCount)
  else match p.labels.toList.find? (m.numLabels ≤ ·) with
  | some label => return some (.labelOutOfRange label m.numLabels)
  | none =>
    if p.dual.length ≠ m.numCliques then return some (.snapshotMismatch .cliqueCount)
    else
      let fits ← blocksFit m p
      if ¬ fits then return some (.snapshotMismatch .dualSize)
      else if p.heights.size ≠ m.numVars * m.numLabels then
        return some (.snapshotMismatch .heightSize)
      else return none

/-- Whether the duals of a snapshot sum to the energies at its labels. -/
def tight (m : Model) (p : Snapshot) : Except Fault Bool :=
  p.dual.zipIdx.allM fun b => do
    let clique ← present m.cliques[b.2]?
    let labels ← clique.gather? p.labels
    let duals ← labels.zipIdx.mapM fun l => present b.1[l.2 * m.numLabels + l.1]?
    return decide (duals.sum = clique.energy labels)

/-- Whether every height of a snapshot is what its duals give, at the places given. -/
def consistent (m : Model) (p : Snapshot) (places : Array (List (Nat × Nat))) :
    Except Fault Bool :=
  (List.range m.numVars).allM fun v => (List.range m.numLabels).allM fun l => do
    let cost ← m.cost? v l
    let here ← present places[v]?
    let duals ← here.mapM fun place => do
      let block ← present p.dual[place.1]?
      present block[place.2 * m.numLabels + l]?
    let height ← present p.heights[v * m.numLabels + l]?
    return decide (height = cost + duals.sum)

/-- The first way in which a snapshot of the model's dimensions is no valid certificate. -/
def contentFault (m : Model) (p : Snapshot) (places : Array (List (Nat × Nat))) :
    Except Fault (Option Fault) := do
  let isTight ← tight m p
  if ¬ isTight then return some (.snapshotMismatch .notTight)
  else
    let isConsistent ← consistent m p places
    if ¬ isConsistent then return some (.snapshotMismatch .heights) else return none

/-- Stop unless an array may be copied over another one. -/
def sameSize {α : Type} (old new : Array α) : Except Fault Unit :=
  if old.size = new.size then .ok () else .error .outOfRange

/-- Whether labels, duals block by block, and heights may be copied over those of a solver. -/
def copyable (p : Snapshot) (s : Solver Unit τ) : Except Fault Unit := do
  sameSize s.labels p.labels
  let _ ← p.dual.zipIdx.mapM fun b => do
    let block ← s.certificate.dual.slice? b.2
    sameSize block b.1
  sameSize s.certificate.heights.values p.heights

/-- Replace the state of a solver by a snapshot. -/
def restore (m : Model) (p : Snapshot) : Action (Solver Unit τ) Unit := do
  let shape ← Action.ofExcept (shapeFault m p)
  refuse shape
  let s ← Action.get
  if s.phase = .uninitialized then buildTables m
  let s ← Action.get
  let content ← Action.ofExcept (contentFault m p s.places)
  refuse content
  Action.ofExcept (copyable p s)
  Action.modify (load m p)
  Action.record (.restored p.iteration p.phase.name)

/-! ### Looking at a solver -/

/-- The dual of a member of a clique at a label. -/
def dual (m : Model) (s : Solver Unit τ) (c i l : Nat) : Except Fault (Option Int) := do
  if s.certificate.dual.numCliques ≤ c ∨ s.numLabels ≤ l then return none
  else
    let clique ← present m.cliques[c]?
    if clique.size ≤ i then return none
    else
      let value ← s.certificate.dual.get? c i l
      return some value

/-- The height of a variable at a label. -/
def height (s : Solver Unit τ) (v l : Nat) : Except Fault (Option Int) := do
  if s.certificate.heights.numVars ≤ v ∨ s.numLabels ≤ l then return none
  else
    let value ← s.certificate.heights.get? v l
    return some value

/-- The energy of the current labeling, once there is one. -/
def energy (m : Model) (s : Solver Unit τ) : Except Fault (Option Int) := do
  if s.phase = .uninitialized then return none
  else
    let value ← m.evaluate s.labels
    return some value

/-- The snapshot of a solver. -/
def capture (s : Solver Unit τ) : Except Fault Snapshot := do
  let blocks ← (List.range s.certificate.dual.numCliques).mapM s.certificate.dual.slice?
  return { Snapshot.capture s with dual := blocks }

end Solver.Checked

end FusionMove
