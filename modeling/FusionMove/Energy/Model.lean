import FusionMove.Fault
import FusionMove.Energy.Clique

namespace FusionMove

/-!
# Energy models

An energy model has variables, labels, unary costs and cliques, and gives every labeling `x` the
energy

    E(x) = Σ_v unary(v, x_v) + Σ_C f_C(x_C).

A model may store fewer unary costs than it has variables and labels: `Model.unary?` tells whether
a cost is there, `Model.unary` reads a missing one as zero, and `Model.complete` says that none is
missing.  `Model.evaluate` is the energy of a list of labels, with a fault where something it
needs is not there.

Costs and energies are unbounded whole numbers, and so is what is made of them: duals, heights,
capacities and flows.  That machine arithmetic overflows when one of them does not fit a signed word
of 64 bits is set aside.
-/

open scoped CoreArithmetic

/-- A function of labelings to be minimised. -/
structure Model where
  numVars : Nat
  numLabels : Nat
  /-- The stored cost of a label at a variable. -/
  unary? : Nat → Nat → Option Int
  cliques : List Clique

namespace Model

/-- The cost of `label` at `var`. -/
def unary (m : Model) (var label : Nat) : Int :=
  (m.unary? var label).getD 0

/-- Number of cliques. -/
def numCliques (m : Model) : Nat :=
  m.cliques.length

/-- Every variable has a cost for every label. -/
def complete (m : Model) : Bool :=
  (List.range m.numVars).all fun v => (List.range m.numLabels).all fun l => (m.unary? v l).isSome

/-- A model whose unary costs are given row by row, one row a variable. -/
def ofRows (numLabels : Nat) (rows : Array (Array Int)) (cliques : List Clique) : Model where
  numVars := rows.size
  numLabels := numLabels
  unary? v l := rows[v]?.bind (·[l]?)
  cliques := cliques

/-! ### Energies -/

/-- The total energy of the labeling `x`. -/
def energy (m : Model) (x : Nat → Nat) : Int :=
  sumTo m.numVars (fun v => m.unary v (x v)) + (m.cliques.map (·.energyAt x)).sum

/-- The labels of the variables decide the energy, if every member is a variable. -/
theorem energy_congr {m : Model} {x y : Nat → Nat}
    (hm : ∀ c ∈ m.cliques, ∀ v ∈ c.nodes, v < m.numVars) (h : ∀ v < m.numVars, x v = y v) :
    m.energy x = m.energy y := by
  have hu : sumTo m.numVars (fun v => m.unary v (x v)) = sumTo m.numVars fun v => m.unary v (y v) :=
    sumTo_congr fun v hv => by rw [h v hv]
  have hc : m.cliques.map (·.energyAt x) = m.cliques.map (·.energyAt y) :=
    List.map_congr_left fun c hc =>
      Clique.energyAt_congr fun v hv => h v (hm c hc v hv)
  rw [energy, energy, hu, hc]

/-- Every label of the list has a stored cost, and every member has a label in the list. -/
def readable (m : Model) (labels : Array Nat) : Bool :=
  (List.range labels.size).all (fun v => (m.unary? v (labels.getD v 0)).isSome) &&
    m.cliques.all fun c => (c.nodes.take cliqueSizeLimit).all (· < labels.size)

/-- The energy of a list of labels: the unary costs of the labels given, and every clique. -/
def evaluate (m : Model) (labels : Array Nat) : Except Fault Int :=
  if m.readable labels then
    .ok (sumTo labels.size (fun v => m.unary v (labels.getD v 0)) +
      (m.cliques.map (·.energyAt (labels.getD · 0))).sum)
  else .error .outOfRange

/-- A list with one label a variable has the energy of the labeling that reads it. -/
theorem evaluate_eq_energy {m : Model} {labels : Array Nat} (hs : labels.size = m.numVars)
    (h : m.readable labels) : m.evaluate labels = .ok (m.energy (labels.getD · 0)) := by
  simp [evaluate, h, energy, hs]

/-! ### Structural checks -/

/-- The first fault among the member lists of the cliques. -/
def fault? (m : Model) : Option Fault :=
  m.cliques.zipIdx.findSome? fun p => memberFault? p.2 p.1.nodes m.numVars

/-- Every clique has one to `cliqueSizeLimit` members, all of them variables. -/
def WellFormed (m : Model) : Prop :=
  ∀ c ∈ m.cliques, 0 < c.size ∧ c.size ≤ cliqueSizeLimit ∧ ∀ v ∈ c.nodes, v < m.numVars

/-- A model has no fault iff it is well formed. -/
theorem fault?_eq_none_iff {m : Model} : m.fault? = none ↔ m.WellFormed := by
  simp only [fault?, List.findSome?_eq_none_iff, memberFault?_eq_none_iff, WellFormed, Clique.size]
  constructor
  · intro h c hc
    obtain ⟨i, hi, rfl⟩ := List.mem_iff_getElem.mp hc
    exact h (m.cliques[i], i) (List.mem_zipIdx_iff_getElem?.mpr (List.getElem?_eq_getElem hi))
  · intro h p hp
    exact h p.1 (List.fst_mem_of_mem_zipIdx hp)

end Model

end FusionMove
