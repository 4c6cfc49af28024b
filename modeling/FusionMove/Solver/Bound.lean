import FusionMove.Solver.Start

namespace FusionMove

/-!
# Lower bounds

For a model whose cliques all have three members, the duals bound the energy from below.  Every
label triple of every clique is visited in order.

* A triple of energy zero gets the dual sum zero: the excess goes onto the first member whose label
  differs from its current one.  At the current labels there is no such member, and the sum has to
  be zero already.
* Over the other triples the largest ratio of dual sum to energy is kept.

The bound is the dual objective divided by that ratio, or the objective itself if no ratio is
positive.  `Bound` is kept apart from the arithmetic that divides: `Solver.measure` works in any
type with integers, division and order, `Solver.lowerBound` in floating point.
-/

/-- What a lower bound is made of. -/
structure Bound (α : Type) where
  objective : Int
  ratio : α

/-- An integer as the nearest double. -/
instance instIntCastFloat : IntCast Float :=
  ⟨Float.ofInt⟩

section

variable {α : Type} [IntCast α] [Div α] [LE α] [DecidableLE α]

/-- No ratio was positive. -/
def Bound.Unscaled (b : Bound α) : Prop :=
  b.ratio ≤ ((0 : Int) : α)

instance (b : Bound α) : Decidable b.Unscaled :=
  inferInstanceAs (Decidable (_ ≤ _))

/-- The bound itself. -/
def Bound.value (b : Bound α) : α :=
  if b.Unscaled then (b.objective : α) else (b.objective : α) / b.ratio

end

/-- The label triples in lexicographic order. -/
def triples (numLabels : Nat) : List (List Nat) :=
  (List.range numLabels).flatMap fun a =>
    (List.range numLabels).flatMap fun b => (List.range numLabels).map fun d => [a, b, d]

/-- The first position at which two lists differ. -/
def firstDifference (xs ys : List Nat) : Option Nat :=
  (List.range xs.length).find? fun i => xs.getD i 0 ≠ ys.getD i 0

namespace Solver

variable {σ τ : Type}

/-- Refuse a model with a clique that has not exactly three members. -/
def checkTriples (m : Model) : Action (Solver σ τ) Unit :=
  match m.cliques.zipIdx.find? fun p => p.1.size ≠ 3 with
  | none => return ()
  | some p => Action.fail (.notTriple p.2 p.1.size)

/-- Give a triple of energy zero the dual sum zero, given that it is `dualSum` now. -/
def settle (c : Nat) (clique : Clique) (triple : List Nat) (dualSum : Int) :
    Action (Solver σ τ) Unit := do
  let s ← Action.get
  let current := clique.labelsAt s.labeling
  match firstDifference triple current with
  | some i =>
    Action.modify fun s => { s with
      certificate :=
        s.certificate.shift c i (clique.nodes.getD i 0) (triple.getD i 0) (-dualSum) }
  | none =>
    if dualSum ≠ 0 then
      Action.record (.notTight c current dualSum)
      Action.fail (.tightnessViolated c dualSum (s.certificate.dual.block c).toList)

section

variable {α : Type} [IntCast α] [Div α] [LE α] [DecidableLE α]

/-- Visit one triple of a clique, given the largest ratio so far. -/
def visitTriple (c : Nat) (clique : Clique) (ratio : α) (triple : List Nat) :
    Action (Solver σ τ) α := do
  let s ← Action.get
  let energy := clique.energy triple
  let dualSum := s.certificate.dualSum c triple
  -- unlike elsewhere, a negative energy is not reported as an event
  if energy < 0 then
    Action.fail (.negativeEnergy c energy)
  else if energy = 0 then
    settle c clique triple dualSum
    return ratio
  else
    let here := (dualSum : α) / (energy : α)
    return if ratio ≤ here then here else ratio

/-- Visit all triples of a clique. -/
def visitClique (ratio : α) (p : Clique × Nat) : Action (Solver σ τ) α := do
  let s ← Action.get
  (triples s.numLabels).foldlM (visitTriple p.2 p.1) ratio

/-- The lower bound in the arithmetic `α`; builds the tables if there are none. -/
def measure (m : Model) : Action (Solver σ τ) (Bound α) := do
  checkTriples m
  ensureStarted m
  let ratio ← m.cliques.zipIdx.foldlM visitClique ((0 : Int) : α)
  let s ← Action.get
  return ⟨s.certificate.heights.objective, ratio⟩

end

/-- The lower bound in floating point. -/
def lowerBound (m : Model) : Action (Solver σ τ) Float := do
  let b : Bound Float ← measure m
  if b.Unscaled then
    Action.record (.lowerBoundUnscaled b.objective)
  else
    Action.record (.lowerBound b.value b.objective b.ratio)
  return b.value

end Solver

end FusionMove
