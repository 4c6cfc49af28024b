import FusionMove.Incidence
import FusionMove.Energy.Model
import FusionMove.Certificate.Basic

namespace FusionMove.Certificate

/-!
# Valid certificates

What a certificate promises about a model:

* `Tight` — at the labeling `x` the duals of every clique sum to the clique's energy;
* `Consistent` — every height is the unary cost plus the duals of the places of its variable.
-/

open scoped CoreArithmetic

/-- At `x`, the duals of every clique sum to its energy. -/
def Tight (m : Model) (t : Certificate) (x : Nat → Nat) : Prop :=
  ∀ p ∈ m.cliques.zipIdx, t.dualSum p.2 (p.1.labelsAt x) = p.1.energyAt x

instance (m : Model) (t : Certificate) (x : Nat → Nat) : Decidable (Tight m t x) :=
  inferInstanceAs (Decidable (∀ p ∈ m.cliques.zipIdx, _ = _))

/-- The places at which `v` is a member of a clique of the model. -/
def places (m : Model) (v : Nat) : List (Nat × Nat) :=
  incidence (m.cliques.map (·.nodes)) v

/-- The height that the duals give to `v` at `l`. -/
def heightFrom (m : Model) (dual : Duals) (v l : Nat) : Int :=
  m.unary v l + ((places m v).map fun p => dual.get p.1 p.2 l).sum

/-- Every height is what the duals give. -/
def Consistent (m : Model) (t : Certificate) : Prop :=
  ∀ v < m.numVars, ∀ l < m.numLabels, t.heights.get v l = heightFrom m t.dual v l

instance (m : Model) (t : Certificate) : Decidable (Consistent m t) :=
  inferInstanceAs (Decidable (∀ v < m.numVars, ∀ l < m.numLabels, _ = _))

/-- The certificate of a model before any dual is set: heights are unary costs. -/
def initial (m : Model) : Certificate where
  dual := Duals.ofSizes (m.cliques.map (·.size)) m.numLabels
  heights := Heights.ofFn m.numVars m.numLabels m.unary

end FusionMove.Certificate
