import FusionMove.Text.Listing

namespace FusionMove

open Text

/-!
# Faults — why an operation stops

A `Fault` is a cause with the numbers that explain it; `Fault.message` is its wording.

* The *precondition* faults come from malformed input: models, graphs and snapshots that do not
  fit, negative clique energies.
* `tightnessViolated` and `dualInfeasible` say that the dual certificate broke, and carry the
  table of the clique where it did.
* `outOfRange` and `divisionByZero` are the two faults of arithmetic on tables: an index past
  the end of its table, and a division into no parts.
-/

/-- Why a snapshot does not fit an energy model. -/
inductive Mismatch where
  | version
  | uninitialized
  | labelCount
  | variableCount
  | cliqueCount
  | dualSize
  | heightSize
  | notTight
  | heights
  deriving DecidableEq, Repr

/-- The wording of a mismatch. -/
def Mismatch.message : Mismatch → String
  | .version => "unsupported snapshot version"
  | .uninitialized => "snapshot of an uninitialised solver"
  | .labelCount => "label count differs"
  | .variableCount => "variable count differs"
  | .cliqueCount => "clique count differs"
  | .dualSize => "clique dual table size differs"
  | .heightSize => "height table size differs"
  | .notTight => "dual is not tight at the snapshot labeling"
  | .heights => "heights disagree with the dual"

/-- The cause that stopped an operation. -/
inductive Fault where
  /-- A clique with more members than `limit`. -/
  | cliqueTooLarge (clique size limit : Nat)
  /-- A clique without members. -/
  | emptyClique (clique : Nat)
  /-- A variable that the model does not have. -/
  | variableOutOfRange (var numVars : Nat)
  /-- A label that the model does not have. -/
  | labelOutOfRange (label numLabels : Nat)
  /-- A model without labels. -/
  | noLabels
  /-- A row of unary costs of the wrong length. -/
  | costsLength (expected got : Nat)
  /-- A clique whose energy is below zero. -/
  | negativeEnergy (clique : Nat) (energy : Int)
  /-- A table of a graph clique with another length than two to the number of members. -/
  | tableSize (clique expected got : Nat)
  /-- A graph with other counts of nodes or cliques than the model. -/
  | graphMismatch (expected got : Nat)
  /-- The duals of a clique do not sum to its energy at the current labeling. -/
  | tightnessViolated (clique : Nat) (residual : Int) (table : List Int)
  /-- The energy of a clique exceeds its dual sum at the new labeling by `correction`. -/
  | dualInfeasible (clique : Nat) (energy dualSum correction : Int) (table : List Int)
  /-- The lower bound met a clique that has not exactly three members. -/
  | notTriple (clique size : Nat)
  /-- A snapshot that does not fit the model. -/
  | snapshotMismatch (reason : Mismatch)
  /-- An index past the end of its table. -/
  | outOfRange
  /-- A division into no parts. -/
  | divisionByZero
  deriving DecidableEq, Repr

/-- The wording of a fault. -/
def Fault.message : Fault → String
  | .cliqueTooLarge c size limit => s!"clique {c} has {size} members, the limit is {limit}"
  | .emptyClique c => s!"clique {c} has no members"
  | .variableOutOfRange v n => s!"variable {v} out of range, model has {n} variables"
  | .labelOutOfRange l n => s!"label {l} out of range, model has {n} labels"
  | .noLabels => "energy model has no labels"
  | .costsLength expected got =>
    s!"unary cost vector has {got} entries, expected {expected}"
  | .negativeEnergy c e => s!"clique {c} evaluated to negative energy {e}"
  | .tableSize c expected got =>
    s!"energy table of flow clique {c} has {got} entries, expected {expected}"
  | .graphMismatch expected got =>
    s!"flow graph has {got} cliques, energy model has {expected}"
  | .tightnessViolated c r table =>
    s!"tightness violated in clique {c}: residual of the stay assignment is {r}, table "
      ++ listing table
  | .dualInfeasible c e s k table =>
    s!"dual infeasible in clique {c}: energy {e}, dual sum {s}, correction {k}, table "
      ++ listing table
  | .notTriple c size =>
    s!"lower bound needs 3-member cliques, clique {c} has {size}"
  | .snapshotMismatch reason => "snapshot does not match the energy model: " ++ reason.message
  | .outOfRange => "index out of range"
  | .divisionByZero => "division by zero"

end FusionMove
