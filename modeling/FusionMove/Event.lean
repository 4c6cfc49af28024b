import FusionMove.Fault
import FusionMove.Decimal.Shortest

namespace FusionMove

open Text

/-!
# Events — what a run reports beside its result

Operations record events in the order in which they happen.  An event carries the numbers it
reports; `Event.level` grades it and `Event.message` words it.  Nothing in the library reads an
event back, so a result never depends on them.
-/

/-- How much an event matters, from failures down to single flow pushes. -/
inductive Level where
  | error
  | warn
  | info
  | debug
  | trace
  deriving DecidableEq, Repr

namespace Level

/-- Position in the order of levels; the most severe one is lowest. -/
def rank : Level → Nat
  | error => 0
  | warn => 1
  | info => 2
  | debug => 3
  | trace => 4

/-- The word written before a message. -/
def name : Level → String
  | error => "ERROR"
  | warn => "WARN"
  | info => "INFO"
  | debug => "DEBUG"
  | trace => "TRACE"

end Level

/-- Something worth reporting. -/
inductive Event where
  /-- The model was refused before any table was built. -/
  | modelRejected (fault : Fault)
  /-- The graph handed to the solver does not have the model's counts. -/
  | graphMismatch (nodes cliques numVars modelCliques : Nat)
  /-- A clique evaluated below zero at the given labels. -/
  | negativeEnergy (clique : Nat) (energy : Int) (labels : List Nat)
  /-- All tables are built and the first labeling is chosen. -/
  | started (numVars cliques labels : Nat)
  /-- The residual of the stay assignment is not zero. -/
  | tightnessViolated (clique iteration : Nat) (residual : Int) (current fused : List Nat)
      (table : List Int)
  /-- The least energy of the binary problem of an iteration. -/
  | fusionEnergy (iteration : Nat) (energy : Int)
  /-- A clique needs more than its duals offer at the new labeling. -/
  | dualInfeasible (clique iteration : Nat) (energy dualSum correction : Int)
      (labels : List Nat) (table : List Int)
  /-- An iteration is complete; the energy is there if the solver was asked to trace it. -/
  | iterated (iteration : Nat) (proposal : String) (switched : Nat) (energy : Option Int)
  /-- The strategy cannot improve the labeling. -/
  | converged (iteration : Nat)
  /-- The budget ran out first. -/
  | exhausted (iteration : Nat)
  /-- Another strategy took over. -/
  | strategyChanged (old new : String)
  /-- A zero-energy triple at the current labeling has a nonzero dual sum. -/
  | notTight (clique : Nat) (labels : List Nat) (dualSum : Int)
  /-- A lower bound with the ratio that scaled it. -/
  | lowerBound (bound : Float) (objective : Int) (ratio : Float)
  /-- A lower bound that is the dual objective itself. -/
  | lowerBoundUnscaled (objective : Int)
  /-- A snapshot took effect. -/
  | restored (iteration : Nat) (phase : String)
  /-- An augmenting path carries nothing. -/
  | noCapacity (node : Nat) (flow : Int)
  /-- An augmenting path carried `amount`. -/
  | pushed (amount : Int) (source sink cliques : Nat)
  /-- A minimum cut is found. -/
  | cutFound (nodes cliques augmentations : Nat) (flow energy : Int)

namespace Event

/-- The level of an event. -/
def level : Event → Level
  | modelRejected .. | graphMismatch .. | negativeEnergy .. | tightnessViolated ..
  | dualInfeasible .. | notTight .. => .error
  | noCapacity .. => .warn
  | converged .. | exhausted .. | lowerBound .. | lowerBoundUnscaled .. | restored .. => .info
  | started .. | iterated .. | strategyChanged .. | cutFound .. => .debug
  | fusionEnergy .. | pushed .. => .trace

/-- The wording of an event. -/
def message : Event → String
  | modelRejected fault => "rejecting energy model: " ++ fault.message
  | graphMismatch n c v k =>
    s!"flow graph has {n} nodes and {c} cliques, model has {v} variables and {k} cliques"
  | negativeEnergy c e labels =>
    s!"clique {c} has negative energy {e} at labeling " ++ listing labels
  | started v c l => s!"initialised: {v} variables, {c} cliques, {l} labels"
  | tightnessViolated c i r current fused table =>
    s!"tightness violated in clique {c} at iteration {i}: residual {r}, current "
      ++ listing current ++ ", fused " ++ listing fused ++ ", table " ++ listing table
  | fusionEnergy i e => s!"iteration {i}: fusion energy {e}"
  | dualInfeasible c i e s k labels table =>
    s!"dual infeasible in clique {c} at iteration {i}: energy {e}, dual sum {s}, "
      ++ s!"correction {k}, labels " ++ listing labels ++ ", residual table " ++ listing table
  | iterated i proposal n none => s!"iteration {i}: {proposal} proposal, {n} switched"
  | iterated i proposal n (some e) =>
    s!"iteration {i}: {proposal} proposal, {n} switched, energy {e}"
  | converged i => s!"converged after {i} iterations"
  | exhausted i => s!"iteration budget exhausted at iteration {i}"
  | strategyChanged old new => s!"proposal strategy {old} -> {new}"
  | notTight c labels s =>
    s!"clique {c} not tight at its current labeling " ++ listing labels ++ s!": dual sum {s}"
  | lowerBound b objective ratio =>
    "lower bound " ++ Decimal.shortest b ++ s!": dual objective {objective}, max ratio "
      ++ Decimal.shortest ratio
  | lowerBoundUnscaled objective =>
    s!"lower bound: no positive dual ratio, dual objective {objective}"
  | restored i phase => s!"restored snapshot at iteration {i} ({phase})"
  | noCapacity node flow =>
    s!"augmenting path ending at node {node} has no capacity, stopping at flow {flow}"
  | pushed d s e n => s!"pushed {d} from node {s} to node {e} across {n} cliques"
  | cutFound n c a f e =>
    s!"flow solve: {n} nodes, {c} cliques, {a} augmentations, flow {f}, energy {e}"

/-- The event as one line of a log: the level's word, a blank, the message. -/
def line (event : Event) : String :=
  event.level.name ++ " " ++ event.message

/-- Whether a log kept down to `least` shows the event. -/
def visibleAt (least : Level) (event : Event) : Bool :=
  event.level.rank ≤ least.rank

end Event

end FusionMove
