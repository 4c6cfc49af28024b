import FusionMove.Solver.Checked

namespace FusionMove.Solver

/-!
# Sessions

What a caller asks of a solver over the oracle of augmenting paths, one request after the other.  A
request may fault, and the next one is made all the same.  No request hands out the graph.

* `Request.run` — the response to a request;
* `Request.check` — the same, access by access;
* `session` — a sequence of requests.
-/

variable {τ : Type}

/-- What a caller may ask of a solver. -/
inductive Request (τ : Type) where
  | solve
  | iterate (budget : Nat)
  | lowerBound
  | restore (p : Snapshot)
  | setStrategy (strategy : Strategy τ)
  | label (v : Nat)
  | labels
  | dual (c i l : Nat)
  | height (v l : Nat)
  | adjacent (v : Nat)
  | iteration
  | phase
  | energy
  | capture

/-- What the caller gets. -/
inductive Response where
  | done
  | report (r : Report)
  | bound (b : Float)
  | label (l : Option Nat)
  | labels (ls : Array Nat)
  | value (x : Option Int)
  | places (ps : List (Nat × Nat))
  | count (n : Nat)
  | phase (p : Phase)
  | snapshot (p : Snapshot)

/-- The response to a request. -/
def Request.run (m : Model) : Request τ → Action (Solver Unit τ) Response
  | solve => do
    let r ← Solver.solve m Cut.maxFlow
    return .report r
  | iterate budget => do
    let r ← Solver.iterate m Cut.maxFlow budget
    return .report r
  | lowerBound => do
    let b ← Solver.lowerBound m
    return .bound b
  | restore p => do
    Solver.restore m p
    return .done
  | setStrategy strategy => do
    Solver.setStrategy strategy
    return .done
  | label v => do
    let s ← Action.get
    return .label (s.label? v)
  | labels => do
    let s ← Action.get
    return .labels s.labels
  | dual c i l => do
    let s ← Action.get
    return .value (s.dual? m c i l)
  | height v l => do
    let s ← Action.get
    return .value (s.height? v l)
  | adjacent v => do
    let s ← Action.get
    return .places (s.adjacent v)
  | iteration => do
    let s ← Action.get
    return .count s.iteration
  | phase => do
    let s ← Action.get
    return .phase s.phase
  | energy => do
    let s ← Action.get
    return .value (s.currentEnergy? m)
  | capture => do
    let s ← Action.get
    return .snapshot (Snapshot.capture s)

/-- The response to a request, access by access.  A new strategy, and what is shown as it is stored or
    only if it is there, ask for nothing. -/
def Request.check (m : Model) : Request τ → Action (Solver Unit τ) Response
  | solve => do
    let r ← Checked.iterate m maxBudget
    return .report r
  | iterate budget => do
    let r ← Checked.iterate m budget
    return .report r
  | lowerBound => do
    let b ← Checked.lowerBound m
    return .bound b
  | restore p => do
    Checked.restore m p
    return .done
  | dual c i l => do
    let s ← Action.get
    let x ← Action.ofExcept (Checked.dual m s c i l)
    return .value x
  | height v l => do
    let s ← Action.get
    let x ← Action.ofExcept (Checked.height s v l)
    return .value x
  | energy => do
    let s ← Action.get
    let x ← Action.ofExcept (Checked.energy m s)
    return .value x
  | capture => do
    let s ← Action.get
    let p ← Action.ofExcept (Checked.capture s)
    return .snapshot p
  | request => request.run m

/-- The responses to requests made one after the other, and the solver in the end. -/
def session (act : Request τ → Action (Solver Unit τ) Response) :
    List (Request τ) → Solver Unit τ → List (Except Fault Response) × Solver Unit τ
  | [], s => ([], s)
  | request :: requests, s =>
    let later := session act requests (act request s).state
    ((act request s).result :: later.1, later.2)

end FusionMove.Solver
