import FusionMove.Proposal.Strategy

namespace FusionMove.Callback

/-!
# Ready-made callbacks

Callbacks without a memory, for runs along a prescribed course.

* `fill` — one label everywhere;
* `rows` — a list of rows, taken in turn;
* `shift` — the current labels, moved on by the iteration;
* `bump` — the previous proposal, moved on by a constant;
* `swap` — the current labels with two of them exchanged.
-/

/-- Propose `label` everywhere. -/
def fill (label : Nat) : Callback Unit := fun _ _ _ _ =>
  (fun _ => label, ())

/-- Propose the row whose turn it is; variables without an entry keep the previous proposal. -/
def rows (rows : Array (Array Nat)) : Callback Unit := fun _ iteration _ previous =>
  (fun v => ((rows[iteration % rows.size]?).bind (·[v]?)).getD (previous.getD v 0), ())

/-- Propose the current label plus `step` for every iteration done. -/
def shift (step : Nat) : Callback Unit := fun _ iteration current previous =>
  (fun v => (current[v]?.map (· + iteration * step)).getD (previous.getD v 0), ())

/-- Propose the previous proposal plus `step`. -/
def bump (step : Nat) : Callback Unit := fun _ _ _ previous =>
  (fun v => previous.getD v 0 + step, ())

/-- Exchange `a` and `b`. -/
def swapLabel (a b label : Nat) : Nat :=
  if label = a then b else if label = b then a else label

/-- Propose the current labels with `a` and `b` exchanged. -/
def swap (a b : Nat) : Callback Unit := fun _ _ current previous =>
  (fun v => (current[v]?.map (swapLabel a b)).getD (previous.getD v 0), ())

end FusionMove.Callback
