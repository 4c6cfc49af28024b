import FusionMove.Certificate.Heights

namespace FusionMove

/-!
# Proposal strategies

A strategy proposes the labeling that an iteration fuses with the current one.

* `cyclic` proposes one label for every variable and takes the labels in turn;
* `steepest` proposes the label with the largest total height drop for every variable, the lowest
  such label on ties and label zero if no label drops anything;
* `custom` asks a callback, which sees the iteration, the current labeling and the previous
  proposal and may keep a memory of its own.

Whatever a strategy answers is cut down to the last label, so a proposal is always in range.
-/

/-- A proposal of one's own: from its memory, the iteration, the current labeling and the previous
    proposal to a label for every variable, and the memory it keeps. -/
abbrev Callback (τ : Type) : Type :=
  τ → Nat → Array Nat → Array Nat → (Nat → Nat) × τ

/-- The strategies that propose one label for every variable. -/
inductive Expansion where
  | cyclic
  | steepest
  deriving DecidableEq, Repr

/-- Where proposals come from. -/
inductive Strategy (τ : Type) where
  | cyclic
  | steepest
  | custom (callback : Callback τ) (memory : τ)

/-- An expansion as a strategy. -/
def Expansion.toStrategy {τ : Type} : Expansion → Strategy τ
  | .cyclic => .cyclic
  | .steepest => .steepest

/-! ### Choosing one label -/

/-- The label whose turn it is. -/
def labelInTurn (numLabels iteration : Nat) : Nat :=
  if numLabels = 0 then 0 else iteration % numLabels

namespace Heights

/-- How far the heights of the variables drop in total when each may move to `label`. -/
def totalDrop (t : Heights) (current : Array Nat) (label : Nat) : Int :=
  sumTo current.size fun v => max (t.get v (current.getD v 0) - t.get v label) 0

/-- The largest drop so far with its label, after `label` has been looked at. -/
def better (t : Heights) (current : Array Nat) (best : Int × Nat) (label : Nat) : Int × Nat :=
  if best.1 < t.totalDrop current label then (t.totalDrop current label, label) else best

/-- The label with the largest drop. -/
def steepest (t : Heights) (current : Array Nat) : Nat :=
  ((List.range t.numLabels).foldl (t.better current) (0, 0)).2

/-- Every height that `steepest` looks at is inside the table. -/
def reaches (t : Heights) (current : Array Nat) : Bool :=
  t.numLabels = 0 || (List.range current.size).all fun v =>
    t.inBounds v (current.getD v 0) && t.inBounds v (t.numLabels - 1)

end Heights

namespace Strategy

variable {τ : Type}

/-- The name that reports show. -/
def name : Strategy τ → String
  | cyclic => "cyclic-alpha"
  | steepest => "height-alpha"
  | custom .. => "custom"

/-- Strategies of expansions are known by their names. -/
theorem eq_of_name {s : Strategy τ} {e : Expansion}
    (h : s.name = (e.toStrategy : Strategy τ).name) : s = e.toStrategy := by
  cases s with
  | cyclic => cases e with
    | cyclic => rfl
    | steepest => exact absurd h (show ¬ "cyclic-alpha" = "height-alpha" by decide)
  | steepest => cases e with
    | cyclic => exact absurd h (show ¬ "height-alpha" = "cyclic-alpha" by decide)
    | steepest => rfl
  | custom callback memory => cases e with
    | cyclic => exact absurd h (show ¬ "custom" = "cyclic-alpha" by decide)
    | steepest => exact absurd h (show ¬ "custom" = "height-alpha" by decide)

/-- How many iterations in a row may change nothing before the strategy gives up.  A cyclic sweep
    needs a turn for every label. -/
def patience (numLabels : Nat) : Strategy τ → Nat
  | cyclic => max numLabels 1
  | steepest | custom .. => 1

/-- The label for each of `size` variables, cut down to the last label. -/
def clamp (numLabels size : Nat) (choice : Nat → Nat) : Array Nat :=
  Array.ofFn fun v : Fin size => min (choice v) (numLabels - 1)

/-- The proposal of an iteration, one label for each entry of the previous proposal, and the
    strategy for the next one. -/
def propose (s : Strategy τ) (iteration : Nat) (heights : Heights)
    (current previous : Array Nat) : Except Fault (Array Nat × Strategy τ) :=
  let fit := clamp heights.numLabels previous.size
  match s with
  | cyclic => .ok (fit fun _ => labelInTurn heights.numLabels iteration, cyclic)
  | steepest =>
    if heights.reaches current then .ok (fit fun _ => heights.steepest current, steepest)
    else .error .outOfRange
  | custom callback memory =>
    let answer := callback memory iteration current previous
    .ok (fit answer.1, custom callback answer.2)

/-- A proposal has an entry for every variable. -/
@[simp] theorem size_clamp (numLabels size : Nat) (choice : Nat → Nat) :
    (clamp numLabels size choice).size = size := by
  simp [clamp]

/-- A proposal is below the number of labels. -/
theorem getD_clamp_lt {numLabels : Nat} (h : 0 < numLabels) (size : Nat) (choice : Nat → Nat)
    (v : Nat) : (clamp numLabels size choice).getD v 0 < numLabels := by
  by_cases hv : v < size
  · simp [clamp, hv]; omega
  · simp [clamp, hv, h]

end Strategy

end FusionMove
