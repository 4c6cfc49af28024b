import FusionMove.Sum
import FusionMove.Access

namespace FusionMove

/-!
# Heights

A `Heights` table holds one number for every variable and label, row by row in a single array with
one row a variable.  As with duals, the checked operations refuse only addresses past the end
of the array.

The sum over all variables of the least height, `Heights.objective`, is the value of the dual
problem.
-/

/-- A number for every variable and label. -/
structure Heights where
  values : Array Int
  numLabels : Nat
  deriving DecidableEq, Repr

namespace Heights

/-- The table without any row. -/
def empty : Heights :=
  ⟨#[], 0⟩

/-- A table of zeros. -/
def zeros (numVars numLabels : Nat) : Heights :=
  ⟨Array.replicate (numVars * numLabels) 0, numLabels⟩

/-- The table with the heights that `f` gives. -/
def ofFn (numVars numLabels : Nat) (f : Nat → Nat → Int) : Heights where
  values := Array.ofFn fun i : Fin (numVars * numLabels) => f (i / numLabels) (i % numLabels)
  numLabels := numLabels

/-- Number of rows; none if there are no labels. -/
def numVars (t : Heights) : Nat :=
  t.values.size / t.numLabels

/-- Where the height of a variable and label lies. -/
def address (t : Heights) (var label : Nat) : Nat :=
  var * t.numLabels + label

/-- Whether the address of a variable and label is inside the array. -/
def inBounds (t : Heights) (var label : Nat) : Bool :=
  t.address var label < t.values.size

/-- The height of a variable and label. -/
def get (t : Heights) (var label : Nat) : Int :=
  t.values.getD (t.address var label) 0

/-- Add `delta` to one height. -/
def add (t : Heights) (var label : Nat) (delta : Int) : Heights :=
  { t with values := t.values.modify (t.address var label) (· + delta) }

/-- The heights of one variable. -/
def row (t : Heights) (var : Nat) : Array Int :=
  t.values.extract (var * t.numLabels) ((var + 1) * t.numLabels)

/-- The rows in order. -/
def rows (t : Heights) : List (Array Int) :=
  (List.range t.numVars).map t.row

/-- The least height of one variable. -/
def lowest (t : Heights) (var : Nat) : Int :=
  (t.row var).toList.min?.getD 0

/-- The sum over all variables of the least height. -/
def objective (t : Heights) : Int :=
  sumTo t.numVars t.lowest

/-! ### What an addition changes -/

@[simp] theorem numLabels_add (t : Heights) (v l : Nat) (delta : Int) :
    (t.add v l delta).numLabels = t.numLabels := rfl

@[simp] theorem size_values_add (t : Heights) (v l : Nat) (delta : Int) :
    (t.add v l delta).values.size = t.values.size := by
  simp [add]

/-- Adding changes the heights at the address that was given, if it is inside the table. -/
theorem get_add (t : Heights) (v l : Nat) (delta : Int) (w k : Nat) :
    (t.add v l delta).get w k =
      t.get w k + if t.inBounds v l ∧ t.address v l = t.address w k then delta else 0 := by
  simp only [inBounds, decide_eq_true_eq]
  exact getD_modify_add ..

/-! ### Checked access -/

/-- The height at an address inside the array. -/
def get? (t : Heights) (var label : Nat) : Except Fault Int :=
  if t.inBounds var label then .ok (t.get var label) else .error .outOfRange

/-- Overwrite the height at an address inside the array. -/
def set? (t : Heights) (var label : Nat) (value : Int) : Except Fault Heights :=
  if t.inBounds var label then
    .ok { t with values := t.values.setIfInBounds (t.address var label) value }
  else .error .outOfRange

/-- Add to the height at an address inside the array. -/
def add? (t : Heights) (var label : Nat) (delta : Int) : Except Fault Heights :=
  if t.inBounds var label then .ok (t.add var label delta) else .error .outOfRange

/-- The row of a variable whose whole row is inside the array. -/
def row? (t : Heights) (var : Nat) : Except Fault (Array Int) :=
  if (var + 1) * t.numLabels ≤ t.values.size then .ok (t.row var) else .error .outOfRange

end Heights

end FusionMove
