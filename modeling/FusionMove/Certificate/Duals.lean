import FusionMove.Access

namespace FusionMove

/-!
# Duals

A `Duals` table holds one number for every clique, member and label.  The blocks of the cliques lie
one after the other in a single array, each row by row with one row a member; `offsets` lists
where each block starts and, at its end, where the last one stops.

`get?`, `set?`, `add?` and `block?` refuse an address past the end of the array and do not look further: a
member or label that a clique does not have reads or writes whatever cell its address meets.
`get`, `add` and `block` are for addresses that are known to be there.
-/

open scoped CoreArithmetic

/-- A number for every clique, member and label. -/
structure Duals where
  values : Array Int
  offsets : Array Nat
  numLabels : Nat
  deriving DecidableEq, Repr

namespace Duals

/-- The table without any block. -/
def empty : Duals :=
  ⟨#[], #[], 0⟩

/-- Where the blocks of cliques of the given sizes start when the first starts at `start`, and
    where the last one stops. -/
def blockBounds (numLabels : Nat) : List Nat → Nat → List Nat
  | [], start => [start]
  | k :: ks, start => start :: blockBounds numLabels ks (start + k * numLabels)

/-- A table of zeros for cliques of the given sizes. -/
def ofSizes (sizes : List Nat) (numLabels : Nat) : Duals where
  values := Array.replicate (sizes.sum * numLabels) 0
  offsets := (blockBounds numLabels sizes 0).toArray
  numLabels := numLabels

/-- Number of blocks. -/
def numCliques (t : Duals) : Nat :=
  t.offsets.size - 1

/-- Where the value of a clique, member and label lies. -/
def address (t : Duals) (clique member label : Nat) : Nat :=
  t.offsets.getD clique 0 + member * t.numLabels + label

/-- Whether the address of a clique, member and label is inside the array. -/
def inBounds (t : Duals) (clique member label : Nat) : Bool :=
  clique < t.offsets.size && t.address clique member label < t.values.size

/-- The value of a clique, member and label. -/
def get (t : Duals) (clique member label : Nat) : Int :=
  t.values.getD (t.address clique member label) 0

/-- Add `delta` to one value. -/
def add (t : Duals) (clique member label : Nat) (delta : Int) : Duals :=
  { t with values := t.values.modify (t.address clique member label) (· + delta) }

/-- The values of one clique, row by row. -/
def block (t : Duals) (clique : Nat) : Array Int :=
  t.values.extract (t.offsets.getD clique 0) (t.offsets.getD (clique + 1) 0)

/-- The least value, if there is any. -/
def minValue? (t : Duals) : Option Int :=
  t.values.toList.min?

/-- The blocks in order. -/
def blocks (t : Duals) : List (Array Int) :=
  (List.range t.numCliques).map t.block

/-! ### What an addition changes -/

@[simp] theorem numLabels_add (t : Duals) (c i l : Nat) (delta : Int) :
    (t.add c i l delta).numLabels = t.numLabels := rfl

@[simp] theorem offsets_add (t : Duals) (c i l : Nat) (delta : Int) :
    (t.add c i l delta).offsets = t.offsets := rfl

@[simp] theorem address_add (t : Duals) (c i l : Nat) (delta : Int) (c' i' l' : Nat) :
    (t.add c i l delta).address c' i' l' = t.address c' i' l' := rfl

@[simp] theorem size_values_add (t : Duals) (c i l : Nat) (delta : Int) :
    (t.add c i l delta).values.size = t.values.size := by
  simp [add]

/-- Adding changes the duals at the address that was given, if it is inside the array. -/
theorem get_add (t : Duals) (c i l : Nat) (delta : Int) (c' i' l' : Nat) :
    (t.add c i l delta).get c' i' l' =
      t.get c' i' l' +
        if t.address c i l < t.values.size ∧ t.address c i l = t.address c' i' l' then delta
        else 0 := by
  rw [get, get, address_add]
  exact getD_modify_add ..

/-! ### Checked access -/

/-- The value at an address inside the array. -/
def get? (t : Duals) (clique member label : Nat) : Except Fault Int :=
  if t.inBounds clique member label then .ok (t.get clique member label) else .error .outOfRange

/-- Overwrite the value at an address inside the array. -/
def set? (t : Duals) (clique member label : Nat) (value : Int) : Except Fault Duals :=
  if t.inBounds clique member label then
    .ok { t with values := t.values.setIfInBounds (t.address clique member label) value }
  else .error .outOfRange

/-- Add to the value at an address inside the array. -/
def add? (t : Duals) (clique member label : Nat) (delta : Int) : Except Fault Duals :=
  if t.inBounds clique member label then .ok (t.add clique member label delta)
  else .error .outOfRange

/-- The values of a clique that the table has. -/
def block? (t : Duals) (clique : Nat) : Except Fault (Array Int) :=
  if clique < t.numCliques then .ok (t.block clique) else .error .outOfRange

end Duals

end FusionMove
