import FusionMove.Access
import FusionMove.Fusion.Gray

namespace FusionMove.Fusion

/-!
# Fusion tables

In a fusion every member of a clique either keeps its current label or takes its fused one.  A
fusion table has one entry for every mask of members: bit `i` of the index tells that member `i`
takes the fused label.

* `tabulate` writes the clique energy of every mask;
* `discount` takes from the entry of a mask a sum with one term a member, the fused term inside
  the mask and the current term outside.

Both walk the masks in Gray-code order and update one member a step: `tabulate` patches the label
tuple, `discount` a running sum.  Entries from `2 ^ k` on stay as they are.  The checked
forms refuse lists and tables that are too short; `fill?` and `reduce?` walk the same way and check
every access by itself.
-/

open scoped CoreArithmetic

/-- Member labels and table on the way through the masks. -/
structure Tabulation where
  labels : List Nat
  table : Array Int

/-- Move to the mask of step `a`: patch the label of the flipped member, evaluate, write. -/
def Tabulation.step (energy : List Nat → Int) (current fused : List Nat) (w : Tabulation)
    (a : Nat) : Tabulation :=
  -- the other members are already at their labels for this mask
  let i := Gray.flipped a
  let label := if (Gray.code a).testBit i then fused.getD i 0 else current.getD i 0
  let labels := w.labels.set i label
  ⟨labels, w.table.setIfInBounds (Gray.code a) (energy labels)⟩

/-- Write the energy of every fusion of `current` with `fused`. -/
def tabulate (energy : List Nat → Int) (current fused : List Nat) (table : Array Int) : Array Int :=
  ((Gray.walk current.length).foldl (Tabulation.step energy current fused)
    ⟨current, table.setIfInBounds 0 (energy current)⟩).table

/-- Running sum and table on the way through the masks. -/
structure Discount where
  linear : Int
  table : Array Int

/-- Move to the mask of step `a`: exchange the term of the flipped member, subtract the sum. -/
def Discount.step (fused current : List Int) (w : Discount) (a : Nat) : Discount :=
  let i := Gray.flipped a
  let change := fused.getD i 0 - current.getD i 0
  let linear := if (Gray.code a).testBit i then w.linear + change else w.linear - change
  ⟨linear, w.table.modify (Gray.code a) (· - linear)⟩

/-- Subtract from every mask the sum of its members' terms. -/
def discount (table : Array Int) (fused current : List Int) : Array Int :=
  ((Gray.walk current.length).foldl (Discount.step fused current)
    ⟨current.sum, table.modify 0 (· - current.sum)⟩).table

/-! ### Checked forms -/

/-- A table has an entry for every mask of `k` members, and there is a fused entry for each. -/
def Fits (k fusedLength tableSize : Nat) : Prop :=
  k ≤ fusedLength ∧ 2 ^ k ≤ tableSize

instance (k fusedLength tableSize : Nat) : Decidable (Fits k fusedLength tableSize) :=
  inferInstanceAs (Decidable (_ ∧ _))

/-- `tabulate` on a table and labels that are long enough. -/
def tabulate? (energy : List Nat → Int) (current fused : List Nat) (table : Array Int) :
    Except Fault (Array Int) :=
  if Fits current.length fused.length table.size then .ok (tabulate energy current fused table)
  else .error .outOfRange

/-- `discount` on a table and terms that are long enough. -/
def discount? (table : Array Int) (fused current : List Int) : Except Fault (Array Int) :=
  if Fits current.length fused.length table.size then .ok (discount table fused current)
  else .error .outOfRange

/-! ### Access by access -/

/-- A step of `tabulate` that has everything it touches. -/
def Tabulation.step? (energy : List Nat → Int) (current fused : List Nat) (w : Tabulation)
    (a : Nat) : Except Fault Tabulation := do
  let i := Gray.flipped a
  let label ← present (if (Gray.code a).testBit i then fused[i]? else current[i]?)
  let _ ← present w.labels[i]?
  let labels := w.labels.set i label
  let table ← setAt? w.table (Gray.code a) (energy labels)
  return ⟨labels, table⟩

/-- `tabulate` if every step has what it touches. -/
def fill? (energy : List Nat → Int) (current fused : List Nat) (table : Array Int) :
    Except Fault (Array Int) := do
  let first ← setAt? table 0 (energy current)
  let last ← (Gray.walk current.length).foldlM (Tabulation.step? energy current fused)
    ⟨current, first⟩
  return last.table

/-- A step of `discount` that has everything it touches. -/
def Discount.step? (fused current : List Int) (w : Discount) (a : Nat) : Except Fault Discount := do
  let i := Gray.flipped a
  let fusedTerm ← present fused[i]?
  let currentTerm ← present current[i]?
  let change := fusedTerm - currentTerm
  let linear := if (Gray.code a).testBit i then w.linear + change else w.linear - change
  let table ← modifyAt? w.table (Gray.code a) (· - linear)
  return ⟨linear, table⟩

/-- `discount` if every step has what it touches. -/
def reduce? (table : Array Int) (fused current : List Int) : Except Fault (Array Int) := do
  let first ← modifyAt? table 0 (· - current.sum)
  let last ← (Gray.walk current.length).foldlM (Discount.step? fused current) ⟨current.sum, first⟩
  return last.table

end FusionMove.Fusion
