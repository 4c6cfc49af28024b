import FusionMove.Access
import FusionMove.Energy.Clique
import FusionMove.Certificate.Basic

namespace FusionMove

/-!
# Checked certificates

The checked forms of what is read from and written to duals and heights.  An address is checked
where it is used, and so is every label that goes into one.

* `Clique.gather?` — the labels of the members of a clique;
* `Heights.ofFn?`, `Heights.objective?`, `Duals.slice?` — whole tables, rows and blocks;
* `Certificate.shift?`, `Certificate.dualsAt?`, `Certificate.spread?` — duals with their heights.
-/

open scoped CoreArithmetic

/-- The members' labels in member order, up to the size limit. -/
def Clique.gather? (c : Clique) (labels : Array Nat) : Except Fault (List Nat) :=
  (c.nodes.take cliqueSizeLimit).mapM fun v => present labels[v]?

/-- The values of a clique, between two offsets that the table has. -/
def Duals.slice? (t : Duals) (clique : Nat) : Except Fault (Array Int) := do
  let start ← present t.offsets[clique]?
  let stop ← present t.offsets[clique + 1]?
  FusionMove.slice? t.values start stop

namespace Heights

/-- The table with the heights that `f` gives, written one by one. -/
def ofFn? (numVars numLabels : Nat) (f : Nat → Nat → Except Fault Int) : Except Fault Heights :=
  (List.range numVars).foldlM (fun t v =>
    (List.range numLabels).foldlM (fun t l => do t.set? v l (← f v l)) t) (zeros numVars numLabels)

/-- The sum over all variables of the least height, row by row. -/
def objective? (t : Heights) : Except Fault Int := do
  let rows ← (List.range t.numVars).mapM t.row?
  return (rows.map fun row => row.toList.min?.getD 0).sum

end Heights

namespace Certificate

/-- Add to a dual and to the height that belongs to it. -/
def shift? (t : Certificate) (c i v l : Nat) (delta : Int) : Except Fault Certificate := do
  let dual ← t.dual.add? c i l delta
  let heights ← t.heights.add? v l delta
  return ⟨dual, heights⟩

/-- The duals of the `size` members of clique `c` when they hold `labels`. -/
def dualsAt? (t : Certificate) (c size : Nat) (labels : List Nat) : Except Fault (List Int) :=
  (List.range size).mapM fun i => do
    let l ← present labels[i]?
    t.dual.get? c i l

/-- Shift every member of clique `c` by its share, at its label.  A member comes with its
    position. -/
def spread? (t : Certificate) (c : Nat) (nodes : List Nat)
    (label? : Nat × Nat → Except Fault Nat) (share? : Nat → Except Fault Int) :
    Except Fault Certificate :=
  nodes.zipIdx.foldlM (fun t p => do
    let l ← label? p
    let share ← share? p.2
    t.shift? c p.2 p.1 l share) t

end Certificate

end FusionMove
