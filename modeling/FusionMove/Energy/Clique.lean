import FusionMove.Sum
import FusionMove.Fault

namespace FusionMove

/-!
# Cliques — terms over several variables

A `Clique` is an ordered list of member variables and an energy on their labels.  The energy is
any function; the ready-made kinds are

* `Clique.potts` — a penalty unless all members agree;
* `Clique.lookup` — a table over the labels read as digits;
* `Clique.chain` — truncated distances of consecutive labels;
* `Clique.counting` — a table over how many members hold one label;
* `Clique.affine` — a weighted sum of the labels.
-/

open scoped CoreArithmetic

/-- The most members that a clique may have; its fusion tables have two to the size entries. -/
def cliqueSizeLimit : Nat := 32

/-- An ordered member list and an energy over the members' labels. -/
structure Clique where
  nodes : List Nat
  energy : List Nat → Int

/-- What is wrong with the member list of the clique at position `index`: no members, too many, or
    one that is not below `numVars`. -/
def memberFault? (index : Nat) (members : List Nat) (numVars : Nat) : Option Fault :=
  if members.length = 0 then some (.emptyClique index)
  else if cliqueSizeLimit < members.length then
    some (.cliqueTooLarge index members.length cliqueSizeLimit)
  else (members.find? (numVars ≤ ·)).map (.variableOutOfRange · numVars)

/-- A member list passes iff it has one to `cliqueSizeLimit` members, all of them variables. -/
theorem memberFault?_eq_none_iff {index : Nat} {members : List Nat} {numVars : Nat} :
    memberFault? index members numVars = none ↔
      0 < members.length ∧ members.length ≤ cliqueSizeLimit ∧ ∀ v ∈ members, v < numVars := by
  unfold memberFault?
  split
  · simp only [reduceCtorEq, false_iff]; omega
  · split
    · simp only [reduceCtorEq, false_iff]; omega
    · simp only [Option.map_eq_none_iff, List.find?_eq_none, decide_eq_true_eq, Nat.not_le]
      exact ⟨fun h => ⟨by omega, by omega, h⟩, fun h => h.2.2⟩

namespace Clique

/-- Number of members. -/
def size (c : Clique) : Nat :=
  c.nodes.length

/-- The members' labels in member order.  A clique over the size limit is read up to the limit. -/
def labelsAt (c : Clique) (x : Nat → Nat) : List Nat :=
  (c.nodes.take cliqueSizeLimit).map x

/-- The clique's energy at the labeling `x`. -/
def energyAt (c : Clique) (x : Nat → Nat) : Int :=
  c.energy (c.labelsAt x)

/-- Within the size limit every member is read. -/
theorem labelsAt_of_size_le {c : Clique} (h : c.size ≤ cliqueSizeLimit) (x : Nat → Nat) :
    c.labelsAt x = c.nodes.map x := by
  rw [labelsAt, List.take_of_length_le h]

/-- The labels of the members decide the energy. -/
theorem energyAt_congr {c : Clique} {x y : Nat → Nat} (h : ∀ v ∈ c.nodes, x v = y v) :
    c.energyAt x = c.energyAt y := by
  have : c.labelsAt x = c.labelsAt y :=
    List.map_congr_left fun v hv => h v (List.mem_of_mem_take hv)
  rw [energyAt, energyAt, this]

/-! ### Ready-made kinds -/

/-- Zero when all labels agree (also when there are none), `penalty` otherwise. -/
def pottsEnergy (penalty : Int) : List Nat → Int
  | [] => 0
  | l :: ls => if ls.all (· = l) then 0 else penalty

/-- A Potts clique. -/
def potts (nodes : List Nat) (penalty : Int) : Clique where
  nodes := nodes
  energy := pottsEnergy penalty

/-- The number with the given digits, the lowest first. -/
def ofDigits (radix : Nat) (digits : List Nat) : Nat :=
  digits.foldr (fun d n => d + radix * n) 0

/-- A clique that looks its energy up at the number whose digits are the labels; zero past the
    end of the table. -/
def lookup (nodes : List Nat) (radix : Nat) (values : Array Int) : Clique where
  nodes := nodes
  energy ls := values.getD (ofDigits radix ls) 0

/-- The distance of two labels, cut off at `cap`. -/
def cappedDistance (cap a b : Nat) : Nat :=
  min (max a b - min a b) cap

/-- A clique that sums `weight` times the capped distance over consecutive members. -/
def chain (nodes : List Nat) (weight : Int) (cap : Nat) : Clique where
  nodes := nodes
  energy ls := ((ls.zip ls.tail).map fun p => weight * (cappedDistance cap p.1 p.2 : Int)).sum

/-- A clique that looks its energy up at the number of members with label `target`; zero past the
    end of the table. -/
def counting (nodes : List Nat) (target : Nat) (values : Array Int) : Clique where
  nodes := nodes
  energy ls := values.getD (ls.count target) 0

/-- A clique with energy `base + Σ weightᵢ · labelᵢ`; labels without a weight count nothing. -/
def affine (nodes : List Nat) (base : Int) (weights : List Int) : Clique where
  nodes := nodes
  energy ls := base + ((weights.zip ls).map fun p => p.1 * (p.2 : Int)).sum

end Clique

end FusionMove
