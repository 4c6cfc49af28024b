import FusionMove.Certificate.Duals
import FusionMove.Certificate.Heights

namespace FusionMove

/-!
# Certificates — duals together with their heights

The height of a variable and label is its unary cost plus every dual that touches it.  Duals
therefore change only together with heights: `Certificate.shift` adds the same amount to a dual
and to the height of its variable, and everything else is made of shifts.

* `Certificate.dualSum` — the duals of a clique at given member labels, summed;
* `Certificate.spread` — one shift a member, at the labels of a labeling.
-/

/-- Duals with the heights that belong to them. -/
structure Certificate where
  dual : Duals
  heights : Heights
  deriving DecidableEq, Repr

namespace Certificate

/-- The certificate without tables. -/
def empty : Certificate :=
  ⟨Duals.empty, Heights.empty⟩

/-- Add `delta` to the dual of member `i` of clique `c` at label `l`, and to the height of the
    variable `v` that this member is. -/
def shift (t : Certificate) (c i v l : Nat) (delta : Int) : Certificate where
  dual := t.dual.add c i l delta
  heights := t.heights.add v l delta

/-- The sum of the duals of clique `c` when its members hold `labels`. -/
def dualSum (t : Certificate) (c : Nat) (labels : List Nat) : Int :=
  sumTo labels.length fun i => t.dual.get c i (labels.getD i 0)

/-- Shift every member of clique `c` by its share, each at its label under `x`. -/
def spread (t : Certificate) (c : Nat) (nodes : List Nat) (x : Nat → Nat) (share : Nat → Int) :
    Certificate :=
  nodes.zipIdx.foldl (fun t p => t.shift c p.2 p.1 (x p.1) (share p.2)) t

end Certificate

end FusionMove
