import FusionMove.Sum

namespace FusionMove.Gray

/-!
# Gray codes

The reflected Gray code of `a` is `a xor ⌊a / 2⌋`.  The codes of `a − 1` and `a` differ in a single
bit, so a walk over all masks of `k` bits in code order changes one member at a time.

* `Gray.code` — the code of a number;
* `Gray.flipped` — the bit that changes on the way to a code;
* `Gray.walk` — the steps that visit every mask except the empty one, where the walk starts.
-/

open scoped CoreArithmetic

/-- The Gray code of `a`. -/
def code (a : Nat) : Nat :=
  a ^^^ (a >>> 1)

/-- The bit in which the codes of `a − 1` and `a` differ, for a positive `a`. -/
def flipped (a : Nat) : Nat :=
  (code a ^^^ code (a - 1)).log2

/-- The steps of the walk over the masks of `k` bits. -/
def walk (k : Nat) : List Nat :=
  List.range' 1 (2 ^ k - 1)

example : (walk 3).map code = [1, 3, 2, 6, 7, 5, 4] := by decide
example : (walk 3).map flipped = [0, 1, 0, 2, 0, 1, 0] := by decide

end FusionMove.Gray
