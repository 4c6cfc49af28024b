import FusionMove.Sum

namespace FusionMove.Mask

/-!
# Masks — sets of members as numbers

A set of members of a clique is the number whose bit `p` is set iff member `p` is in the set.

* `Mask.ofBits` — the mask of the true entries of a list;
* `Mask.sum` — the sum of a function over the members in a mask;
* `Mask.subsets` — all subsets of a mask.
-/

open scoped CoreArithmetic

/-- The mask with the given bits, the lowest first. -/
def ofBits : List Bool → Nat
  | [] => 0
  | b :: bs => b.toNat + 2 * ofBits bs

/-- Membership in `ofBits` is membership in the list. -/
theorem testBit_ofBits (bs : List Bool) (p : Nat) : (ofBits bs).testBit p = bs.getD p false := by
  induction bs generalizing p with
  | nil => simp [ofBits]
  | cons b bs ih =>
    cases p with
    | zero => cases b <;> simp [ofBits, Nat.testBit_zero]
    | succ p =>
      rw [Nat.testBit_succ]
      have : (ofBits (b :: bs)) / 2 = ofBits bs := by
        cases b <;> simp [ofBits]
        omega
      rw [this, ih]; simp

/-- A mask of `k` bits lies below `2 ^ k`. -/
theorem ofBits_lt (bs : List Bool) : ofBits bs < 2 ^ bs.length := by
  induction bs with
  | nil => simp [ofBits]
  | cons b bs ih =>
    have : 2 ^ (bs.length + 1) = 2 * 2 ^ bs.length := by rw [Nat.pow_succ, Nat.mul_comm]
    cases b <;> simp [ofBits] <;> omega

/-- The sum of `f` over the members below `k` that are in `mask`. -/
def sum (k : Nat) (f : Nat → Int) (mask : Nat) : Int :=
  sumTo k fun p => if mask.testBit p then f p else 0

@[simp] theorem sum_zero_mask (k : Nat) (f : Nat → Int) : sum k f 0 = 0 := by
  simp [sum]

/-- The subsets of `mask`, which lies below `2 ^ k`. -/
def subsets (k mask : Nat) : List Nat :=
  (List.range (2 ^ k)).filter fun t => t &&& mask = t

theorem mem_subsets {k mask t : Nat} : t ∈ subsets k mask ↔ t < 2 ^ k ∧ t &&& mask = t := by
  simp [subsets]

end FusionMove.Mask
