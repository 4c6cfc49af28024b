namespace FusionMove

/-!
# Sums over initial segments

`sumTo n f = f 0 + f 1 + … + f (n − 1)`.  Unary costs, dual sums of a clique and sums over a
member mask are all of this form.
-/

namespace CoreArithmetic

-- Powers of numbers and sums of lists as the core library has them, also where numbers carry the
-- structure of a semiring.  A module that writes either opens this namespace.
attribute [scoped instance (2000)] instPowNat instNatPowNat Zero.ofOfNat0

end CoreArithmetic

open scoped CoreArithmetic

/-- The sum of `f` over the numbers below `n`. -/
def sumTo : Nat → (Nat → Int) → Int
  | 0, _ => 0
  | n + 1, f => sumTo n f + f n

@[simp] theorem sumTo_zero (f : Nat → Int) : sumTo 0 f = 0 := rfl

theorem sumTo_succ (n : Nat) (f : Nat → Int) : sumTo (n + 1) f = sumTo n f + f n := rfl

theorem sumTo_const (n : Nat) (a : Int) : sumTo n (fun _ => a) = n * a := by
  induction n with
  | zero => rw [sumTo_zero, Int.natCast_zero, Int.zero_mul]
  | succ n ih => rw [sumTo_succ, ih, Int.natCast_succ, Int.add_mul, Int.one_mul]

@[simp] theorem sumTo_const_zero (n : Nat) : sumTo n (fun _ => 0) = 0 := by
  rw [sumTo_const, Int.mul_zero]

/-- The sum of a list of values. -/
theorem sum_map_range (n : Nat) (f : Nat → Int) : ((List.range n).map f).sum = sumTo n f := by
  induction n with
  | zero => rfl
  | succ n ih => simp [List.range_succ, ih, sumTo_succ]

/-- Only the values below `n` matter. -/
theorem sumTo_congr {n : Nat} {f g : Nat → Int} (h : ∀ i < n, f i = g i) :
    sumTo n f = sumTo n g := by
  induction n with
  | zero => rfl
  | succ n ih =>
    rw [sumTo_succ, sumTo_succ, ih fun i hi => h i (by omega), h n (by omega)]

theorem sumTo_add (n : Nat) (f g : Nat → Int) :
    sumTo n (fun i => f i + g i) = sumTo n f + sumTo n g := by
  induction n with
  | zero => rfl
  | succ n ih => simp only [sumTo_succ, ih]; omega

theorem sumTo_mul (n : Nat) (a : Int) (f : Nat → Int) :
    sumTo n (fun i => a * f i) = a * sumTo n f := by
  induction n with
  | zero => simp
  | succ n ih => simp only [sumTo_succ, ih, Int.mul_add]

/-- The first term apart. -/
theorem sumTo_succ' (n : Nat) (f : Nat → Int) :
    sumTo (n + 1) f = f 0 + sumTo n fun i => f (i + 1) := by
  induction n with
  | zero => simp [sumTo_succ]
  | succ n ih =>
    rw [sumTo_succ, ih, sumTo_succ]
    omega

theorem sumTo_sub (n : Nat) (f g : Nat → Int) :
    sumTo n (fun i => f i - g i) = sumTo n f - sumTo n g := by
  induction n with
  | zero => rfl
  | succ n ih => simp only [sumTo_succ, ih]; omega

theorem sumTo_le_sumTo {n : Nat} {f g : Nat → Int} (h : ∀ i < n, f i ≤ g i) :
    sumTo n f ≤ sumTo n g := by
  induction n with
  | zero => exact Int.le_refl _
  | succ n ih =>
    have := ih fun i hi => h i (by omega)
    have := h n (by omega)
    rw [sumTo_succ, sumTo_succ]
    omega

theorem sumTo_nonneg {n : Nat} {f : Nat → Int} (h : ∀ i < n, 0 ≤ f i) : 0 ≤ sumTo n f := by
  simpa using sumTo_le_sumTo (f := fun _ => 0) h

theorem sumTo_nonpos {n : Nat} {f : Nat → Int} (h : ∀ i < n, f i ≤ 0) : sumTo n f ≤ 0 := by
  simpa using sumTo_le_sumTo (g := fun _ => 0) h

/-- A sum of non-negative terms vanishes only if every term does. -/
theorem eq_zero_of_sumTo_eq_zero {n : Nat} {f : Nat → Int} (h : ∀ i < n, 0 ≤ f i)
    (hs : sumTo n f = 0) : ∀ i < n, f i = 0 := by
  induction n with
  | zero => exact fun i hi => absurd hi (by omega)
  | succ n ih =>
    have hn := h n (by omega)
    have hlt : ∀ i < n, 0 ≤ f i := fun i hi => h i (by omega)
    have h0 := sumTo_nonneg hlt
    rw [sumTo_succ] at hs
    intro i hi
    rcases Nat.lt_succ_iff_lt_or_eq.mp hi with hi | rfl
    · exact ih hlt (by omega) i hi
    · omega

/-- The order of two sums does not matter. -/
theorem sumTo_comm (m n : Nat) (f : Nat → Nat → Int) :
    sumTo m (fun i => sumTo n fun j => f i j) = sumTo n fun j => sumTo m fun i => f i j := by
  induction m with
  | zero => simp
  | succ m ih => simp only [sumTo_succ, ih, sumTo_add]

/-- A sum with a single term. -/
theorem sumTo_single (n k : Nat) (f : Nat → Int) :
    sumTo n (fun i => if k = i then f i else 0) = if k < n then f k else 0 := by
  induction n with
  | zero => rfl
  | succ n ih =>
    rw [sumTo_succ, ih]
    by_cases h : k = n
    · subst h; simp
    · have : k < n + 1 ↔ k < n := by omega
      simp [h, this]

/-- Two sums that differ in a single term. -/
theorem sumTo_eq_add_of_eq_off {n i : Nat} {f g : Nat → Int} (hi : i < n)
    (h : ∀ j < n, j ≠ i → f j = g j) : sumTo n f = sumTo n g + (f i - g i) := by
  have hterm : ∀ j < n, f j - g j = if i = j then f j - g j else 0 := by
    intro j hj
    by_cases hij : i = j
    · rw [if_pos hij]
    · rw [if_neg hij, h j hj fun heq => hij heq.symm]
      omega
  have hdiff := sumTo_single n i fun j => f j - g j
  rw [← sumTo_congr hterm, sumTo_sub, if_pos hi] at hdiff
  omega

/-- A sum without positive terms is below zero if one of its terms is. -/
theorem sumTo_neg {n i : Nat} {f : Nat → Int} (h : ∀ j < n, f j ≤ 0) (hi : i < n) (hneg : f i < 0) :
    sumTo n f < 0 := by
  have hle : sumTo n f ≤ sumTo n fun j => if i = j then f j else 0 := by
    refine sumTo_le_sumTo fun j hj => ?_
    split
    · exact Int.le_refl _
    · exact h j hj
  rw [sumTo_single, if_pos hi] at hle
  omega

/-! ### Sums over lists -/

/-- A sum over a list with its indices. -/
theorem sum_map_zipIdx {α : Type} (l : List α) (f : α → Nat → Int) :
    (l.zipIdx.map fun p => f p.1 p.2).sum = sumTo l.length fun i => (l[i]?.map (f · i)).getD 0 := by
  have key : ∀ k, ((l.zipIdx k).map fun p => f p.1 p.2).sum
      = sumTo l.length fun i => (l[i]?.map (f · (k + i))).getD 0 := by
    induction l with
    | nil => intro k; rfl
    | cons a l ih =>
      intro k
      rw [List.zipIdx_cons, List.map_cons, List.sum_cons, ih, List.length_cons, sumTo_succ']
      simp [Nat.add_comm, Nat.add_left_comm]
  simpa using key 0

/-- A sum over a list, by index. -/
theorem sum_map_eq_sumTo {α : Type} (l : List α) (f : α → Int) :
    (l.map f).sum = sumTo l.length fun i => (l[i]?.map f).getD 0 := by
  induction l with
  | nil => rfl
  | cons a l ih => rw [List.map_cons, List.sum_cons, ih, List.length_cons, sumTo_succ']; simp

/-- A sum over the entries of a list. -/
theorem sum_eq_sumTo (l : List Int) : l.sum = sumTo l.length fun i => l.getD i 0 := by
  have h := sum_map_eq_sumTo l id
  rw [List.map_id] at h
  rw [h]
  apply sumTo_congr
  intro i _
  rw [List.getD_eq_getElem?_getD, Option.map_id, id]

@[simp] theorem sum_map_zero {α : Type} (l : List α) : (l.map fun _ => (0 : Int)).sum = 0 := by
  induction l with
  | nil => rfl
  | cons a l ih => rw [List.map_cons, List.sum_cons, ih]; rfl

theorem sum_map_add {α : Type} (l : List α) (f g : α → Int) :
    (l.map fun a => f a + g a).sum = (l.map f).sum + (l.map g).sum := by
  induction l with
  | nil => rfl
  | cons a l ih => simp only [List.map_cons, List.sum_cons, ih]; omega

theorem sum_map_mul {α : Type} (l : List α) (k : Int) (f : α → Int) :
    (l.map fun a => k * f a).sum = k * (l.map f).sum := by
  induction l with
  | nil => simp
  | cons a l ih => simp only [List.map_cons, List.sum_cons, ih, Int.mul_add]

/-- The terms that a `filterMap` drops count nothing. -/
theorem sum_map_filterMap {α β : Type} (l : List α) (g : α → Option β) (f : β → Int) :
    ((l.filterMap g).map f).sum = (l.map fun a => ((g a).map f).getD 0).sum := by
  induction l with
  | nil => rfl
  | cons a l ih =>
    rw [List.filterMap_cons]
    cases h : g a <;> simp [h, ih]

theorem sum_map_flatMap {α β : Type} (l : List α) (g : α → List β) (f : β → Int) :
    ((l.flatMap g).map f).sum = (l.map fun a => ((g a).map f).sum).sum := by
  induction l with
  | nil => rfl
  | cons a l ih => simp [List.flatMap_cons, ih]

end FusionMove
