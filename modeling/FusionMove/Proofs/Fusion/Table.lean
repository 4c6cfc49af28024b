import FusionMove.Sum
import FusionMove.Fusion.Table
import FusionMove.Proofs.Fusion.Gray

namespace FusionMove.Fusion

/-!
# What the fusion tables hold

Both walks visit every mask once and leave behind what its entry is meant to be.

* `mix` — the labels of a fusion, `getD_tabulate` — a filled table holds their energies;
* `linear` — the sum with one term a member, `getD_discount` — what a discount takes away;
* `fill?_eq_ok`, `reduce?_eq_ok` — on labels, terms and tables that are long enough, no step of a
  walk misses an entry.
-/

open scoped CoreArithmetic

/-- The labels of the fusion at `mask`: the fused label inside of the mask, the current one
    outside. -/
def mix (current fused : List Nat) (mask : Nat) : List Nat :=
  current.zipIdx.map fun p => if mask.testBit p.2 then fused.getD p.2 0 else p.1

/-- One term a member: the fused term inside of the mask, the current one outside. -/
def linear (k : Nat) (fused current : List Int) (mask : Nat) : Int :=
  sumTo k fun p => if mask.testBit p then fused.getD p 0 else current.getD p 0

@[simp] theorem length_mix (current fused : List Nat) (mask : Nat) :
    (mix current fused mask).length = current.length := by
  simp [mix]

theorem getElem?_mix (current fused : List Nat) (mask p : Nat) :
    (mix current fused mask)[p]?
      = current[p]?.map fun l => if mask.testBit p then fused.getD p 0 else l := by
  simp [mix, List.getElem?_zipIdx, Option.map_map, Function.comp_def]

theorem mix_zero (current fused : List Nat) : mix current fused 0 = current := by
  apply List.ext_getElem?
  intro p
  rw [getElem?_mix]
  simp

/-- A step of the walk patches one label. -/
theorem mix_code_succ (current fused : List Nat) (n : Nat) :
    mix current fused (Gray.code (n + 1))
      = (mix current fused (Gray.code n)).set (Gray.flipped (n + 1))
          (if (Gray.code (n + 1)).testBit (Gray.flipped (n + 1))
            then fused.getD (Gray.flipped (n + 1)) 0
            else current.getD (Gray.flipped (n + 1)) 0) := by
  apply List.ext_getElem?
  intro p
  rw [List.getElem?_set, getElem?_mix]
  by_cases h : Gray.flipped (n + 1) = p
  · subst h
    by_cases hp : Gray.flipped (n + 1) < current.length
    · simp [hp]
    · simp [hp]
  · have hp : p ≠ Gray.flipped (n + 1) := fun heq => h heq.symm
    rw [if_neg h, getElem?_mix, Gray.testBit_code_succ, if_neg hp]

/-- Outside of the empty mask are all members. -/
theorem linear_zero (fused current : List Int) :
    linear current.length fused current 0 = current.sum := by
  rw [sum_eq_sumTo, linear]
  simp

/-- A step of the walk exchanges one term. -/
theorem linear_code_succ {k n : Nat} (h : n + 1 < 2 ^ k) (fused current : List Int) :
    linear k fused current (Gray.code (n + 1))
      = if (Gray.code (n + 1)).testBit (Gray.flipped (n + 1))
        then linear k fused current (Gray.code n)
          + (fused.getD (Gray.flipped (n + 1)) 0 - current.getD (Gray.flipped (n + 1)) 0)
        else linear k fused current (Gray.code n)
          - (fused.getD (Gray.flipped (n + 1)) 0 - current.getD (Gray.flipped (n + 1)) 0) := by
  have hflip := Gray.testBit_code_succ n (Gray.flipped (n + 1))
  rw [if_pos rfl] at hflip
  -- off the flipped member the two codes agree
  have hsum := sumTo_eq_add_of_eq_off
    (f := fun p => if (Gray.code (n + 1)).testBit p then fused.getD p 0 else current.getD p 0)
    (g := fun p => if (Gray.code n).testBit p then fused.getD p 0 else current.getD p 0)
    (Gray.flipped_lt h) fun p _ hp => by rw [Gray.testBit_code_succ, if_neg hp]
  rw [linear, linear, hsum, hflip]
  cases (Gray.code n).testBit (Gray.flipped (n + 1))
  · simp
  · simp
    omega

/-! ### Filling a table -/

/-- A walk that has come to step `n` has filled the entries of its first `n + 1` masks. -/
private structure Filled (energy : List Nat → Int) (current fused : List Nat) (table : Array Int)
    (n : Nat) (w : Tabulation) : Prop where
  labels_eq : w.labels = mix current fused (Gray.code n)
  size_eq : w.table.size = table.size
  visited : ∀ j ≤ n, w.table.getD (Gray.code j) 0 = energy (mix current fused (Gray.code j))
  rest : ∀ t, (∀ j ≤ n, Gray.code j ≠ t) → w.table.getD t 0 = table.getD t 0

private theorem filled {energy : List Nat → Int} {current fused : List Nat} {table : Array Int}
    (hsize : 2 ^ current.length ≤ table.size) :
    Filled energy current fused table (2 ^ current.length - 1)
      ((Gray.walk current.length).foldl (Tabulation.step energy current fused)
        ⟨current, table.setIfInBounds 0 (energy current)⟩) := by
  have hpos := Nat.two_pow_pos current.length
  apply Gray.foldl_walk
  · refine ⟨by rw [Gray.code_zero, mix_zero], by simp, fun j hj => ?_, fun t ht => ?_⟩
    · obtain rfl := Nat.le_zero.mp hj
      rw [getD_setIfInBounds _ _ _ _ _ (by omega), Gray.code_zero, mix_zero, if_pos rfl]
    · rw [getD_setIfInBounds _ _ _ _ _ (by omega), if_neg]
      exact ht 0 (Nat.le_refl 0)
  · intro n w hn hw
    have hcode : Gray.code (n + 1) < w.table.size := by
      have := Gray.code_lt hn
      rw [hw.size_eq]
      omega
    -- the step patches the labels first and evaluates what it then has
    have hlabels : (Tabulation.step energy current fused w (n + 1)).labels
        = mix current fused (Gray.code (n + 1)) := by
      rw [mix_code_succ, ← hw.labels_eq]
      rfl
    have htable : (Tabulation.step energy current fused w (n + 1)).table
        = w.table.setIfInBounds (Gray.code (n + 1))
            (energy (mix current fused (Gray.code (n + 1)))) := by
      rw [← hlabels]
      rfl
    refine ⟨hlabels, by rw [htable, Array.size_setIfInBounds, hw.size_eq], fun j hj => ?_,
      fun t ht => ?_⟩
    · rw [htable, getD_setIfInBounds _ _ _ _ _ hcode]
      by_cases heq : Gray.code (n + 1) = Gray.code j
      · rw [if_pos heq, heq]
      · have hne : j ≠ n + 1 := fun h => heq (by rw [h])
        rw [if_neg heq]
        exact hw.visited j (by omega)
    · rw [htable, getD_setIfInBounds _ _ _ _ _ hcode, if_neg (ht (n + 1) (Nat.le_refl _))]
      exact hw.rest t fun j hj => ht j (by omega)

@[simp] theorem size_tabulate {energy : List Nat → Int} {current fused : List Nat}
    {table : Array Int} (hsize : 2 ^ current.length ≤ table.size) :
    (tabulate energy current fused table).size = table.size :=
  (filled hsize).size_eq

/-- A filled table holds at every mask the energy of its fusion. -/
theorem getD_tabulate {energy : List Nat → Int} {current fused : List Nat} {table : Array Int}
    (hsize : 2 ^ current.length ≤ table.size) {mask : Nat} (hmask : mask < 2 ^ current.length) :
    (tabulate energy current fused table).getD mask 0 = energy (mix current fused mask) := by
  obtain ⟨j, hj, rfl⟩ := Gray.exists_code hmask
  exact (filled hsize).visited j (by omega)

/-- Entries past the masks stay. -/
theorem getD_tabulate_of_le {energy : List Nat → Int} {current fused : List Nat}
    {table : Array Int} (hsize : 2 ^ current.length ≤ table.size) {t : Nat}
    (ht : 2 ^ current.length ≤ t) :
    (tabulate energy current fused table).getD t 0 = table.getD t 0 := by
  refine (filled hsize).rest t fun j hj heq => ?_
  have hpos := Nat.two_pow_pos current.length
  have := Gray.code_lt (a := j) (k := current.length) (by omega)
  omega

/-! ### Discounting a table -/

/-- A walk that has come to step `n` has discounted the entries of its first `n + 1` masks. -/
private structure Discounted (table : Array Int) (fused current : List Int) (n : Nat)
    (w : Discount) : Prop where
  linear_eq : w.linear = linear current.length fused current (Gray.code n)
  size_eq : w.table.size = table.size
  visited : ∀ j ≤ n, w.table.getD (Gray.code j) 0
    = table.getD (Gray.code j) 0 - linear current.length fused current (Gray.code j)
  rest : ∀ t, (∀ j ≤ n, Gray.code j ≠ t) → w.table.getD t 0 = table.getD t 0

private theorem discounted {table : Array Int} {fused current : List Int}
    (hsize : 2 ^ current.length ≤ table.size) :
    Discounted table fused current (2 ^ current.length - 1)
      ((Gray.walk current.length).foldl (Discount.step fused current)
        ⟨current.sum, table.modify 0 (· - current.sum)⟩) := by
  have hpos := Nat.two_pow_pos current.length
  have hsum : current.sum = linear current.length fused current (Gray.code 0) :=
    (linear_zero fused current).symm
  apply Gray.foldl_walk
  · refine ⟨hsum, by simp, fun j hj => ?_, fun t ht => ?_⟩
    · obtain rfl := Nat.le_zero.mp hj
      rw [getD_modify, Gray.code_zero, if_pos ⟨by omega, rfl⟩, hsum, Gray.code_zero]
    · exact (getD_modify ..).trans (if_neg fun heq => ht 0 (Nat.le_refl 0) heq.2)
  · intro n w hn hw
    have hcode : Gray.code (n + 1) < w.table.size := by
      have := Gray.code_lt hn
      rw [hw.size_eq]
      omega
    have hlinear : (Discount.step fused current w (n + 1)).linear
        = linear current.length fused current (Gray.code (n + 1)) := by
      rw [linear_code_succ hn, ← hw.linear_eq]
      rfl
    have htable : (Discount.step fused current w (n + 1)).table
        = w.table.modify (Gray.code (n + 1))
            (· - linear current.length fused current (Gray.code (n + 1))) := by
      rw [← hlinear]
      rfl
    refine ⟨hlinear, by rw [htable, Array.size_modify, hw.size_eq], fun j hj => ?_, fun t ht => ?_⟩
    · rw [htable, getD_modify]
      by_cases hlast : j = n + 1
      · -- the mask of this step has not been visited before
        subst hlast
        rw [if_pos ⟨hcode, rfl⟩, hw.rest _ fun i hi heq => ?_]
        have := Gray.code_injective heq
        omega
      · rw [if_neg fun heq => hlast (Gray.code_injective heq.2).symm]
        exact hw.visited j (by omega)
    · rw [htable, getD_modify, if_neg fun heq => ht (n + 1) (Nat.le_refl _) heq.2]
      exact hw.rest t fun j hj => ht j (by omega)

@[simp] theorem size_discount {table : Array Int} {fused current : List Int}
    (hsize : 2 ^ current.length ≤ table.size) :
    (discount table fused current).size = table.size :=
  (discounted hsize).size_eq

/-- A discount takes from every mask the sum of its terms. -/
theorem getD_discount {table : Array Int} {fused current : List Int}
    (hsize : 2 ^ current.length ≤ table.size) {mask : Nat} (hmask : mask < 2 ^ current.length) :
    (discount table fused current).getD mask 0
      = table.getD mask 0 - linear current.length fused current mask := by
  obtain ⟨j, hj, rfl⟩ := Gray.exists_code hmask
  exact (discounted hsize).visited j (by omega)

/-- Entries past the masks stay. -/
theorem getD_discount_of_le {table : Array Int} {fused current : List Int}
    (hsize : 2 ^ current.length ≤ table.size) {t : Nat} (ht : 2 ^ current.length ≤ t) :
    (discount table fused current).getD t 0 = table.getD t 0 := by
  refine (discounted hsize).rest t fun j hj heq => ?_
  have hpos := Nat.two_pow_pos current.length
  have := Gray.code_lt (a := j) (k := current.length) (by omega)
  omega

/-! ### Access by access -/

/-- The step that the walk over the masks of `k` bits takes at `a` flips one of the `k` bits, and
    comes to one of the masks. -/
theorem walk_step {a k : Nat} (ha : a ∈ Gray.walk k) :
    Gray.flipped a < k ∧ Gray.code a < 2 ^ k := by
  obtain ⟨hpos, hlt⟩ := List.mem_range'_1.mp ha
  have hmasks := Nat.two_pow_pos k
  obtain ⟨n, rfl⟩ : ∃ n, a = n + 1 := ⟨a - 1, by omega⟩
  exact ⟨Gray.flipped_lt (by omega), Gray.code_lt (by omega)⟩

/-- Both label lists have a label for each of the `k` members. -/
theorem present_label {current fused : List Nat} (hlength : current.length ≤ fused.length) {i : Nat}
    (hi : i < current.length) (taken : Bool) :
    present (if taken then fused[i]? else current[i]?)
      = .ok (if taken then fused.getD i 0 else current.getD i 0) := by
  cases taken with
  | true => exact present_list (by omega) 0
  | false => exact present_list hi 0

/-- Filling a table misses no entry. -/
theorem fill?_eq_ok (energy : List Nat → Int) {current fused : List Nat} {table : Array Int}
    (hfits : Fits current.length fused.length table.size) :
    fill? energy current fused table = .ok (tabulate energy current fused table) := by
  obtain ⟨hlength, hsize⟩ := hfits
  have hpos := Nat.two_pow_pos current.length
  have hstep : ∀ a ∈ Gray.walk current.length, ∀ w : Tabulation,
      w.labels.length = current.length ∧ w.table.size = table.size →
      Tabulation.step? energy current fused w a = .ok (Tabulation.step energy current fused w a) ∧
        (Tabulation.step energy current fused w a).labels.length = current.length ∧
        (Tabulation.step energy current fused w a).table.size = table.size := by
    rintro a ha w ⟨hlabels, htable⟩
    obtain ⟨hflip, hcode⟩ := walk_step ha
    refine ⟨?_, by simp [Tabulation.step, hlabels], by simp [Tabulation.step, htable]⟩
    rw [Tabulation.step?, present_label hlength hflip, ok_bind, present_list (by omega) 0, ok_bind]
    dsimp only
    rw [setAt?_eq_ok (by omega)]
    rfl
  have hwalk := foldlM_eq_ok hstep
    (b := ⟨current, table.setIfInBounds 0 (energy current)⟩) ⟨rfl, Array.size_setIfInBounds⟩
  rw [fill?, setAt?_eq_ok (by omega), ok_bind, hwalk.1]
  rfl

/-- Nor does discounting one. -/
theorem reduce?_eq_ok {table : Array Int} {fused current : List Int}
    (hfits : Fits current.length fused.length table.size) :
    reduce? table fused current = .ok (discount table fused current) := by
  obtain ⟨hlength, hsize⟩ := hfits
  have hpos := Nat.two_pow_pos current.length
  have hstep : ∀ a ∈ Gray.walk current.length, ∀ w : Discount, w.table.size = table.size →
      Discount.step? fused current w a = .ok (Discount.step fused current w a) ∧
        (Discount.step fused current w a).table.size = table.size := by
    intro a ha w htable
    obtain ⟨hflip, hcode⟩ := walk_step ha
    refine ⟨?_, by simp [Discount.step, htable]⟩
    rw [Discount.step?, present_list (by omega) 0, ok_bind, present_list hflip 0, ok_bind]
    dsimp only
    rw [modifyAt?_eq_ok (by omega)]
    rfl
  have hwalk := foldlM_eq_ok hstep (b := ⟨current.sum, table.modify 0 (· - current.sum)⟩)
    Array.size_modify
  rw [reduce?, modifyAt?_eq_ok (by omega), ok_bind, hwalk.1]
  rfl

end FusionMove.Fusion
