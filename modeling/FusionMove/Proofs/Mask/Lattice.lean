import FusionMove.Mask

namespace FusionMove.Mask

/-!
# The lattice of masks

Masks are sets of members, with `|||` as union and `&&&` as intersection.

* `Mask.Within t mask` — every member of `t` is in `mask`;
* `Mask.sum_or_add_sum_and` — a sum over members is modular: union and intersection of two masks
  have together the sums of the two;
* `Mask.ofBits_map_within` — a set of nodes that lies in another has its mask there.
-/

open scoped CoreArithmetic

/-! ### Inclusion -/

/-- Every member of `t` is a member of `mask`. -/
def Within (t mask : Nat) : Prop :=
  t &&& mask = t

instance (t mask : Nat) : Decidable (Within t mask) :=
  inferInstanceAs (Decidable (_ = _))

theorem within_iff {t mask : Nat} :
    Within t mask ↔ ∀ p, t.testBit p = true → mask.testBit p = true := by
  constructor
  · intro h p hp
    rw [← h, Nat.testBit_and, Bool.and_eq_true] at hp
    exact hp.2
  · intro h
    apply Nat.eq_of_testBit_eq
    intro p
    rw [Nat.testBit_and]
    by_cases hp : t.testBit p = true
    · rw [hp, h p hp]; rfl
    · rw [Bool.not_eq_true] at hp
      rw [hp]; rfl

theorem Within.testBit {t mask p : Nat} (h : Within t mask) (hp : t.testBit p = true) :
    mask.testBit p = true :=
  within_iff.mp h p hp

theorem within_zero (mask : Nat) : Within 0 mask := by
  simp [Within]

theorem within_refl (mask : Nat) : Within mask mask :=
  Nat.and_self mask

theorem Within.or {s t mask : Nat} (hs : Within s mask) (ht : Within t mask) :
    Within (s ||| t) mask := by
  rw [within_iff]
  intro p hp
  rw [Nat.testBit_or, Bool.or_eq_true] at hp
  exact hp.elim hs.testBit ht.testBit

theorem Within.and_left {s mask : Nat} (hs : Within s mask) (t : Nat) :
    Within (s &&& t) mask := by
  rw [within_iff]
  intro p hp
  rw [Nat.testBit_and, Bool.and_eq_true] at hp
  exact hs.testBit hp.1

/-- Two sets of masks that contain each other's members are equal. -/
theorem Within.antisymm {s t : Nat} (hs : Within s t) (ht : Within t s) : s = t := by
  rw [← hs, ← ht, Nat.and_comm t s, ← Nat.and_assoc, Nat.and_self]

theorem Within.le {t mask : Nat} (h : Within t mask) : t ≤ mask := by
  rw [← h]
  exact Nat.and_le_right

/-- A subset of a mask of `k` bits has `k` bits. -/
theorem Within.lt {k t mask : Nat} (h : Within t mask) (hm : mask < 2 ^ k) : t < 2 ^ k :=
  Nat.lt_of_le_of_lt h.le hm

/-- A member of a mask of `k` bits is below `k`. -/
theorem lt_of_testBit {k mask p : Nat} (hm : mask < 2 ^ k) (hp : mask.testBit p = true) : p < k :=
  Decidable.byContradiction fun h =>
    absurd hp (by rw [Nat.testBit_lt_two_pow (Nat.lt_of_lt_of_le hm
      (Nat.pow_le_pow_right (by omega) (by omega)))]; simp)

/-- A proper subset lacks a member. -/
theorem Within.exists_missing {t mask : Nat} (h : Within t mask) (hne : t ≠ mask) :
    ∃ p, mask.testBit p = true ∧ t.testBit p = false := by
  by_cases hex : ∃ p, mask.testBit p = true ∧ t.testBit p = false
  · exact hex
  · refine absurd (h.antisymm (within_iff.mpr fun p hp => ?_)) hne
    cases hbit : t.testBit p with
    | true => rfl
    | false => exact absurd ⟨p, hp, hbit⟩ hex

/-- Of two members, a subset that holds one and lacks one is known. -/
theorem eq_of_two_bits {mask s t p q : Nat} (hmask : mask < 2 ^ (2 : Nat)) (hs : Within s mask)
    (ht : Within t mask) (hq : mask.testBit q = true) (hsp : s.testBit p = true)
    (htp : t.testBit p = true) (hsq : s.testBit q = false) (htq : t.testBit q = false) : s = t := by
  have hp2 : p < 2 := lt_of_testBit hmask (hs.testBit hsp)
  have hq2 : q < 2 := lt_of_testBit hmask hq
  have hne : p ≠ q := by
    rintro rfl
    exact absurd (hsp.symm.trans hsq) (by simp)
  apply Nat.eq_of_testBit_eq
  intro i
  by_cases hip : i = p
  · rw [hip, hsp, htp]
  by_cases hiq : i = q
  · rw [hiq, hsq, htq]
  -- there is no third member
  have hout : ∀ x, Within x mask → x.testBit i = false := by
    intro x hx
    refine Bool.eq_false_iff.mpr fun hi => ?_
    have := lt_of_testBit hmask (hx.testBit hi)
    omega
  rw [hout s hs, hout t ht]

/-- The members of `mask` that are below `p`. -/
theorem testBit_below (mask p q : Nat) :
    (mask % 2 ^ p).testBit q = (decide (q < p) && mask.testBit q) :=
  Nat.testBit_mod_two_pow mask p q

theorem below_within (mask p : Nat) : Within (mask % 2 ^ p) mask := by
  rw [within_iff]
  intro q hq
  rw [testBit_below, Bool.and_eq_true] at hq
  exact hq.2

/-- A subset of the `k`-bit mask is listed among its subsets. -/
theorem mem_subsets_iff {k mask t : Nat} (hm : mask < 2 ^ k) :
    t ∈ subsets k mask ↔ Within t mask := by
  rw [mem_subsets]
  exact ⟨fun h => h.2, fun h => ⟨Within.lt h hm, h⟩⟩

/-! ### Sums over masks -/

theorem sum_congr {k : Nat} {f g : Nat → Int} {mask : Nat}
    (h : ∀ p < k, mask.testBit p = true → f p = g p) : sum k f mask = sum k g mask := by
  apply sumTo_congr
  intro p hp
  by_cases hm : mask.testBit p = true
  · rw [if_pos hm, if_pos hm, h p hp hm]
  · rw [if_neg hm, if_neg hm]

/-- A sum over members is modular. -/
theorem sum_or_add_sum_and (k : Nat) (f : Nat → Int) (s t : Nat) :
    sum k f (s ||| t) + sum k f (s &&& t) = sum k f s + sum k f t := by
  simp only [sum]
  rw [← sumTo_add, ← sumTo_add]
  apply sumTo_congr
  intro p _
  rw [Nat.testBit_or, Nat.testBit_and]
  cases s.testBit p <;> cases t.testBit p <;> simp

theorem sum_add (k : Nat) (f g : Nat → Int) (mask : Nat) :
    sum k (fun p => f p + g p) mask = sum k f mask + sum k g mask := by
  simp only [sum]
  rw [← sumTo_add]
  apply sumTo_congr
  intro p _
  split <;> simp

theorem sum_mul (k : Nat) (a : Int) (f : Nat → Int) (mask : Nat) :
    sum k (fun p => a * f p) mask = a * sum k f mask := by
  simp only [sum]
  rw [← sumTo_mul]
  apply sumTo_congr
  intro p _
  split <;> simp

/-- A sum with a single term. -/
theorem sum_single (k q : Nat) (a : Int) (mask : Nat) (hq : q < k) :
    sum k (fun p => if p = q then a else 0) mask = if mask.testBit q then a else 0 := by
  have key : ∀ n, sumTo n (fun p => if mask.testBit p then if p = q then a else 0 else 0)
      = if q < n then (if mask.testBit q then a else 0) else 0 := by
    intro n
    induction n with
    | zero => rfl
    | succ n ih =>
      rw [sumTo_succ, ih]
      by_cases h : n = q
      · subst h; simp
      · have : q < n + 1 ↔ q < n := by omega
        simp [h, this]
  rw [sum, key k, if_pos hq]

/-! ### Masks of sets -/

theorem ofBits_map_lt (members : List Nat) (S : Nat → Bool) :
    ofBits (members.map S) < 2 ^ members.length := by
  simpa using ofBits_lt (members.map S)

theorem testBit_ofBits_map (members : List Nat) (S : Nat → Bool) (p : Nat) :
    (ofBits (members.map S)).testBit p = (members[p]?.map S).getD false := by
  rw [testBit_ofBits, List.getD_eq_getElem?_getD, List.getElem?_map]

/-- The mask of a smaller set lies in the mask of a larger one. -/
theorem ofBits_map_within {members : List Nat} {S T : Nat → Bool}
    (h : ∀ v ∈ members, S v = true → T v = true) :
    Within (ofBits (members.map S)) (ofBits (members.map T)) := by
  rw [within_iff]
  intro p hp
  rw [testBit_ofBits_map] at hp ⊢
  cases hv : members[p]? with
  | none => simp [hv] at hp
  | some v =>
    simp only [hv, Option.map_some, Option.getD_some] at hp ⊢
    exact h v (List.mem_of_getElem? hv) hp

end FusionMove.Mask
