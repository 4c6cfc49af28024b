import FusionMove.Cut.Network
import FusionMove.Proofs.Mask.Lattice
import Mathlib.Tactic.Linarith

namespace FusionMove.Mask

/-!
# Submodular functions of masks

A function `g` of masks is *submodular* on the subsets of `free` if union and intersection of two
masks cost together at most what the two cost.  Sums over members are modular, so subtracting one
keeps a function submodular.

For a submodular function `s ≥ 0` (a *slack*) call a mask tight if `s` vanishes on it.

* `Submodular.tight_or_and` — tight masks are closed under union and intersection;
* `Submodular.eq_zero_of_blocked` — a mask is tight if each of its members is kept apart from each
  free member outside by some tight mask;
* `Submodular.crossing_le` — arcs without shortcuts can be used all at once: a slack that allows
  each arc of a list on its own, and no arc from an earlier tail to a later head, allows them
  together;
* `greedy_le` — the greedy base of a submodular table lies below the table.
-/

open scoped CoreArithmetic

/-- On the subsets of `free`, union and intersection cost together at most what the two masks
    cost. -/
def Submodular (free : Nat) (g : Nat → Int) : Prop :=
  ∀ s t, Within s free → Within t free → g (s ||| t) + g (s &&& t) ≤ g s + g t

/-- Submodularity can be checked, since subsets of `free` are numbers up to it. -/
instance (free : Nat) (g : Nat → Int) : Decidable (Submodular free g) :=
  decidable_of_iff (∀ s < free + 1, ∀ t < free + 1, Within s free → Within t free →
      g (s ||| t) + g (s &&& t) ≤ g s + g t)
    ⟨fun h s t hs ht => h s (Nat.lt_succ_of_le hs.le) t (Nat.lt_succ_of_le ht.le) hs ht,
      fun h s _ t _ => h s t⟩

/-- `g` is not negative on the subsets of `free`. -/
def Nonneg (free : Nat) (g : Nat → Int) : Prop :=
  ∀ t, Within t free → 0 ≤ g t

/-- Some tight mask contains `p` but not `q`. -/
def Blocked (free : Nat) (s : Nat → Int) (p q : Nat) : Prop :=
  ∃ t, Within t free ∧ t.testBit p = true ∧ t.testBit q = false ∧ s t = 0

variable {free : Nat} {g s : Nat → Int}

/-- Equal values on the subsets of `free` are as submodular. -/
theorem Submodular.congr {h : Nat → Int} (hg : Submodular free g)
    (heq : ∀ t, Within t free → h t = g t) : Submodular free h := by
  intro a b ha hb
  rw [heq _ (ha.or hb), heq _ (ha.and_left b), heq a ha, heq b hb]
  exact hg a b ha hb

/-- A submodular function less a constant and a sum over members. -/
theorem Submodular.sub_sum (hg : Submodular free g) (c : Int) (k : Nat) (f : Nat → Int) :
    Submodular free fun t => g t - c - sum k f t := by
  intro a b ha hb
  have hm := sum_or_add_sum_and k f a b
  have hab := hg a b ha hb
  show g (a ||| b) - c - sum k f (a ||| b) + (g (a &&& b) - c - sum k f (a &&& b))
    ≤ g a - c - sum k f a + (g b - c - sum k f b)
  omega

/-! ### Tight masks -/

/-- Tight masks are closed under union and intersection. -/
theorem Submodular.tight_or_and (hs : Submodular free s) (h0 : Nonneg free s) {a b : Nat}
    (ha : Within a free) (hb : Within b free) (hsa : s a = 0) (hsb : s b = 0) :
    s (a ||| b) = 0 ∧ s (a &&& b) = 0 := by
  have hab := hs a b ha hb
  have hor := h0 _ (ha.or hb)
  have hand := h0 _ (ha.and_left b)
  omega

/-- A tight mask that contains `p` and avoids every free member outside of `m` below `j`. -/
private theorem exists_tight_avoiding (hs : Submodular free s) (h0 : Nonneg free s)
    (hfree : s free = 0) {m p : Nat} (hp : free.testBit p = true)
    (hb : ∀ q, free.testBit q = true → m.testBit q = false → Blocked free s p q) (j : Nat) :
    ∃ t, Within t free ∧ t.testBit p = true ∧ s t = 0 ∧
      ∀ q < j, m.testBit q = false → t.testBit q = false := by
  induction j with
  | zero => exact ⟨free, within_refl free, hp, hfree, fun q hq => absurd hq (by omega)⟩
  | succ j ih =>
    obtain ⟨t, ht, htp, hts, havoid⟩ := ih
    by_cases hj : free.testBit j = true ∧ m.testBit j = false
    · -- intersect with the mask that keeps `p` from `j`
      obtain ⟨a, ha, hap, haj, has⟩ := hb j hj.1 hj.2
      refine ⟨t &&& a, ht.and_left a, by simp [htp, hap],
        (hs.tight_or_and h0 ht ha hts has).2, fun q hq hm => ?_⟩
      rcases Nat.lt_succ_iff_lt_or_eq.mp hq with hq | rfl
      · simp [havoid q hq hm]
      · simp [haj]
    · refine ⟨t, ht, htp, hts, fun q hq hm => ?_⟩
      rcases Nat.lt_succ_iff_lt_or_eq.mp hq with hq | rfl
      · exact havoid q hq hm
      · -- `q` is not free, so no subset of `free` holds it
        by_contra htq
        exact hj ⟨ht.testBit (by simpa using htq), hm⟩

/-- A mask is tight if every member of it is kept apart from every free member outside. -/
theorem Submodular.eq_zero_of_blocked (hs : Submodular free s) (h0 : Nonneg free s)
    (hempty : s 0 = 0) (hfree : s free = 0) {k m : Nat} (hk : free < 2 ^ k) (hm : Within m free)
    (hb : ∀ p q, m.testBit p = true → free.testBit q = true → m.testBit q = false →
      Blocked free s p q) : s m = 0 := by
  -- the union of tight masks inside `m`, one for each member
  have key : ∀ j, ∃ t, Within t m ∧ s t = 0 ∧ ∀ p < j, m.testBit p = true → t.testBit p = true := by
    intro j
    induction j with
    | zero => exact ⟨0, within_zero m, hempty, fun p hp => absurd hp (by omega)⟩
    | succ j ih =>
      obtain ⟨t, ht, hts, hall⟩ := ih
      by_cases hj : m.testBit j = true
      · obtain ⟨a, ha, haj, has, havoid⟩ :=
          exists_tight_avoiding hs h0 hfree (hm.testBit hj) (hb j · hj) k
        -- it avoids all that is free outside of `m`, so it lies inside
        have ham : Within a m := by
          rw [within_iff]
          intro q hq
          by_contra hmq
          rw [Bool.not_eq_true] at hmq
          rw [havoid q (lt_of_testBit hk (ha.testBit hq)) hmq] at hq
          exact Bool.false_ne_true hq
        have htf : Within t free := within_iff.mpr fun p hp => hm.testBit (ht.testBit hp)
        refine ⟨t ||| a, ht.or ham, (hs.tight_or_and h0 htf ha hts has).1, fun p hp hmp => ?_⟩
        rcases Nat.lt_succ_iff_lt_or_eq.mp hp with hp | rfl
        · simp [hall p hp hmp]
        · simp [haj]
      · refine ⟨t, ht, hts, fun p hp hmp => ?_⟩
        rcases Nat.lt_succ_iff_lt_or_eq.mp hp with hp | rfl
        · exact hall p hp hmp
        · exact absurd hmp hj
  obtain ⟨t, ht, hts, hall⟩ := key k
  have hmt : Within m t :=
    within_iff.mpr fun p hp => hall p (lt_of_testBit (hm.lt hk) hp) hp
  rwa [hmt.antisymm ht]

/-! ### Several arcs at once -/

/-- How many more arcs leave `t` than enter it. -/
def crossing (arcs : List (Nat × Nat)) (t : Nat) : Int :=
  (arcs.map fun a => (if t.testBit a.1 then 1 else 0) - (if t.testBit a.2 then 1 else 0)).sum

@[simp] theorem crossing_nil (t : Nat) : crossing [] t = 0 := rfl

@[simp] theorem crossing_cons (a : Nat × Nat) (arcs : List (Nat × Nat)) (t : Nat) :
    crossing (a :: arcs) t
      = ((if t.testBit a.1 then 1 else 0) - (if t.testBit a.2 then 1 else 0)) + crossing arcs t :=
  rfl

/-- Crossing is modular. -/
theorem crossing_or_add_crossing_and (arcs : List (Nat × Nat)) (a b : Nat) :
    crossing arcs (a ||| b) + crossing arcs (a &&& b) = crossing arcs a + crossing arcs b := by
  induction arcs with
  | nil => rfl
  | cons e arcs ih =>
    simp only [crossing_cons, Nat.testBit_or, Nat.testBit_and]
    cases a.testBit e.1 <;> cases a.testBit e.2 <;> cases b.testBit e.1 <;>
      cases b.testBit e.2 <;> simp <;> omega

/-- The slack that is left when an arc has been used. -/
private def less (s : Nat → Int) (a : Nat × Nat) (t : Nat) : Int :=
  s t - crossing [a] t

private theorem less_eq (s : Nat → Int) (a : Nat × Nat) (t : Nat) :
    less s a t = s t - (if t.testBit a.1 then 1 else 0) + if t.testBit a.2 then 1 else 0 := by
  rw [less, crossing_cons, crossing_nil]
  omega

private theorem submodular_less (hs : Submodular free s) (a : Nat × Nat) :
    Submodular free (less s a) := by
  intro x y hx hy
  have hxy := hs x y hx hy
  have hm := crossing_or_add_crossing_and [a] x y
  show s (x ||| y) - crossing [a] (x ||| y) + (s (x &&& y) - crossing [a] (x &&& y))
    ≤ s x - crossing [a] x + (s y - crossing [a] y)
  omega

/-- A mask that the arc leaves had slack, and gives up one unit of it. -/
private theorem nonneg_less {a : Nat × Nat} (h0 : Nonneg free s)
    (hpos : ∀ t, Within t free → t.testBit a.1 = true → t.testBit a.2 = false → 0 < s t) :
    Nonneg free (less s a) := by
  intro x hx
  rw [less_eq]
  have hx0 := h0 x hx
  have hx1 := hpos x hx
  cases h1 : x.testBit a.1 <;> cases h2 : x.testBit a.2 <;> simp [h1, h2] at hx1 ⊢ <;> omega

/-- A tight mask that does not hold the head of the arc does not hold its tail either, and stays
    tight. -/
private theorem less_of_tight {a : Nat × Nat}
    (hpos : ∀ t, Within t free → t.testBit a.1 = true → t.testBit a.2 = false → 0 < s t) {x : Nat}
    (hx : Within x free) (h2 : x.testBit a.2 = false) (hx0 : s x = 0) :
    x.testBit a.1 = false ∧ less s a x = 0 := by
  have h1 : x.testBit a.1 = false := by
    by_contra h1
    have := hpos x hx (by simpa using h1) h2
    omega
  refine ⟨h1, ?_⟩
  rw [less_eq, h1, h2]
  simpa using hx0

/-- An earlier arc whose tail is kept from the head of `a` can be used after `a`. -/
private theorem less_pos (hs : Submodular free s) (h0 : Nonneg free s) {a e : Nat × Nat}
    (hposa : ∀ t, Within t free → t.testBit a.1 = true → t.testBit a.2 = false → 0 < s t)
    (hpose : ∀ t, Within t free → t.testBit e.1 = true → t.testBit e.2 = false → 0 < s t)
    (hblocked : Blocked free s e.1 a.2) {x : Nat} (hx : Within x free) (hx1 : x.testBit e.1 = true)
    (hx2 : x.testBit e.2 = false) : 0 < less s a x := by
  obtain ⟨y, hy, hy1, hy2, hy0⟩ := hblocked
  obtain ⟨hya, hys⟩ := less_of_tight hposa hy hy2 hy0
  have hnonneg := nonneg_less h0 hposa
  by_contra hle
  have hx0 : less s a x = 0 := by have := hnonneg x hx; omega
  -- then the intersection with `y` is tight for `s` as well, but `e` leaves it
  have hand := ((submodular_less hs a).tight_or_and hnonneg hx hy hx0 hys).2
  rw [less_eq, Nat.testBit_and, Nat.testBit_and, hya, hy2] at hand
  have := hpose (x &&& y) (hx.and_left y) (by simp [hx1, hy1]) (by simp [hx2])
  simp at hand
  omega

/-- What an earlier arc is kept from, it is kept from after `a` as well. -/
private theorem less_blocked (hs : Submodular free s) (h0 : Nonneg free s) {a : Nat × Nat}
    (hposa : ∀ t, Within t free → t.testBit a.1 = true → t.testBit a.2 = false → 0 < s t) {p q : Nat}
    (ha : Blocked free s p a.2) (hq : Blocked free s p q) : Blocked free (less s a) p q := by
  obtain ⟨y, hy, hy1, hy2, hy0⟩ := ha
  obtain ⟨z, hz, hz1, hz2, hz0⟩ := hq
  -- intersected with what blocks it from the head of `a`, a tight mask stays tight
  refine ⟨z &&& y, hz.and_left y, by simp [hy1, hz1], by simp [hz2], ?_⟩
  exact (less_of_tight hposa (hz.and_left y) (by simp [hy2])
    (hs.tight_or_and h0 hz hy hz0 hy0).2).2

/-- Arcs without shortcuts can be used all at once.  The list starts with the last arc. -/
theorem Submodular.crossing_le {arcs : List (Nat × Nat)} (hs : Submodular free s)
    (h0 : Nonneg free s)
    (hpos : ∀ a ∈ arcs, ∀ t, Within t free → t.testBit a.1 = true → t.testBit a.2 = false → 0 < s t)
    (hsep : arcs.Pairwise fun later earlier => Blocked free s earlier.1 later.2)
    {t : Nat} (ht : Within t free) : crossing arcs t ≤ s t := by
  -- use the last arc first: the masks that keep earlier tails from its head stay tight
  induction arcs generalizing s t with
  | nil => simpa using h0 t ht
  | cons a arcs ih =>
    rw [List.pairwise_cons] at hsep
    have hposa := hpos a (by simp)
    have hle := ih (submodular_less hs a) (nonneg_less h0 hposa)
      (fun e he x hx => less_pos hs h0 hposa (hpos e (by simp [he])) (hsep.1 e he) hx)
      (hsep.2.imp_of_mem fun _ he => less_blocked hs h0 hposa (hsep.1 _ he)) ht
    rw [less_eq] at hle
    rw [crossing_cons]
    omega

/-! ### The greedy base -/

/-- The members of `mask` up to `p` are those below `p` and, if it is a member, `p`. -/
private theorem below_succ_of_not {mask p : Nat} (h : mask.testBit p = false) :
    mask % 2 ^ (p + 1) = mask % 2 ^ p := by
  apply Nat.eq_of_testBit_eq
  intro q
  rw [testBit_below, testBit_below]
  by_cases hq : q = p
  · subst hq; simp [h]
  · have : q < p + 1 ↔ q < p := by omega
    simp [this]

/-- Summed over the members below `j`, the greedy base lies below the table. -/
private theorem greedy_le_below {table : Nat → Int} (hg : Submodular free table) {t : Nat}
    (ht : Within t free) (j : Nat) :
    sum j (Cut.Channel.greedyBase table free) t ≤ table (t % 2 ^ j) - table 0 := by
  -- what member `j` adds to `t` is at least what it adds to all the free members below it
  induction j with
  | zero => simp [sum, Nat.mod_one]
  | succ j ih =>
    rw [sum, sumTo_succ, ← sum]
    by_cases hj : t.testBit j = true
    · rw [if_pos hj, Cut.Channel.greedyBase]
      -- the union with the free members below `j` is the free members up to `j`
      have hor : t % 2 ^ (j + 1) ||| free % 2 ^ j = free % 2 ^ (j + 1) := by
        apply Nat.eq_of_testBit_eq
        intro q
        rw [Nat.testBit_or, testBit_below, testBit_below, testBit_below]
        rcases Nat.lt_trichotomy q j with hq | rfl | hq
        · have hq' : q < j + 1 := by omega
          cases htq : t.testBit q
          · simp [hq, hq']
          · simp [hq, hq', ht.testBit htq]
        · simp [hj, ht.testBit hj]
        · have h1 : ¬ q < j := by omega
          have h2 : ¬ q < j + 1 := by omega
          simp [h1, h2]
      -- and the intersection with them is what `t` has below `j`
      have hand : t % 2 ^ (j + 1) &&& free % 2 ^ j = t % 2 ^ j := by
        apply Nat.eq_of_testBit_eq
        intro q
        rw [Nat.testBit_and, testBit_below, testBit_below, testBit_below]
        by_cases hq : q < j
        · have hq' : q < j + 1 := by omega
          cases htq : t.testBit q
          · simp
          · simp [hq, hq', ht.testBit htq]
        · simp [hq]
      have htj : Within (t % 2 ^ (j + 1)) free :=
        within_iff.mpr fun q hq => ht.testBit ((below_within t _).testBit hq)
      have hsub := hg _ _ htj (below_within free j)
      rw [hor, hand] at hsub
      omega
    · rw [Bool.not_eq_true] at hj
      rw [hj, below_succ_of_not hj]
      simpa using ih

/-- The greedy base of a submodular table lies below the table. -/
theorem greedy_le {table : Nat → Int} (hg : Submodular free table) {k t : Nat}
    (hk : free < 2 ^ k) (ht : Within t free) :
    sum k (Cut.Channel.greedyBase table free) t ≤ table t - table 0 := by
  have := greedy_le_below hg ht k
  rwa [Nat.mod_eq_of_lt (ht.lt hk)] at this

/-- Over all free members the greedy base meets the table, whatever the table. -/
theorem greedy_free (table : Nat → Int) {k : Nat} (hk : free < 2 ^ k) :
    sum k (Cut.Channel.greedyBase table free) free = table free - table 0 := by
  have key : ∀ j, sum j (Cut.Channel.greedyBase table free) free
      = table (free % 2 ^ j) - table 0 := by
    intro j
    induction j with
    | zero => simp [sum, Nat.mod_one]
    | succ j ih =>
      rw [sum, sumTo_succ, ← sum, ih]
      by_cases hj : free.testBit j = true
      · rw [if_pos hj, Cut.Channel.greedyBase]; omega
      · rw [Bool.not_eq_true] at hj
        rw [hj, below_succ_of_not hj]; simp
  rw [key k, Nat.mod_eq_of_lt hk]

/-- A member that is not free has no base. -/
theorem greedyBase_of_not_free (table : Nat → Int) {p : Nat} (hp : free.testBit p = false) :
    Cut.Channel.greedyBase table free p = 0 := by
  rw [Cut.Channel.greedyBase, below_succ_of_not hp]
  omega

end FusionMove.Mask
