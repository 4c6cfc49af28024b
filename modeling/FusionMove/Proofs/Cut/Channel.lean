import FusionMove.Cut.Oracle
import FusionMove.Proofs.Mask.Submodular
import Mathlib.Tactic.Linarith

namespace FusionMove.Cut.Channel

/-!
# Channels — a factor with what it carries

What a channel keeps of its factor while flow passes through:

* `Channel.Carries` — the slack of a mask is the table entry less the potentials of its members,
  and the free members carry nothing in total;
* `Carries.push` — a load that stays on the free members and sums to zero keeps this;
* `Carries.slackAt_free` — the set of all free members is tight, whatever the table;
* `exchangeCapacity_le`, `exists_exchangeCapacity_eq` — the capacity of an exchange arc is the
  least slack of the free sets that the arc leaves;
* `le_room_iff` — what a channel has room for.
-/

open scoped CoreArithmetic

/-- The channel carries a flow through the factor `f`. -/
structure Carries (fixed : Nat → Bool) (f : Factor) (h : Channel) : Prop where
  members_eq : h.members = f.members
  free_eq : h.free = Mask.ofBits (f.members.map fun v => !fixed v)
  baseAt_eq : ∀ p, h.baseAt p = greedyBase f.entry h.free p
  slack_size : h.slack.size = f.table.size
  carried_size : h.carried.size = f.size
  slackAt_eq : ∀ t < f.table.size,
    h.slackAt t = f.entry t - f.entry 0 - Mask.sum f.size h.potential t
  carriedAt_fixed : ∀ p, h.free.testBit p = false → h.carriedAt p = 0
  sum_carried : Mask.sum f.size h.carriedAt h.free = 0

/-! ### Before any flow -/

@[simp] theorem carriedAt_ofFactor (fixed : Nat → Bool) (f : Factor) (p : Nat) :
    (ofFactor fixed f).carriedAt p = 0 := by
  simp only [carriedAt, ofFactor, Array.getD_eq_getD_getElem?, Array.getElem?_replicate]
  split <;> rfl

theorem baseAt_ofFactor (fixed : Nat → Bool) (f : Factor) (p : Nat) :
    (ofFactor fixed f).baseAt p = greedyBase f.entry (ofFactor fixed f).free p := by
  by_cases hp : p < f.size
  · simp [baseAt, ofFactor, hp]
  · have hfree : (ofFactor fixed f).free.testBit p = false := by
      show (Mask.ofBits _).testBit p = false
      rw [Mask.testBit_ofBits_map, List.getElem?_eq_none (by simpa [Factor.size] using hp)]
      rfl
    rw [Mask.greedyBase_of_not_free _ hfree]
    simp [baseAt, ofFactor, hp]

/-- Its potentials are the greedy base. -/
theorem sum_potential_ofFactor (fixed : Nat → Bool) (f : Factor) (t : Nat) :
    Mask.sum f.size (ofFactor fixed f).potential t
      = Mask.sum f.size (greedyBase f.entry (ofFactor fixed f).free) t :=
  Mask.sum_congr fun p _ _ => by rw [potential, carriedAt_ofFactor, baseAt_ofFactor]; omega

/-- A new channel carries nothing. -/
theorem carries_ofFactor (fixed : Nat → Bool) (f : Factor) :
    (ofFactor fixed f).Carries fixed f where
  members_eq := rfl
  free_eq := rfl
  baseAt_eq := baseAt_ofFactor fixed f
  slack_size := by simp [ofFactor]
  carried_size := by simp [ofFactor]
  slackAt_eq t ht := by
    rw [sum_potential_ofFactor]
    simp [slackAt, ofFactor, ht]
  carriedAt_fixed p _ := carriedAt_ofFactor fixed f p
  sum_carried := by simp [Mask.sum]

/-! ### The flow through a channel -/

theorem carriedAt_push (h : Channel) (load : Nat → Int) (amount : Int) {p : Nat}
    (hp : p < h.carried.size) :
    (h.push load amount).carriedAt p = h.carriedAt p + amount * load p := by
  simp [carriedAt, push, hp]

theorem carriedAt_push_of_le (h : Channel) (load : Nat → Int) (amount : Int) {p : Nat}
    (hp : h.carried.size ≤ p) : (h.push load amount).carriedAt p = 0 := by
  simp [carriedAt, push, Nat.not_lt.mpr hp]

theorem slackAt_push (h : Channel) (load : Nat → Int) (amount : Int) {t : Nat}
    (ht : t < h.slack.size) :
    (h.push load amount).slackAt t = h.slackAt t - amount * Mask.sum h.size load t := by
  simp [slackAt, push, ht]

namespace Carries

variable {fixed : Nat → Bool} {f : Factor} {h : Channel}

theorem size_eq (hc : h.Carries fixed f) : h.size = f.size := by
  rw [size, hc.members_eq, Factor.size]

theorem free_lt (hc : h.Carries fixed f) : h.free < 2 ^ f.size := by
  rw [hc.free_eq]
  exact Mask.ofBits_map_lt _ _

/-- A member is free iff its node is not fixed. -/
theorem testBit_free (hc : h.Carries fixed f) {p v : Nat} (hv : f.members[p]? = some v) :
    h.free.testBit p = !fixed v := by
  rw [hc.free_eq, Mask.testBit_ofBits_map, hv]
  rfl

/-- The free sets are the subsets of the free members. -/
theorem mem_freeSets (hc : h.Carries fixed f) {t : Nat} :
    t ∈ h.freeSets ↔ Mask.Within t h.free := by
  rw [freeSets, Mask.mem_subsets_iff (by rw [hc.size_eq]; exact hc.free_lt)]

/-- A load on the free members that sums to zero keeps what a channel carries in balance. -/
theorem push (hc : h.Carries fixed f) {load : Nat → Int}
    (hfixed : ∀ p, h.free.testBit p = false → load p = 0)
    (hzero : Mask.sum f.size load h.free = 0) (amount : Int) :
    (h.push load amount).Carries fixed f where
  members_eq := hc.members_eq
  free_eq := hc.free_eq
  baseAt_eq := hc.baseAt_eq
  slack_size := by simp [Channel.push, hc.slack_size]
  carried_size := by simp [Channel.push, hc.carried_size]
  slackAt_eq t ht := by
    -- the slack falls by as much as the potentials of the set rise
    have hpot : Mask.sum f.size (h.push load amount).potential t
        = Mask.sum f.size h.potential t + amount * Mask.sum f.size load t := by
      rw [← Mask.sum_mul, ← Mask.sum_add]
      refine Mask.sum_congr fun p hp _ => ?_
      rw [potential, carriedAt_push _ _ _ (by rw [hc.carried_size]; exact hp)]
      show h.carriedAt p + amount * load p + h.baseAt p
        = h.carriedAt p + h.baseAt p + amount * load p
      omega
    rw [slackAt_push _ _ _ (by rw [hc.slack_size]; exact ht), hc.slackAt_eq t ht, hpot, hc.size_eq]
    omega
  carriedAt_fixed p hp := by
    by_cases hlt : p < h.carried.size
    · rw [carriedAt_push _ _ _ hlt, hc.carriedAt_fixed p hp, hfixed p hp]
      simp
    · exact carriedAt_push_of_le _ _ _ (by omega)
  sum_carried := by
    have : Mask.sum f.size (h.push load amount).carriedAt h.free
        = Mask.sum f.size h.carriedAt h.free + amount * Mask.sum f.size load h.free := by
      rw [← Mask.sum_mul, ← Mask.sum_add]
      exact Mask.sum_congr fun p hp _ => carriedAt_push _ _ _ (by rw [hc.carried_size]; exact hp)
    show Mask.sum f.size (h.push load amount).carriedAt h.free = 0
    rw [this, hc.sum_carried, hzero]
    simp

/-! ### Slacks -/

theorem within_lt (hc : h.Carries fixed f) (hw : f.table.size = 2 ^ f.size) {t : Nat}
    (ht : Mask.Within t h.free) : t < f.table.size := by
  rw [hw]
  exact ht.lt hc.free_lt

/-- A member that is not free reports no potential. -/
theorem potential_fixed (hc : h.Carries fixed f) {p : Nat} (hp : h.free.testBit p = false) :
    h.potential p = 0 := by
  rw [potential, hc.carriedAt_fixed p hp, hc.baseAt_eq, Mask.greedyBase_of_not_free _ hp]
  rfl

/-- Over the free members the potentials sum to what the table gives them. -/
theorem sum_potential (hc : h.Carries fixed f) :
    Mask.sum f.size h.potential h.free = f.entry h.free - f.entry 0 := by
  have hsplit : Mask.sum f.size h.potential h.free
      = Mask.sum f.size h.carriedAt h.free
        + Mask.sum f.size (greedyBase f.entry h.free) h.free := by
    rw [← Mask.sum_add]
    exact Mask.sum_congr fun p _ _ => by rw [potential, hc.baseAt_eq]
  rw [hsplit, hc.sum_carried, Mask.greedy_free _ hc.free_lt]
  omega

/-- The empty set is tight. -/
theorem slackAt_zero (hc : h.Carries fixed f) (hw : f.table.size = 2 ^ f.size) :
    h.slackAt 0 = 0 := by
  rw [hc.slackAt_eq 0 (hc.within_lt hw (Mask.within_zero _)), Mask.sum_zero_mask]
  omega

/-- The set of all free members is tight. -/
theorem slackAt_free (hc : h.Carries fixed f) (hw : f.table.size = 2 ^ f.size) :
    h.slackAt h.free = 0 := by
  rw [hc.slackAt_eq _ (hc.within_lt hw (Mask.within_refl _)), hc.sum_potential]
  omega

/-- Over a submodular table the slack is submodular. -/
theorem submodular_slackAt (hc : h.Carries fixed f) (hw : f.table.size = 2 ^ f.size)
    (hg : Mask.Submodular h.free f.entry) : Mask.Submodular h.free h.slackAt :=
  (hg.sub_sum (f.entry 0) f.size h.potential).congr fun t ht =>
    hc.slackAt_eq t (hc.within_lt hw ht)

end Carries

/-- Over a submodular table the greedy base leaves no slack negative. -/
theorem nonneg_slackAt_ofFactor {fixed : Nat → Bool} {f : Factor} (hw : f.table.size = 2 ^ f.size)
    (hg : Mask.Submodular (ofFactor fixed f).free f.entry) :
    Mask.Nonneg (ofFactor fixed f).free (ofFactor fixed f).slackAt := by
  intro t ht
  have hc := carries_ofFactor fixed f
  have hle := Mask.greedy_le hg hc.free_lt ht
  rw [hc.slackAt_eq t (hc.within_lt hw ht), sum_potential_ofFactor]
  omega

/-! ### Exchange arcs -/

section Exchange

variable {fixed : Nat → Bool} {f : Factor} {h : Channel}

/-- An exchange arc that leaves a free set has the least slack of the free sets that it leaves. -/
private theorem exchangeCapacity_isLeast (hc : h.Carries fixed f) {p q t₀ : Nat}
    (ht₀ : Mask.Within t₀ h.free) (hp₀ : t₀.testBit p = true) (hq₀ : t₀.testBit q = false) :
    (∃ t, Mask.Within t h.free ∧ t.testBit p = true ∧ t.testBit q = false ∧
        h.exchangeCapacity p q = h.slackAt t) ∧
      ∀ t, Mask.Within t h.free → t.testBit p = true → t.testBit q = false →
        h.exchangeCapacity p q ≤ h.slackAt t := by
  have hleft : ∀ t, t ∈ h.freeSets.filter (fun t => t.testBit p && !t.testBit q) ↔
      Mask.Within t h.free ∧ t.testBit p = true ∧ t.testBit q = false := by
    intro t
    rw [List.mem_filter, hc.mem_freeSets, Bool.and_eq_true, Bool.not_eq_true']
  unfold exchangeCapacity
  generalize h.freeSets.filter _ = left at hleft
  cases hmin : (left.map h.slackAt).min? with
  | none =>
    -- the minimum is taken over at least one set, so the default is never read
    rw [List.min?_eq_none_iff, List.map_eq_nil_iff] at hmin
    have hmem := (hleft t₀).mpr ⟨ht₀, hp₀, hq₀⟩
    rw [hmin] at hmem
    exact absurd hmem List.not_mem_nil
  | some a =>
    obtain ⟨hmem, hle⟩ := List.min?_eq_some_iff.mp hmin
    obtain ⟨t, ht, rfl⟩ := List.mem_map.mp hmem
    obtain ⟨hfree, hp, hq⟩ := (hleft t).mp ht
    refine ⟨⟨t, hfree, hp, hq, rfl⟩, fun t' hfree' hp' hq' => ?_⟩
    exact hle _ (List.mem_map.mpr ⟨t', (hleft t').mpr ⟨hfree', hp', hq'⟩, rfl⟩)

/-- An exchange arc has at most the slack of a free set that it leaves. -/
theorem exchangeCapacity_le (hc : h.Carries fixed f) {p q t : Nat} (ht : Mask.Within t h.free)
    (hp : t.testBit p = true) (hq : t.testBit q = false) :
    h.exchangeCapacity p q ≤ h.slackAt t :=
  (exchangeCapacity_isLeast hc ht hp hq).2 t ht hp hq

/-- An exchange arc out of a free member has the slack of some free set that it leaves. -/
theorem exists_exchangeCapacity_eq (hc : h.Carries fixed f) {p q : Nat}
    (hp : h.free.testBit p = true) (hpq : p ≠ q) :
    ∃ t, Mask.Within t h.free ∧ t.testBit p = true ∧ t.testBit q = false ∧
      h.exchangeCapacity p q = h.slackAt t := by
  -- the arc leaves at least the set of its tail alone
  have hone : Mask.Within (2 ^ p) h.free := by
    rw [Mask.within_iff]
    intro i hi
    rw [Nat.testBit_two_pow, decide_eq_true_eq] at hi
    rwa [← hi]
  exact (exchangeCapacity_isLeast hc hone (by simp) (by simp [hpq])).1

/-- Where no slack is negative, an arc without capacity is blocked by a tight set. -/
theorem blocked_of_capacity_le (hc : h.Carries fixed f) (h0 : Mask.Nonneg h.free h.slackAt)
    {p q : Nat} (hp : h.free.testBit p = true) (hpq : p ≠ q) (hcap : h.exchangeCapacity p q ≤ 0) :
    Mask.Blocked h.free h.slackAt p q := by
  obtain ⟨t, ht, htp, htq, heq⟩ := exists_exchangeCapacity_eq hc hp hpq
  have := h0 t ht
  exact ⟨t, ht, htp, htq, by omega⟩

end Exchange

/-! ### Room -/

/-- A channel has room for `x` if the bound has, and every free set has slack for its load. -/
theorem le_room_iff (h : Channel) (load : Nat → Int) (bound x : Int) :
    x ≤ h.room load bound ↔ x ≤ bound ∧ ∀ t ∈ h.freeSets, 0 < Mask.sum h.size load t →
      x * Mask.sum h.size load t ≤ h.slackAt t := by
  unfold room
  generalize h.freeSets = sets
  induction sets generalizing bound with
  | nil => simp
  | cons t ts ih =>
    rw [List.foldl_cons, ih]
    simp only [List.mem_cons, forall_eq_or_imp]
    by_cases hm : 0 < Mask.sum h.size load t
    · -- `x` fits below the rounded quotient iff its multiple fits below the slack
      rw [if_pos hm, Int.le_min, Int.le_ediv_iff_mul_le hm]
      exact ⟨fun ⟨⟨hb, ht⟩, hts⟩ => ⟨hb, fun _ => ht, hts⟩, fun ⟨hb, ht, hts⟩ => ⟨⟨hb, ht hm⟩, hts⟩⟩
    · rw [if_neg hm]
      exact ⟨fun ⟨hb, hts⟩ => ⟨hb, fun hpos => absurd hpos hm, hts⟩, fun ⟨hb, _, hts⟩ => ⟨hb, hts⟩⟩

end FusionMove.Cut.Channel
