import FusionMove.Certificate.Shares
import FusionMove.Sum
import Mathlib.Algebra.Group.Int.Defs
import Mathlib.Algebra.Group.Nat.Defs
import Mathlib.Data.Nat.Find

namespace FusionMove

/-!
# Even shares and balanced sequences

A sequence of numbers is balanced if it never rises and no two of its values differ by more than one.
It then consists of one value and, in front of that, of a few values one above, so its sum and length
decide it: the lower value is the quotient and the number of higher ones is the remainder.

Even shares are balanced as long as the number of parts stays the same when it is read as a signed
number.  From `2^63` on the division is one by a negative number, and what it leaves is balanced in a
single case: a total from zero up to `2^63`, divided into `2^63` parts, leaves nothing but a
remainder.

* `Shares.Balanced` — what it means, without a division;
* `Shares.Divides` — quotient and remainder, the quotient rounded down;
* `Shares.Divides.balanced`, `Shares.Balanced.exists_divides` — these give the balanced sequences;
* `Shares.recombine`, `Shares.extra_of_neg` — what dividing leaves, whatever the signs are;
* `Shares.divides_of_lt` — it leaves a quotient and a remainder of fewer than `2^63` parts;
* `Shares.share_balanced_iff` — when even shares are balanced.
-/

namespace Shares

/-! ### Words as signed numbers -/

theorem signed_eq (word : UInt64) :
    signed word = if word.toNat < 2 ^ 63 then (word.toNat : Int) else word.toNat - 2 ^ 64 := by
  have hword : signed word = if 2 * word.toNat < 2 ^ 64 then (word.toNat : Int)
      else word.toNat - (2 ^ 64 : Nat) := BitVec.toInt_eq_toNat_cond word.toBitVec
  rw [hword]
  split <;> split <;> omega

theorem le_signed (word : UInt64) : -2 ^ 63 ≤ signed word := by
  have hlt : word.toNat < 2 ^ 64 := word.toNat_lt
  rw [signed_eq]
  split <;> omega

theorem toNat_ofNat {n : Nat} (h : n < 2 ^ 63) : (UInt64.ofNat n).toNat = n :=
  UInt64.toNat_ofNat_of_lt' (Nat.lt_trans h (by decide))

/-- A position below `2^63` is compared as the number it is. -/
theorem part_ofNat (s : Shares) {i : Nat} (h : i < 2 ^ 63) :
    s.part (.ofNat i) = if (i : Int) < s.extra then s.base + 1 else s.base := by
  rw [part, signed_eq, toNat_ofNat h, if_pos h]

/-- The position `2^63` lies before all others. -/
theorem part_ofNat_sign (s : Shares) :
    s.part (.ofNat (2 ^ 63)) = if -2 ^ 63 < s.extra then s.base + 1 else s.base := by
  have hsigned : signed (.ofNat (2 ^ 63)) = -2 ^ 63 := by decide
  rw [part, hsigned]

/-- Every part is the base or one unit more. -/
theorem part_bounds (s : Shares) (position : UInt64) :
    s.base ≤ s.part position ∧ s.part position ≤ s.base + 1 := by
  unfold part
  split <;> omega

/-! ### Quotient and remainder -/

/-- `total` is `n` times the base and a remainder below `n`. -/
structure Divides (s : Shares) (total : Int) (n : Nat) : Prop where
  extra_nonneg : 0 ≤ s.extra
  extra_lt : s.extra < n
  total_eq : s.base * n + s.extra = total

/-- The values of `f` below `n` sum to `total`, never rise, and differ by at most one. -/
structure Balanced (total : Int) (n : Nat) (f : Nat → Int) : Prop where
  sum_eq : sumTo n f = total
  le_of_le : ∀ i j, i ≤ j → j < n → f j ≤ f i
  le_add_one : ∀ i < n, ∀ j < n, f i ≤ f j + 1

/-- Parts below the remainder have one unit more. -/
theorem sumTo_part (s : Shares) (h : 0 ≤ s.extra) {n : Nat} (hn : n ≤ 2 ^ 63) :
    (sumTo n fun i => s.part (.ofNat i)) = s.base * n + min (n : Int) s.extra := by
  induction n with
  | zero =>
    rw [sumTo_zero]
    omega
  | succ n ih =>
    rw [sumTo_succ, ih (by omega), part_ofNat s (by omega), Int.natCast_succ, Int.mul_add,
      Int.mul_one]
    split <;> omega

namespace Divides

variable {s : Shares} {total : Int} {n : Nat}

/-- The quotient and the remainder are unique. -/
theorem unique {s' : Shares} (h : s.Divides total n) (h' : s'.Divides total n) : s = s' := by
  have key : ∀ s : Shares, s.Divides total n → total / n = s.base ∧ total % n = s.extra :=
    fun s hs => (Int.ediv_emod_unique (Int.lt_of_le_of_lt hs.extra_nonneg hs.extra_lt)).mpr
      ⟨by rw [Int.mul_comm, Int.add_comm]; exact hs.total_eq, hs.extra_nonneg, hs.extra_lt⟩
  obtain ⟨hbase, hextra⟩ := key s h
  obtain ⟨hbase', hextra'⟩ := key s' h'
  rw [Shares.mk.injEq]
  omega

/-- The parts sum to the total. -/
theorem sum_part (h : s.Divides total n) (hn : n ≤ 2 ^ 63) :
    (sumTo n fun i => s.part (.ofNat i)) = total := by
  have := h.extra_lt
  rw [sumTo_part s h.extra_nonneg hn, Int.min_eq_right (by omega), h.total_eq]

/-- The parts are balanced. -/
theorem balanced (h : s.Divides total n) (hn : n ≤ 2 ^ 63) :
    Balanced total n fun i => s.part (.ofNat i) where
  sum_eq := h.sum_part hn
  le_of_le i j hij hj := by
    rw [part_ofNat s (by omega), part_ofNat s (by omega)]
    split <;> split <;> omega
  le_add_one i _ j _ := by
    have hi := part_bounds s (.ofNat i)
    have hj := part_bounds s (.ofNat j)
    omega

/-- The parts of a total that is not negative are not negative either. -/
theorem part_nonneg (h : s.Divides total n) (h0 : 0 ≤ total) (position : UInt64) :
    0 ≤ s.part position := by
  have := h.extra_lt
  have := h.total_eq
  have hbase : -1 < s.base := by
    refine Int.lt_of_mul_lt_mul_right (a := n) ?_ (Int.natCast_nonneg n)
    omega
  have := (part_bounds s position).1
  omega

/-- The parts of a total that is not positive are not positive either. -/
theorem part_nonpos (h : s.Divides total n) (h0 : total ≤ 0) {i : Nat} (hi : i < 2 ^ 63) :
    s.part (.ofNat i) ≤ 0 := by
  have := h.extra_nonneg
  have := h.extra_lt
  have := h.total_eq
  rw [part_ofNat s hi]
  split
  · -- a part above the base takes a unit from the remainder, and then the base is negative
    refine Int.lt_of_mul_lt_mul_right (a := n) ?_ (Int.natCast_nonneg n)
    omega
  · refine Int.le_of_mul_le_mul_right (a := n) ?_ (by omega)
    omega

end Divides

/-- A balanced sequence stays one above its last value for a while and then falls to it. -/
theorem Balanced.exists_divides {total : Int} {n : Nat} {f : Nat → Int} (hf : Balanced total n f)
    (h0 : 0 < n) (hn : n ≤ 2 ^ 63) :
    ∃ s : Shares, s.Divides total n ∧ ∀ i < n, f i = s.part (.ofNat i) := by
  have hlast : n - 1 < n := by omega
  have hfalls : ∃ r, r < n ∧ f r ≤ f (n - 1) := ⟨n - 1, hlast, Int.le_refl _⟩
  -- the first position that holds the last value
  obtain ⟨hr, hle⟩ := Nat.find_spec hfalls
  have hparts : ∀ i < n, f i = part ⟨f (n - 1), Nat.find hfalls⟩ (.ofNat i) := by
    intro i hi
    have hlow := hf.le_of_le i (n - 1) (by omega) hlast
    have hhigh := hf.le_add_one i hi (n - 1) hlast
    rw [part_ofNat _ (by omega)]
    dsimp only
    split
    · rename_i hbefore
      have hnot := Nat.find_min hfalls (Int.ofNat_lt.mp hbefore)
      have habove : f (n - 1) < f i := Int.not_le.mp fun hle => hnot ⟨hi, hle⟩
      omega
    · rename_i hfrom
      have hdown := hf.le_of_le (Nat.find hfalls) i (Int.ofNat_le.mp (Int.not_lt.mp hfrom)) hi
      omega
  refine ⟨⟨f (n - 1), Nat.find hfalls⟩, ⟨Int.natCast_nonneg _, Int.ofNat_lt.mpr hr, ?_⟩, hparts⟩
  rw [← hf.sum_eq, sumTo_congr hparts, sumTo_part _ (Int.natCast_nonneg _) hn,
    Int.min_eq_right (Int.le_of_lt (Int.ofNat_lt.mpr hr))]

/-- Its sum and its length decide a balanced sequence. -/
theorem Balanced.eq_part {total : Int} {n : Nat} {f : Nat → Int} (hf : Balanced total n f)
    (hn : n ≤ 2 ^ 63) {s : Shares} (hs : s.Divides total n) :
    ∀ i < n, f i = s.part (.ofNat i) := by
  intro i hi
  obtain ⟨s', hs', heq⟩ := hf.exists_divides (by omega) hn
  rw [heq i hi, hs'.unique hs]

/-! ### What dividing leaves -/

variable {total : Int} {parts : UInt64}

/-- The division towards zero is kept unless its remainder is negative. -/
theorem of_cases (total : Int) (parts : UInt64) :
    (total.tmod (signed parts) < 0 ∧ (of total parts).base = total.tdiv (signed parts) - 1 ∧
      (of total parts).extra = total.tmod (signed parts) + signed parts) ∨
    0 ≤ total.tmod (signed parts) ∧ (of total parts).base = total.tdiv (signed parts) ∧
      (of total parts).extra = total.tmod (signed parts) := by
  unfold of
  dsimp only
  split
  · rename_i hneg
    exact .inl ⟨hneg, rfl, rfl⟩
  · rename_i hneg
    exact .inr ⟨Int.not_lt.mp hneg, rfl, rfl⟩

/-- Quotient and remainder make up the total. -/
theorem recombine (total : Int) (parts : UInt64) :
    signed parts * (of total parts).base + (of total parts).extra = total := by
  have hre := Int.mul_tdiv_add_tmod total (signed parts)
  obtain ⟨-, hbase, hextra⟩ | ⟨-, hbase, hextra⟩ := of_cases total parts
  · rw [hbase, hextra, Int.mul_sub, Int.mul_one]
    omega
  · rw [hbase, hextra, hre]

/-- A positive number of parts leaves a remainder below it. -/
theorem extra_of_pos (total : Int) (h : 0 < signed parts) :
    0 ≤ (of total parts).extra ∧ (of total parts).extra < signed parts := by
  have hlt : total.tmod (signed parts) < signed parts := Int.tmod_lt_of_pos total h
  have hgt : -signed parts < total.tmod (signed parts) := Int.lt_tmod_of_pos total h
  obtain ⟨hneg, -, hextra⟩ | ⟨hnonneg, -, hextra⟩ := of_cases total parts <;> omega

/-- A negative number of parts leaves a remainder below its magnitude, or one below the number of
    parts itself, from where a unit of every part is missing. -/
theorem extra_of_neg (total : Int) (h : signed parts < 0) :
    (0 ≤ (of total parts).extra ∧ (of total parts).extra < -signed parts) ∨
    2 * signed parts < (of total parts).extra ∧ (of total parts).extra < signed parts ∧
      -1 ≤ (of total parts).base := by
  have hlt : total.tmod (- -signed parts) < -signed parts := by
    rw [Int.tmod_neg]
    exact Int.tmod_lt_of_pos total (by omega)
  have hgt : - -signed parts < total.tmod (- -signed parts) := by
    rw [Int.tmod_neg]
    exact Int.lt_tmod_of_pos total (by omega)
  rw [Int.neg_neg] at hlt hgt
  obtain ⟨hneg, hbase, hextra⟩ | ⟨hnonneg, -, hextra⟩ := of_cases total parts
  · have hnonpos : total ≤ 0 := Int.not_lt.mp fun hpos =>
      Int.not_lt.mpr (Int.tmod_nonneg _ (Int.le_of_lt hpos)) hneg
    have hquotient := Int.tdiv_nonneg_of_nonpos_of_nonpos hnonpos (Int.le_of_lt h)
    exact .inr ⟨by omega, by omega, by omega⟩
  · exact .inl ⟨by omega, by omega⟩

/-- Fewer than `2^63` parts are divided into as the number they are. -/
theorem divides_of_lt (h0 : 0 < parts.toNat) (h : parts.toNat < 2 ^ 63) :
    (of total parts).Divides total parts.toNat := by
  have hsigned : signed parts = parts.toNat := by rw [signed_eq, if_pos h]
  obtain ⟨hnonneg, hlt⟩ := extra_of_pos total (show 0 < signed parts by omega)
  refine ⟨hnonneg, by omega, ?_⟩
  rw [Int.mul_comm, ← hsigned, recombine]

/-- A total from zero up to `2^63` leaves nothing but a remainder of `2^63` parts. -/
theorem divides_of_eq (h : parts.toNat = 2 ^ 63) (h0 : 0 ≤ total) (hlt : total < 2 ^ 63) :
    (of total parts).Divides total parts.toNat := by
  have hsigned : signed parts = -2 ^ 63 := by
    rw [signed_eq, h]
    decide
  have hof : of total parts = ⟨0, total⟩ := by
    rw [of, hsigned, Int.tmod_neg, Int.tdiv_neg, Int.tmod_eq_of_lt h0 hlt,
      Int.tdiv_eq_zero_of_lt h0 hlt]
    exact if_neg (Int.not_lt.mpr h0)
  rw [hof, h]
  exact ⟨h0, hlt, by rw [Int.zero_mul, Int.zero_add]⟩

/-- From `2^63` parts on, what dividing leaves is balanced in that case only. -/
theorem total_of_balanced (h : 2 ^ 63 ≤ parts.toNat)
    (hb : Balanced total parts.toNat (share total parts)) :
    parts.toNat = 2 ^ 63 ∧ 0 ≤ total ∧ total < 2 ^ 63 := by
  have hlt : parts.toNat < 2 ^ 64 := parts.toNat_lt
  have hsigned : signed parts = parts.toNat - 2 ^ 64 := by rw [signed_eq, if_neg (by omega)]
  have hre := recombine total parts
  -- where there is a position `2^63`, it gets no more than the one before it
  have hfalls : 2 ^ 63 < parts.toNat → (of total parts).extra < 2 ^ 63 →
      (of total parts).extra ≤ -2 ^ 63 := by
    intro hmore hextra
    have hle := hb.le_of_le (2 ^ 63 - 1) (2 ^ 63) (by omega) hmore
    rw [share, share, part_ofNat_sign, part_ofNat _ (by omega)] at hle
    split at hle <;> split at hle <;> omega
  obtain ⟨hnonneg, hsmall⟩ | ⟨hlow, hneg, hbase⟩ :=
    extra_of_neg total (show signed parts < 0 by omega)
  · have heq : parts.toNat = 2 ^ 63 := by omega
    have hsum := (sumTo_part (of total parts) hnonneg (Nat.le_of_eq heq)).symm.trans hb.sum_eq
    rw [hsigned] at hre
    rw [heq] at hsum hre
    omega
  · -- no position lies before the remainder, so every part is the base
    have hextra : (of total parts).extra ≤ -2 ^ 63 := by omega
    have hparts : ∀ i < parts.toNat, share total parts i = (of total parts).base := fun i _ =>
      if_neg (Int.not_lt.mpr (Int.le_trans hextra (le_signed _)))
    have hsum := (sumTo_congr hparts).symm.trans hb.sum_eq
    rw [sumTo_const] at hsum
    rw [hsigned, Int.sub_mul] at hre
    omega

/-! ### Even shares -/

/-- A number of parts below `2^63` is never refused. -/
theorem of?_ofNat_eq_ok (total : Int) {n : Nat} (h0 : 0 < n) (h : n < 2 ^ 63) :
    of? total (.ofNat n) = .ok (of total (.ofNat n)) :=
  if_neg fun hzero => Nat.ne_of_gt h0 ((toNat_ofNat h).symm.trans (congrArg UInt64.toNat hzero))

/-- Fewer than `2^63` shares sum to the total. -/
theorem sum_share (total : Int) {n : Nat} (h0 : 0 < n) (h : n < 2 ^ 63) :
    sumTo n (share total (.ofNat n)) = total := by
  have hdivides := @divides_of_lt total (.ofNat n)
  rw [toNat_ofNat h] at hdivides
  exact (hdivides h0 h).sum_part (Nat.le_of_lt h)

/-- Shares of nothing are nothing. -/
theorem share_of_zero (parts : UInt64) {i : Nat} (h : i < 2 ^ 63) : share 0 parts i = 0 := by
  have hof : of 0 parts = ⟨0, 0⟩ := by
    rw [of, Int.zero_tmod, Int.zero_tdiv]
    rfl
  rw [share, hof, part_ofNat _ h]
  exact if_neg (show ¬ (i : Int) < 0 by omega)

/-- Even shares never rise, differ by at most one and sum to the total exactly if there are fewer
    than `2^63` of them, or `2^63` of a total from zero up to `2^63`.  They are then the only sequence
    of their length that does so, their remainder lies below the number of parts, and no share has
    the opposite sign of the total. -/
theorem share_balanced_iff (total : Int) {parts : UInt64} (h : parts ≠ 0) :
    of? total parts = .ok (of total parts) ∧
    (Balanced total parts.toNat (share total parts) ↔
      parts.toNat < 2 ^ 63 ∨ parts.toNat = 2 ^ 63 ∧ 0 ≤ total ∧ total < 2 ^ 63) ∧
    (Balanced total parts.toNat (share total parts) →
      (0 ≤ (of total parts).extra ∧ (of total parts).extra < parts.toNat) ∧
      (∀ f, Balanced total parts.toNat f → ∀ i < parts.toNat, f i = share total parts i) ∧
      (0 ≤ total → ∀ i < parts.toNat, 0 ≤ share total parts i) ∧
      (total ≤ 0 → ∀ i < parts.toNat, share total parts i ≤ 0)) := by
  have h0 : 0 < parts.toNat := Nat.pos_of_ne_zero fun hzero => h (UInt64.toNat_inj.mp hzero)
  have hfits : Balanced total parts.toNat (share total parts) →
      parts.toNat < 2 ^ 63 ∨ parts.toNat = 2 ^ 63 ∧ 0 ≤ total ∧ total < 2 ^ 63 := by
    intro hb
    by_cases hlt : parts.toNat < 2 ^ 63
    · exact .inl hlt
    · exact .inr (total_of_balanced (Nat.not_lt.mp hlt) hb)
  have hdivides : parts.toNat < 2 ^ 63 ∨ parts.toNat = 2 ^ 63 ∧ 0 ≤ total ∧ total < 2 ^ 63 →
      parts.toNat ≤ 2 ^ 63 ∧ (of total parts).Divides total parts.toNat := by
    rintro (hlt | ⟨heq, hnonneg, hlt⟩)
    · exact ⟨Nat.le_of_lt hlt, divides_of_lt h0 hlt⟩
    · exact ⟨Nat.le_of_eq heq, divides_of_eq heq hnonneg hlt⟩
  refine ⟨if_neg h, ⟨hfits, fun hf => (hdivides hf).2.balanced (hdivides hf).1⟩, fun hb => ?_⟩
  obtain ⟨hle, hd⟩ := hdivides (hfits hb)
  refine ⟨⟨hd.extra_nonneg, hd.extra_lt⟩, fun f hf => hf.eq_part hle hd, ?_, ?_⟩
  · exact fun hnonneg i _ => hd.part_nonneg hnonneg (.ofNat i)
  · exact fun hnonpos i hi => hd.part_nonpos hnonpos (Nat.lt_of_lt_of_le hi hle)

/-- Seven units of debt among three: the division towards zero leaves a negative remainder, and there
    is one balanced way to share them. -/
theorem share_balanced_debt :
    ((3 : UInt64) ≠ 0 ∧ Int.tmod (-7) 3 < 0) ∧
    of? (-7) 3 = .ok ⟨-3, 2⟩ ∧
    Balanced (-7) 3 (share (-7) 3) ∧
    (∀ f, Balanced (-7) 3 f → f 0 = -2 ∧ f 1 = -2 ∧ f 2 = -3) ∧
    ∀ i < 3, share (-7) 3 i ≤ 0 := by
  obtain ⟨hok, hiff, hbalanced⟩ := share_balanced_iff (-7) (show (3 : UInt64) ≠ 0 by decide)
  have hb := hiff.mpr (.inl (by decide))
  obtain ⟨-, hunique, -, hsign⟩ := hbalanced hb
  refine ⟨by decide, hok, hb, fun f hf => ?_, hsign (by decide)⟩
  exact ⟨hunique f hf 0 (by decide), hunique f hf 1 (by decide), hunique f hf 2 (by decide)⟩

/-- One unit among the largest number of parts, which divides as minus one: the first shares are a
    debt, and no share is positive, so they do not sum to one. -/
theorem share_overdrawn :
    of? 1 18446744073709551615 = .ok ⟨-1, 0⟩ ∧
    (∀ i < 3, share 1 18446744073709551615 i = -1) ∧
    sumTo (18446744073709551615 : UInt64).toNat (share 1 18446744073709551615) ≠ 1 ∧
    ¬ Balanced 1 (18446744073709551615 : UInt64).toNat (share 1 18446744073709551615) := by
  have hnonpos : ∀ i, share 1 18446744073709551615 i ≤ 0 := fun i =>
    (part_bounds (of 1 18446744073709551615) (.ofNat i)).2
  have hsum : sumTo (18446744073709551615 : UInt64).toNat (share 1 18446744073709551615) ≤ 0 :=
    sumTo_nonpos fun i _ => hnonpos i
  refine ⟨by decide, by decide, by omega, fun hb => ?_⟩
  have := hb.sum_eq
  omega

end Shares

end FusionMove
