import FusionMove.Fusion.Gray

namespace FusionMove.Gray

/-!
# The walk through all masks

The lowest bit of a code depends on the two lowest bits of the number, and halving a code gives the
code of half the number.  From these two facts follow, by halving:

* `code_injective`, `exists_code` — codes number the masks of `k` bits;
* `testBit_code_succ` — one step of the walk changes one bit, `flipped`;
* `foldl_walk` — what a fold over the walk keeps.
-/

open scoped CoreArithmetic

@[simp] theorem code_zero : code 0 = 0 := rfl

theorem code_eq (a : Nat) : code a = a ^^^ a / 2 := by
  rw [code, Nat.shiftRight_eq_div_pow, Nat.pow_one]

/-- The lowest bit of a xor is that of the sum. -/
private theorem xor_mod_two (a b : Nat) : (a ^^^ b) % 2 = (a + b) % 2 := by
  have h := Nat.xor_mod_two_eq_one (a := a) (b := b)
  omega

theorem code_div_two (a : Nat) : code a / 2 = code (a / 2) := by
  rw [code_eq, code_eq, Nat.xor_div_two]

theorem code_mod_two (a : Nat) : code a % 2 = (a + a / 2) % 2 := by
  rw [code_eq, xor_mod_two]

/-! ### Codes number the masks -/

/-- Only zero has the code zero. -/
theorem eq_zero_of_code_eq_zero {a : Nat} (h : code a = 0) : a = 0 := by
  have hhalf : a = a / 2 := by
    apply Nat.eq_of_testBit_eq
    intro i
    have hbit : (a ^^^ a / 2).testBit i = false := by rw [← code_eq, h, Nat.zero_testBit]
    rw [Nat.testBit_xor] at hbit
    simpa using hbit
  omega

/-- No two numbers have the same code. -/
theorem code_injective {a b : Nat} (h : code a = code b) : a = b := by
  induction a using Nat.strongRecOn generalizing b with
  | ind a ih =>
    by_cases ha : a = 0
    · subst ha
      exact (eq_zero_of_code_eq_zero h.symm).symm
    · have hhalf : code (a / 2) = code (b / 2) := by rw [← code_div_two, ← code_div_two, h]
      have hlow : (a + a / 2) % 2 = (b + b / 2) % 2 := by rw [← code_mod_two, ← code_mod_two, h]
      have := ih (a / 2) (by omega) hhalf
      omega

/-- The codes of numbers below `2 ^ k` are masks of `k` bits. -/
theorem code_lt {a k : Nat} (h : a < 2 ^ k) : code a < 2 ^ k := by
  rw [code_eq]
  exact Nat.xor_lt_two_pow h (by omega)

/-- Every mask of `k` bits is the code of a number below `2 ^ k`. -/
theorem exists_code {t k : Nat} (h : t < 2 ^ k) : ∃ a < 2 ^ k, code a = t := by
  induction k generalizing t with
  | zero =>
    have : t = 0 := by simpa using h
    exact ⟨0, by simp, by rw [this, code_zero]⟩
  | succ k ih =>
    obtain ⟨b, hb, hbt⟩ := ih (t := t / 2) (by rw [Nat.pow_succ] at h; omega)
    -- the lowest bit is free to be chosen
    refine ⟨2 * b + (t + b) % 2, by rw [Nat.pow_succ]; omega, ?_⟩
    have hdiv : (2 * b + (t + b) % 2) / 2 = b := by omega
    have h1 := code_div_two (2 * b + (t + b) % 2)
    have h2 := code_mod_two (2 * b + (t + b) % 2)
    rw [hdiv] at h1 h2
    omega

/-! ### One step -/

/-- The codes of neighbours differ in a single bit. -/
theorem exists_xor_code_succ (a : Nat) : ∃ i : Nat, code (a + 1) ^^^ code a = 2 ^ i := by
  induction a using Nat.strongRecOn with
  | ind a ih =>
    have hdiv : (code (a + 1) ^^^ code a) / 2 = code ((a + 1) / 2) ^^^ code (a / 2) := by
      rw [Nat.xor_div_two, code_div_two, code_div_two]
    have hmod : (code (a + 1) ^^^ code a) % 2 = ((a + 1) + (a + 1) / 2 + (a + a / 2)) % 2 := by
      rw [xor_mod_two, Nat.add_mod, code_mod_two, code_mod_two, ← Nat.add_mod]
    rcases Nat.mod_two_eq_zero_or_one a with heven | hodd
    · have hhalf : (a + 1) / 2 = a / 2 := by omega
      rw [hhalf, Nat.xor_self] at hdiv
      exact ⟨0, by rw [Nat.pow_zero]; omega⟩
    · obtain ⟨i, hi⟩ := ih (a / 2) (by omega)
      have hhalf : (a + 1) / 2 = a / 2 + 1 := by omega
      rw [hhalf, hi] at hdiv
      exact ⟨i + 1, by rw [Nat.pow_succ]; omega⟩

theorem xor_code_succ (a : Nat) : code (a + 1) ^^^ code a = 2 ^ flipped (a + 1) := by
  obtain ⟨i, hi⟩ := exists_xor_code_succ a
  rw [flipped, Nat.add_sub_cancel, hi, Nat.log2_two_pow]

/-- A step changes the flipped bit and no other. -/
theorem testBit_code_succ (a i : Nat) :
    (code (a + 1)).testBit i
      = if i = flipped (a + 1) then !(code a).testBit i else (code a).testBit i := by
  have hbit : (code (a + 1) ^^^ code a).testBit i = decide (flipped (a + 1) = i) := by
    rw [xor_code_succ, Nat.testBit_two_pow]
  rw [Nat.testBit_xor] at hbit
  by_cases h : i = flipped (a + 1)
  · subst h
    cases h1 : (code (a + 1)).testBit (flipped (a + 1)) <;>
      cases h2 : (code a).testBit (flipped (a + 1)) <;> simp_all
  · have h' : flipped (a + 1) ≠ i := fun heq => h heq.symm
    cases h1 : (code (a + 1)).testBit i <;> cases h2 : (code a).testBit i <;> simp_all

/-- The flipped bit is one of the `k` bits. -/
theorem flipped_lt {a k : Nat} (h : a + 1 < 2 ^ k) : flipped (a + 1) < k := by
  have hlt : 2 ^ flipped (a + 1) < 2 ^ k := by
    rw [← xor_code_succ]
    exact Nat.xor_lt_two_pow (code_lt h) (code_lt (by omega))
  exact (Nat.pow_lt_pow_iff_right (by omega)).mp hlt

/-- The first steps of the walk, one more at a time. -/
theorem take_succ_walk {n k : Nat} (h : n + 1 < 2 ^ k) :
    (walk k).take (n + 1) = (walk k).take n ++ [n + 1] := by
  have hstep : (walk k)[n]? = some (n + 1) := by
    rw [walk, List.getElem?_range' (by omega), Nat.mul_comm, Nat.mul_one, Nat.add_comm]
  rw [List.take_add_one, hstep, Option.toList_some]

/-- What a fold over the first steps of the walk keeps, given what a single step does. -/
theorem foldl_take_walk {β : Type} {k : Nat} {step : β → Nat → β} {I : Nat → β → Prop} {b : β}
    (h0 : I 0 b) (hstep : ∀ n w, n + 1 < 2 ^ k → I n w → I (n + 1) (step w (n + 1))) {n : Nat}
    (hn : n < 2 ^ k) : I n (((walk k).take n).foldl step b) := by
  induction n with
  | zero => exact h0
  | succ n ih =>
    rw [take_succ_walk hn, List.foldl_append]
    exact hstep n _ hn (ih (by omega))

/-- All its steps are the whole walk. -/
theorem take_walk (k : Nat) : (walk k).take (2 ^ k - 1) = walk k :=
  List.take_of_length_le (Nat.le_of_eq (by rw [walk, List.length_range']))

/-- What a fold over the walk keeps, given what a single step does. -/
theorem foldl_walk {β : Type} {k : Nat} {step : β → Nat → β} {I : Nat → β → Prop} {b : β}
    (h0 : I 0 b) (hstep : ∀ n w, n + 1 < 2 ^ k → I n w → I (n + 1) (step w (n + 1))) :
    I (2 ^ k - 1) ((walk k).foldl step b) := by
  have h := foldl_take_walk h0 hstep (n := 2 ^ k - 1) (by have := Nat.two_pow_pos k; omega)
  rwa [take_walk] at h

end FusionMove.Gray
