import FusionMove.Energy.Clique
import FusionMove.Proofs.Fusion.Table
import Mathlib.Data.List.Nodup
import Mathlib.Data.List.Range

namespace FusionMove

/-!
# One visit a mask

The codes of the numbers below `2 ^ k` are the masks of `k` members, each once.  So the walk writes
every entry once: no energy is evaluated twice, and no later step undoes what an earlier one
subtracted.

To say how often an energy is evaluated, `Fusion.fillIn` fills a table as `fill?` does, with an
energy that is evaluated in a monad.  With plain values it is `fill?` itself; `Fusion.recorded` is
an energy that also writes down what it is asked for.

* `Gray.masks_perm` — the masks of a walk are all masks, each once;
* `Fusion.fillIn_recorded` — what a filling asks for;
* `Fusion.fill?_visits_once` — it is the brute-force table, over one evaluation a mask;
* `Fusion.reduce?_visits_once` — every entry loses the sum of its own terms, since this is what the
  running sum has come to.
-/

open scoped CoreArithmetic

namespace Gray

/-- The masks that a walk comes to, in order: the empty one and the code of every step. -/
def masks (k : Nat) : List Nat :=
  0 :: (walk k).map code

/-- They are the codes of all numbers below `2 ^ k`. -/
theorem masks_eq_map (k : Nat) : masks k = (List.range (2 ^ k)).map code := by
  have hpos := Nat.two_pow_pos k
  have hwalk : List.range (2 ^ k) = 0 :: walk k := by
    rw [walk, ← Nat.zero_add 1, ← List.range'_succ, List.range_eq_range', Nat.sub_add_cancel hpos]
  rw [hwalk, List.map_cons, code_zero, masks]

/-- A walk comes to every mask once. -/
theorem masks_perm (k : Nat) : (masks k).Perm (List.range (2 ^ k)) := by
  rw [masks_eq_map]
  refine (List.perm_ext_iff_of_nodup (List.nodup_range.map fun _ _ h => code_injective h)
    List.nodup_range).mpr fun mask => ?_
  rw [List.mem_map, List.mem_range]
  constructor
  · rintro ⟨a, ha, rfl⟩
    exact code_lt (List.mem_range.mp ha)
  · intro hmask
    obtain ⟨a, ha, rfl⟩ := exists_code hmask
    exact ⟨a, List.mem_range.mpr ha, rfl⟩

example : masks 3 = [0, 1, 3, 2, 6, 7, 5, 4] := by decide

end Gray

namespace Fusion

/-! ### Energies that are evaluated in a monad -/

section

variable {M : Type → Type} [Monad M] [MonadLiftT (Except Fault) M]

/-- A step of `fill?` whose energy is evaluated in `M`. -/
def Tabulation.stepIn (energy : List Nat → M Int) (current fused : List Nat) (w : Tabulation)
    (a : Nat) : M Tabulation := do
  let i := Gray.flipped a
  let label ← liftM (present (if (Gray.code a).testBit i then fused[i]? else current[i]?))
  let _ ← liftM (present w.labels[i]?)
  let labels := w.labels.set i label
  let value ← energy labels
  let table ← liftM (setAt? w.table (Gray.code a) value)
  return ⟨labels, table⟩

/-- `fill?` with an energy that is evaluated in `M`. -/
def fillIn (energy : List Nat → M Int) (current fused : List Nat) (table : Array Int) :
    M (Array Int) := do
  let value ← energy current
  let first ← liftM (setAt? table 0 value)
  let last ← (Gray.walk current.length).foldlM (Tabulation.stepIn energy current fused)
    ⟨current, first⟩
  return last.table

end

/-- Computations that write down label tuples, the latest last. -/
abbrev Recording : Type → Type :=
  StateT (List (List Nat)) (Except Fault)

/-- An energy that writes down every tuple it is evaluated at. -/
def recorded (energy : List Nat → Int) (labels : List Nat) : Recording Int := fun asked =>
  .ok (energy labels, asked ++ [labels])

/-- A walk whose steps ask one question each asks them in order. -/
theorem foldlM_walk_recorded {β : Type} {k : Nat} {stepIn : β → Nat → Recording β}
    {step : β → Nat → β} {question : Nat → List Nat} {I : Nat → β → Prop} {b : β} (h0 : I 0 b)
    (hstep : ∀ n w, n + 1 < 2 ^ k → I n w → I (n + 1) (step w (n + 1)) ∧
      ∀ asked, stepIn w (n + 1) asked = .ok (step w (n + 1), asked ++ [question (n + 1)]))
    (asked : List (List Nat)) :
    (Gray.walk k).foldlM stepIn b asked
      = .ok ((Gray.walk k).foldl step b, asked ++ (Gray.walk k).map question) := by
  have hall := @Gray.foldl_walk β k step
    (fun n w => I n w ∧ ((Gray.walk k).take n).foldlM stepIn b asked
      = .ok (w, asked ++ ((Gray.walk k).take n).map question)) b
    ⟨h0, by rw [List.take_zero, List.map_nil, List.append_nil]; rfl⟩ ?_
  · rw [Gray.take_walk] at hall
    exact hall.2
  · rintro n w hn ⟨hinv, hrun⟩
    obtain ⟨hinv', hask⟩ := hstep n w hn hinv
    refine ⟨hinv', ?_⟩
    rw [Gray.take_succ_walk hn, List.foldlM_append, List.map_append, ← List.append_assoc]
    show (((Gray.walk k).take n).foldlM stepIn b asked >>= fun p =>
      [n + 1].foldlM stepIn p.1 p.2) = _
    rw [hrun, ok_bind]
    show (stepIn w (n + 1) _ >>= fun p => Except.ok p) = _
    rw [hask]
    rfl

/-- A filling asks for the tuple of every mask, in the order of the walk. -/
theorem fillIn_recorded (energy : List Nat → Int) {current fused : List Nat} {table : Array Int}
    (hfits : Fits current.length fused.length table.size) :
    fillIn (recorded energy) current fused table []
      = .ok (tabulate energy current fused table,
          (Gray.masks current.length).map (mix current fused)) := by
  obtain ⟨hlength, hsize⟩ := hfits
  have hpos := Nat.two_pow_pos current.length
  have hwalk := @foldlM_walk_recorded _ current.length
    (Tabulation.stepIn (recorded energy) current fused) (Tabulation.step energy current fused)
    (fun n => mix current fused (Gray.code n))
    (fun n w => w.labels = mix current fused (Gray.code n) ∧ w.table.size = table.size)
    ⟨current, table.setIfInBounds 0 (energy current)⟩
    ⟨by rw [Gray.code_zero, mix_zero], Array.size_setIfInBounds⟩
    (fun n w hn hw => ?_) [current]
  · have hrun : fillIn (recorded energy) current fused table []
        = ((Gray.walk current.length).foldlM (Tabulation.stepIn (recorded energy) current fused)
            ⟨current, table.setIfInBounds 0 (energy current)⟩ [current] >>=
          fun p => Except.ok (p.1.table, p.2)) := by
      unfold fillIn
      simp only [setAt?_eq_ok (show 0 < table.size by omega)]
      rfl
    rw [hrun, hwalk, Gray.masks, List.map_cons, mix_zero, List.map_map]
    rfl
  · -- a step evaluates the energy at the labels that it leaves, those of its mask
    obtain ⟨hlabels, htable⟩ := hw
    have hflip := Gray.flipped_lt hn
    have hcode : Gray.code (n + 1) < w.table.size := by
      have := Gray.code_lt hn
      omega
    have hnext : (Tabulation.step energy current fused w (n + 1)).labels
        = mix current fused (Gray.code (n + 1)) := by
      rw [mix_code_succ, ← hlabels]
      rfl
    refine ⟨⟨hnext, by simp [Tabulation.step, htable]⟩, fun asked => ?_⟩
    rw [← hnext, Tabulation.stepIn, present_label hlength hflip,
      present_list (by simp [hlabels, hflip]) 0]
    simp only [setAt?_eq_ok hcode]
    rfl

/-! ### Entries -/

private theorem getElem?_of_getD {xs : Array Int} {t : Nat} {a : Int} (ht : t < xs.size)
    (h : xs.getD t 0 = a) : xs[t]? = some a := by
  rw [← h, Array.getD_eq_getD_getElem?, Array.getElem?_eq_getElem ht, Option.getD_some]

private theorem getElem?_eq_of_getD {xs ys : Array Int} {t : Nat} (hsize : xs.size = ys.size)
    (h : xs.getD t 0 = ys.getD t 0) : xs[t]? = ys[t]? := by
  by_cases ht : t < ys.size
  · rw [getElem?_of_getD (hsize ▸ ht) h, getElem?_of_getD ht rfl]
  · rw [Array.getElem?_eq_none (by omega), Array.getElem?_eq_none (by omega)]

/-- A table and labels that are long enough are filled with the energy of every fusion, mask by
    mask, and nothing else in the table changes.  The walk comes to every mask once.  The filling is
    that of `fillIn` with plain values, which evaluates the energy at the tuple of every mask that
    the walk comes to: `2 ^ k` times in all. -/
theorem fill?_visits_once (energy : List Nat → Int) {current fused : List Nat} {table : Array Int}
    (hfits : Fits current.length fused.length table.size) :
    ∃ filled asked, fill? energy current fused table = .ok filled ∧
      (∀ mask < 2 ^ current.length, filled[mask]? = some (energy (mix current fused mask))) ∧
      (filled.size = table.size ∧ ∀ t, 2 ^ current.length ≤ t → filled[t]? = table[t]?) ∧
      (Gray.masks current.length).Perm (List.range (2 ^ current.length)) ∧
      fill? energy current fused table
        = fillIn (M := Except Fault) (fun labels => .ok (energy labels)) current fused table ∧
      fillIn (recorded energy) current fused table [] = .ok (filled, asked) ∧
      asked = (Gray.masks current.length).map (mix current fused) ∧
      asked.length = 2 ^ current.length := by
  have hsize := hfits.2
  have hperm := Gray.masks_perm current.length
  refine ⟨_, _, fill?_eq_ok energy hfits, fun mask hmask => ?_,
    ⟨size_tabulate hsize, fun t ht => ?_⟩, hperm, rfl, fillIn_recorded energy hfits, rfl, ?_⟩
  · exact getElem?_of_getD (by rw [size_tabulate hsize]; omega) (getD_tabulate hsize hmask)
  · exact getElem?_eq_of_getD (size_tabulate hsize) (getD_tabulate_of_le hsize ht)
  · rw [List.length_map, hperm.length_eq, List.length_range]

/-- Two members and a table with an entry too many. -/
theorem fill?_visits_once_affine :
    let energy := (Clique.affine [0, 1] 5 [1, 10]).energy
    Fits 2 2 5 ∧ ∃ filled, fill? energy [0, 2] [1, 1] #[9, 9, 9, 9, 9] = .ok filled ∧
      filled[1]? = some 26 ∧ filled[2]? = some 15 ∧ filled[4]? = some 9 ∧
      fillIn (recorded energy) [0, 2] [1, 1] #[9, 9, 9, 9, 9] []
        = .ok (filled, [[0, 2], [1, 2], [1, 1], [0, 1]]) := by
  intro energy
  have hfits : Fits 2 2 5 := by decide
  obtain ⟨filled, asked, hfill, hentries, ⟨-, hrest⟩, -, -, hasked, rfl, -⟩ :=
    @fill?_visits_once energy [0, 2] [1, 1] #[9, 9, 9, 9, 9] hfits
  exact ⟨hfits, filled, hfill, hentries 1 (by decide), hentries 2 (by decide),
    hrest 4 (by decide), hasked⟩

/-! ### The running sum -/

/-- After any number of steps the running sum is the sum for the mask that the walk has come to. -/
theorem linear_take_walk (fused current : List Int) (table : Array Int) {n : Nat}
    (hn : n < 2 ^ current.length) :
    (((Gray.walk current.length).take n).foldl (Discount.step fused current)
      ⟨current.sum, table⟩).linear = linear current.length fused current (Gray.code n) := by
  refine Gray.foldl_take_walk
    (I := fun n (w : Discount) => w.linear = linear current.length fused current (Gray.code n))
    ?_ (fun n w hn hw => ?_) hn
  · exact (linear_zero fused current).symm
  · rw [linear_code_succ hn, ← hw]
    rfl

/-- In a table and with terms that are long enough, the entry of every mask loses the sum with one
    term a member, the fused term inside of the mask and the current one outside, and nothing else
    in the table changes.  This sum is what the running sum has come to at the step of the mask, and
    every mask has one step. -/
theorem reduce?_visits_once {table : Array Int} {fused current : List Int}
    (hfits : Fits current.length fused.length table.size) :
    ∃ reduced, reduce? table fused current = .ok reduced ∧
      (∀ mask < 2 ^ current.length, reduced[mask]?
        = table[mask]?.map (· - linear current.length fused current mask)) ∧
      (reduced.size = table.size ∧ ∀ t, 2 ^ current.length ≤ t → reduced[t]? = table[t]?) ∧
      (Gray.masks current.length).Perm (List.range (2 ^ current.length)) ∧
      ∀ n < 2 ^ current.length, (((Gray.walk current.length).take n).foldl
        (Discount.step fused current) ⟨current.sum, table.modify 0 (· - current.sum)⟩).linear
          = linear current.length fused current (Gray.code n) := by
  have hsize := hfits.2
  refine ⟨_, reduce?_eq_ok hfits, fun mask hmask => ?_, ⟨size_discount hsize, fun t ht => ?_⟩,
    Gray.masks_perm _, fun n hn => linear_take_walk fused current _ hn⟩
  · rw [getElem?_of_getD (by rw [size_discount hsize]; omega) (getD_discount hsize hmask),
      @getElem?_of_getD table mask _ (by omega) rfl, Option.map_some]
  · exact getElem?_eq_of_getD (size_discount hsize) (getD_discount_of_le hsize ht)

/-- Two members, with a fused term and an entry too many. -/
theorem reduce?_visits_once_signed :
    Fits 2 3 5 ∧ ∃ reduced, reduce? #[7, 7, 0, -7, 9] [3, -1, 8] [1, 5] = .ok reduced ∧
      reduced[1]? = some (-1) ∧ reduced[2]? = some 0 ∧ reduced[3]? = some (-9) ∧
      reduced[4]? = some 9 := by
  have hfits : Fits 2 3 5 := by decide
  obtain ⟨reduced, hreduce, hentries, ⟨-, hrest⟩, -⟩ :=
    @reduce?_visits_once #[7, 7, 0, -7, 9] [3, -1, 8] [1, 5] hfits
  exact ⟨hfits, reduced, hreduce, hentries 1 (by decide), hentries 2 (by decide),
    hentries 3 (by decide), hrest 4 (by decide)⟩

end Fusion

end FusionMove
