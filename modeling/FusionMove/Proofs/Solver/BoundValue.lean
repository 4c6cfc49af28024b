import FusionMove.Proofs.Solver.Reached
import Mathlib.Algebra.Order.Field.Rat
import Mathlib.Tactic.Linarith
import Mathlib.Tactic.NormNum
import Mathlib.Tactic.Ring

namespace FusionMove

/-!
# When lower bounds are valid

In rational arithmetic a lower bound is the dual objective `D` over a divisor `r`.  By consistency
the heights of a labeling are its unary costs and its duals, so `r` times its energy exceeds `D` by

  `(r - 1) * unary costs + (heights - lowest heights) - (duals - r * clique energies)`.

The last term is what the bound has to control.  It visits every triple once, but goes on shifting
duals afterwards; and a divisor below one takes from the first term.  So the value can lie above
the energy of a labeling.

* `Solver.measure_value_le_iff` — exactly when it does not;
* `Certificate.Covers` — no triple has duals above `r` times its energy: then the value is a lower
  bound, if `r` is not below one;
* `Certificate.Settled` — no triple is left to be shifted: then the divisor covers all triples.
-/

open FusionMove.Action
open scoped CoreArithmetic

/-! ### The divisor -/

deriving instance DecidableEq for Bound

namespace Bound

/-- What the objective is divided by. -/
def divisor (b : Bound Rat) : Rat :=
  if b.Unscaled then 1 else b.ratio

theorem divisor_pos (b : Bound Rat) : 0 < b.divisor := by
  unfold divisor
  split
  · decide
  · rename_i h
    have hpos : ¬ b.ratio ≤ ((0 : Int) : Rat) := h
    simpa using hpos

theorem ratio_le_divisor (b : Bound Rat) : b.ratio ≤ b.divisor := by
  unfold divisor
  split
  · rename_i h
    have hle : b.ratio ≤ ((0 : Int) : Rat) := h
    rw [Int.cast_zero] at hle
    linarith
  · exact le_refl _

theorem value_eq_div (b : Bound Rat) : b.value = (b.objective : Rat) / b.divisor := by
  unfold value divisor
  split
  · rw [div_one]
  · rfl

/-- The value is at most a number iff the objective is at most its multiple. -/
theorem value_le_iff (b : Bound Rat) (e : Rat) :
    b.value ≤ e ↔ (b.objective : Rat) ≤ b.divisor * e := by
  rw [value_eq_div, div_le_iff₀ b.divisor_pos, mul_comm]

end Bound

namespace Model

/-- The unary costs of a labeling. -/
def unaryEnergy (m : Model) (x : Nat → Nat) : Int :=
  sumTo m.numVars fun v => m.unary v (x v)

/-- The energies of all cliques at a labeling. -/
def cliqueEnergy (m : Model) (x : Nat → Nat) : Int :=
  (m.cliques.map (·.energyAt x)).sum

/-- The labels of a clique of three are a triple. -/
theorem WellFormed.labelsAt_mem_triples {m : Model} (hw : m.WellFormed) {c : Nat} {clique : Clique}
    (hclique : m.cliques[c]? = some clique) (hsize : clique.size = 3) {x : Nat → Nat}
    (hx : ∀ v, x v < m.numLabels) : clique.labelsAt x ∈ triples m.numLabels :=
  mem_triples.mpr ⟨by rw [hw.length_labelsAt hclique, hsize], hw.labelsAt_lt hclique hx⟩

end Model

/-- By how much the heights of the labels exceed the lowest ones. -/
def Heights.spare (t : Heights) (x : Nat → Nat) : Int :=
  sumTo t.numVars (fun v => t.get v (x v)) - t.objective

/-- No height lies below the lowest one. -/
theorem Heights.Shaped.spare_nonneg {m : Model} {t : Heights} (hs : t.Shaped m) {x : Nat → Nat}
    (hx : ∀ v, x v < m.numLabels) : 0 ≤ t.spare x := by
  have hle : t.objective ≤ sumTo t.numVars fun v => t.get v (x v) := by
    apply sumTo_le_sumTo
    intro v hv
    rw [hs.numVars_eq (Nat.zero_lt_of_lt (hx 0))] at hv
    exact hs.lowest_le hv (hx v)
  unfold spare
  omega

namespace Certificate

variable {m : Model} {t : Certificate} {x : Nat → Nat} {r : Rat}

/-- The triple has no energy below zero, and no duals above `r` times its energy. -/
def CoversTriple (t : Certificate) (c : Nat) (clique : Clique) (r : Rat) (triple : List Nat) :
    Prop :=
  0 ≤ clique.energy triple ∧ (t.dualSum c triple : Rat) ≤ r * clique.energy triple

/-- A larger ratio covers as much. -/
theorem CoversTriple.mono {c : Nat} {clique : Clique} {triple : List Nat} {r' : Rat}
    (h : t.CoversTriple c clique r triple) (hr : r ≤ r') : t.CoversTriple c clique r' triple := by
  obtain ⟨henergy, hle⟩ := h
  have henergy' : (0 : Rat) ≤ clique.energy triple := by exact_mod_cast henergy
  exact ⟨henergy, hle.trans (mul_le_mul_of_nonneg_right hr henergy')⟩

/-- No triple of a clique has duals above `r` times its energy. -/
def Covers (m : Model) (t : Certificate) (r : Rat) : Prop :=
  ∀ c clique, m.cliques[c]? = some clique → ∀ triple ∈ triples m.numLabels,
    (t.dualSum c triple : Rat) ≤ r * clique.energy triple

/-- Triples of energy zero have the dual sum zero already. -/
def Settled (m : Model) (t : Certificate) : Prop :=
  ∀ c clique, m.cliques[c]? = some clique → ∀ triple ∈ triples m.numLabels,
    clique.energy triple = 0 → t.dualSum c triple = 0

/-- By how much `r` times the energy exceeds the objective of consistent heights. -/
theorem mul_energy_sub_objective (hw : m.WellFormed) (hs : t.Shaped m) (hc : t.Consistent m)
    (hx : ∀ v, x v < m.numLabels) (r : Rat) :
    r * m.energy x - t.heights.objective
      = (r - 1) * m.unaryEnergy x + t.heights.spare x
        - (t.dualTotal m x - r * m.cliqueEnergy x) := by
  have hheights : t.heights.spare x + t.heights.objective = m.unaryEnergy x + t.dualTotal m x := by
    unfold Heights.spare
    rw [hs.heights.numVars_eq (Nat.zero_lt_of_lt (hx 0)), sum_heights_eq hw hc hx]
    unfold Model.unaryEnergy
    omega
  have henergy : m.energy x = m.unaryEnergy x + m.cliqueEnergy x := rfl
  have hobjective : (t.heights.objective : Rat)
      = m.unaryEnergy x + t.dualTotal m x - t.heights.spare x := by
    rw [← Int.cast_add, ← hheights, Int.cast_add]
    ring
  rw [henergy, hobjective, Int.cast_add]
  ring

/-- What holds of the terms of two sums, one scaled, holds of the sums. -/
private theorem sumTo_le_mul {n : Nat} {f g : Nat → Int}
    (h : ∀ i < n, (f i : Rat) ≤ r * g i) : (sumTo n f : Rat) ≤ r * sumTo n g := by
  induction n with
  | zero => simp
  | succ n ih =>
    have hrest := ih fun i hi => h i (by omega)
    have hlast := h n (by omega)
    rw [sumTo_succ, sumTo_succ, Int.cast_add, Int.cast_add]
    linarith

/-- Where the duals of a clique are tight and its energy is positive, a factor that covers all
    triples is not below one. -/
theorem Covers.one_le (h : t.Covers m r) (ht : t.Tight m x) (hw : m.WellFormed)
    (hx : ∀ v, x v < m.numLabels) {c : Nat} {clique : Clique}
    (hclique : m.cliques[c]? = some clique)
    (hsize : clique.size = 3) (hpos : 0 < clique.energyAt x) : 1 ≤ r := by
  have hle := h c clique hclique _ (hw.labelsAt_mem_triples hclique hsize hx)
  rw [tight_iff.mp ht c clique hclique, Clique.energyAt] at hle
  have hpos' : (0 : Rat) < clique.energy (clique.labelsAt x) := by exact_mod_cast hpos
  by_contra hlt
  have : r * clique.energy (clique.labelsAt x) < 1 * clique.energy (clique.labelsAt x) :=
    mul_lt_mul_of_pos_right (not_le.mp hlt) hpos'
  linarith

/-- A certificate that covers all triples has no duals above the scaled energies of a labeling. -/
theorem Covers.dualTotal_le (h : t.Covers m r) (hsize : ∀ clique ∈ m.cliques, clique.size = 3)
    (hw : m.WellFormed) (hx : ∀ v, x v < m.numLabels) :
    (t.dualTotal m x : Rat) ≤ r * m.cliqueEnergy x := by
  unfold dualTotal Model.cliqueEnergy
  rw [sum_map_eq_sumTo]
  apply sumTo_le_mul
  intro c hc
  have hclique : m.cliques[c]? = some m.cliques[c] := List.getElem?_eq_getElem hc
  rw [hclique, Option.map_some, Option.map_some, Option.getD_some, Option.getD_some]
  have hthree := hsize _ (List.mem_of_getElem? hclique)
  exact h c _ hclique _ (hw.labelsAt_mem_triples hclique hthree hx)

end Certificate

namespace Solver

variable {σ τ : Type} {m : Model} {s : Solver σ τ} {c : Nat} {clique : Clique}

/-- There is nothing to settle at a triple whose dual sum is zero. -/
theorem settle_zero (c : Nat) (clique : Clique) (triple : List Nat) (s : Solver σ τ) :
    Ends (settle c clique triple 0) s (fun _ s' => s' = s) (fun _ _ => False) := by
  unfold settle
  refine ends_bind (ends_get ?_)
  dsimp only
  split
  · refine ends_modify ?_
    rw [Int.neg_zero, Certificate.shift_zero]
  · rw [if_neg (by simp)]
    exact ends_pure rfl

/-- Where nothing is left to settle, a visit changes no dual, and the ratio covers the triple. -/
theorem visitTriple_settled {triple : List Nat}
    (hzero : clique.energy triple = 0 → s.certificate.dualSum c triple = 0) (ratio : Rat) :
    Ends (visitTriple c clique ratio triple) s
      (fun ratio' s' => s' = s ∧ ratio ≤ ratio' ∧ s.certificate.CoversTriple c clique ratio' triple)
      (fun _ _ => True) := by
  unfold visitTriple
  refine ends_bind (ends_get ?_)
  show Ends (if clique.energy triple < 0 then _ else _) _ _ _
  split
  · exact ends_fail trivial
  · rename_i hneg
    split
    · rename_i hz
      have hcovers : s.certificate.CoversTriple c clique ratio triple := by
        refine ⟨Int.not_lt.mp hneg, ?_⟩
        rw [hzero hz, hz, Int.cast_zero, mul_zero]
      rw [hzero hz]
      refine ends_bind ((settle_zero c clique triple s).mono (fun _ s' hs' => ?_)
        fun _ _ hf => hf.elim)
      exact ends_pure ⟨hs', le_refl _, hcovers⟩
    · rename_i hnz
      have hpos : (0 : Rat) < clique.energy triple := by
        have : 0 < clique.energy triple := by omega
        exact_mod_cast this
      have hhere : (s.certificate.dualSum c triple : Rat) / clique.energy triple
          * clique.energy triple = s.certificate.dualSum c triple := div_mul_cancel₀ _ hpos.ne'
      refine ends_pure ⟨rfl, ?_⟩
      split
      · rename_i hle
        exact ⟨hle, Int.not_lt.mp hneg, hhere.ge⟩
      · rename_i hlt
        refine ⟨le_refl _, Int.not_lt.mp hneg, ?_⟩
        rw [← hhere]
        exact mul_le_mul_of_nonneg_right (not_le.mp hlt).le hpos.le

/-- So does a visit of all triples of a clique. -/
theorem visitClique_settled (hn : s.numLabels = m.numLabels)
    (hzero : ∀ triple ∈ triples m.numLabels, clique.energy triple = 0 →
      s.certificate.dualSum c triple = 0) (ratio : Rat) :
    Ends (visitClique ratio (clique, c)) s
      (fun ratio' s' => s' = s ∧ ratio ≤ ratio' ∧
        ∀ triple ∈ triples m.numLabels, s.certificate.CoversTriple c clique ratio' triple)
      (fun _ _ => True) := by
  unfold visitClique
  refine ends_bind (ends_get ?_)
  rw [hn]
  refine ends_foldlM_seen (I := fun seen ratio' s' => s' = s ∧ ratio ≤ ratio' ∧
    ∀ triple ∈ seen, s.certificate.CoversTriple c clique ratio' triple)
    (fun seen triple htriple ratio₁ s₁ h₁ => ?_) ⟨rfl, le_refl _, by simp⟩
  obtain ⟨rfl, hle, hseen⟩ := h₁
  refine (visitTriple_settled (hzero triple htriple) ratio₁).mono_ok fun ratio₂ s₂ h₂ => ?_
  obtain ⟨rfl, hle₂, hcovers⟩ := h₂
  refine ⟨rfl, hle.trans hle₂, fun other hother => ?_⟩
  rcases List.mem_append.mp hother with hother | hother
  · exact (hseen other hother).mono hle₂
  · obtain rfl := List.mem_singleton.mp hother
    exact hcovers

/-- Where nothing is left to settle, a measurement changes no dual, and the divisor covers all
    triples. -/
theorem measure_settled (h : Sound m s)
    (hsettled : (ensureStarted m s).state.certificate.Settled m) :
    Ends (measure m) s (fun b s' => s'.certificate.Covers m b.divisor) (fun _ _ => True) := by
  unfold measure
  refine ends_bind ((checkTriples_ends m s).mono (fun _ s₁ h₁ => ?_) fun _ _ _ => trivial)
  obtain ⟨rfl, -⟩ := h₁
  have hstarted : Ends (ensureStarted m) s₁
      (fun _ s₂ => Certified m s₂ ∧ s₂ = (ensureStarted m s₁).state) (fun _ _ => True) :=
    ends_iff.mpr ⟨fun _ hok => ⟨((ensureStarted_ends h).of_ok hok).2.1, rfl⟩, fun _ _ => trivial⟩
  refine ends_bind (hstarted.mono_ok fun _ s₂ h₂ => ?_)
  obtain ⟨hcert, rfl⟩ := h₂
  generalize (ensureStarted m s₁).state = s₂ at hsettled hcert
  -- every clique done is covered, and stays so as the ratio grows
  refine ends_bind ((ends_foldlM_seen (I := fun seen ratio s' => s' = s₂ ∧ ∀ p ∈ seen,
    ∀ triple ∈ triples m.numLabels, s₂.certificate.CoversTriple p.2 p.1 ratio triple)
    (fun seen p hp ratio s₃ h₃ => ?_) ⟨rfl, by simp⟩).mono_ok fun ratio s₃ h₃ => ?_)
  · obtain ⟨rfl, hseen⟩ := h₃
    obtain ⟨clique, c⟩ := p
    have hclique := List.mem_zipIdx_iff_getElem?.mp hp
    refine (visitClique_settled hcert.numLabels_eq (hsettled c clique hclique) ratio).mono_ok
      fun ratio' s₄ h₄ => ?_
    obtain ⟨rfl, hle, hcovers⟩ := h₄
    refine ⟨rfl, fun other hother triple htriple => ?_⟩
    rcases List.mem_append.mp hother with hother | hother
    · exact (hseen other hother triple htriple).mono hle
    · obtain rfl := List.mem_singleton.mp hother
      exact hcovers triple htriple
  · obtain ⟨rfl, hcovers⟩ := h₃
    refine ends_bind (ends_get (ends_pure fun c clique hclique triple htriple => ?_))
    have hp : (clique, c) ∈ m.cliques.zipIdx := List.mem_zipIdx_iff_getElem?.mpr hclique
    exact ((hcovers (clique, c) hp triple htriple).mono (Bound.ratio_le_divisor _)).2

/-! ### Validity -/

/-- The lower bound in rational arithmetic. -/
def measureExactly (m : Model) : Action (Solver σ τ) (Bound Rat) :=
  measure m

/-- Let a state that a new solver reaches give the bound `b`, and let `t` be the certificate that it
    leaves.  The value lies below the energy of a labeling exactly if what the duals exceed the
    scaled clique energies by is made up for by what scaling adds to the unary costs and by what the
    heights exceed the lowest ones by.  So it is a lower bound if the divisor is not below one and
    `t` covers all triples.  The divisor is not below one if `t` covers all triples and some clique
    has a positive energy at the current labels, and `t` covers all triples if nothing was left to
    settle. -/
theorem measure_value_le_iff {o : Cut.Oracle σ} {engine : Cut.Engine σ} {config : Config}
    (hr : Reached m o (Solver.new engine config) s) {b : Bound Rat}
    (hb : (measureExactly m s).result = .ok b) {t : Certificate}
    (ht : (measureExactly m s).state.certificate = t) :
    (∀ y : Nat → Nat, (∀ v, y v < m.numLabels) → (b.value ≤ m.energy y ↔
      t.dualTotal m y - b.divisor * m.cliqueEnergy y
        ≤ (b.divisor - 1) * m.unaryEnergy y + t.heights.spare y)) ∧
    (1 ≤ b.divisor → t.Covers m b.divisor → ∀ y : Nat → Nat, (∀ v, y v < m.numLabels) →
      0 ≤ m.unaryEnergy y → b.value ≤ m.energy y) ∧
    (t.Covers m b.divisor →
      (∃ clique ∈ m.cliques, 0 < clique.energyAt (measureExactly m s).state.labeling) →
        1 ≤ b.divisor) ∧
    ((ensureStarted m s).state.certificate.Settled m → t.Covers m b.divisor) := by
  have hsound : Sound m s := (hr.sound (sound_new engine config)).1
  obtain ⟨hcert, hsize, hobjective⟩ : Certified m (measureExactly m s).state ∧
      (∀ clique ∈ m.cliques, clique.size = 3) ∧
      b.objective = (measureExactly m s).state.certificate.heights.objective := by
    obtain ⟨-, h₁, -, h₂, h₃⟩ := (measure_ends hsound).of_ok hb
    exact ⟨h₁, h₂, h₃⟩
  have hshaped : t.Shaped m := ht ▸ hcert.shaped
  have hconsistent : t.Consistent m := ht ▸ hcert.consistent
  rw [ht] at hobjective
  have hexact : ∀ y : Nat → Nat, (∀ v, y v < m.numLabels) → (b.value ≤ m.energy y ↔
      t.dualTotal m y - b.divisor * m.cliqueEnergy y
        ≤ (b.divisor - 1) * m.unaryEnergy y + t.heights.spare y) := by
    intro y hy
    have hgap := Certificate.mul_energy_sub_objective hcert.wellFormed hshaped hconsistent hy
      b.divisor
    rw [Bound.value_le_iff, hobjective]
    constructor <;> intro hle <;> linarith
  refine ⟨hexact, fun hdivisor hcovers y hy hunary => ?_, ?_, fun hsettled => ?_⟩
  · -- both sides of the exact condition have their sign
    have hduals := hcovers.dualTotal_le hsize hcert.wellFormed hy
    have hspare : (0 : Rat) ≤ t.heights.spare y := by exact_mod_cast hshaped.heights.spare_nonneg hy
    have hunary' : (0 : Rat) ≤ m.unaryEnergy y := by exact_mod_cast hunary
    have hscaled : 0 ≤ (b.divisor - 1) * m.unaryEnergy y := mul_nonneg (by linarith) hunary'
    rw [hexact y hy]
    linarith
  · rintro hcovers ⟨clique, hmem, hpos⟩
    obtain ⟨c, hc, rfl⟩ := List.mem_iff_getElem.mp hmem
    exact hcovers.one_le (ht ▸ hcert.tight) hcert.wellFormed hcert.labeling_lt
      (List.getElem?_eq_getElem hc) (hsize _ hmem) hpos
  · rw [← ht]
    exact (measure_settled hsound hsettled).of_ok hb

/-- A clique that costs at least one everywhere leaves nothing to settle, and its duals are tight
    at the labels that the run ends with. -/
theorem measure_value_le_iff_affine :
    let m : Model := .ofRows 2 #[#[0, 3], #[2, 0], #[1, 0]] [.affine [0, 1, 2] 1 [2, 1, 1]]
    let s₀ : Solver Unit Unit := Solver.new ⟨Cut.Graph.empty, ()⟩ .standard
    ∃ s, Reached m Cut.maxFlow s₀ s ∧ (measureExactly m s).result = .ok ⟨3, 1⟩ ∧
      ∀ y : Nat → Nat, (∀ v, y v < m.numLabels) → (⟨3, 1⟩ : Bound Rat).value ≤ m.energy y := by
  intro m s₀
  have hok : (iterate m Cut.maxFlow 1 s₀).result = .ok ⟨1, .converged⟩ := by decide +kernel
  have hb : (measureExactly m (iterate m Cut.maxFlow 1 s₀).state).result = .ok ⟨3, 1⟩ := by
    decide +kernel
  have hr : Reached m Cut.maxFlow s₀ (iterate m Cut.maxFlow 1 s₀).state :=
    Reached.here.iterate 1 hok
  generalize (iterate m Cut.maxFlow 1 s₀).state = s at hr hb
  refine ⟨s, hr, hb, fun y hy => ?_⟩
  obtain ⟨-, hvalid, -, hcovers⟩ := measure_value_le_iff hr hb rfl
  have hpositive : ∀ triple ∈ triples 2,
      (Clique.affine [0, 1, 2] 1 [2, 1, 1]).energy triple ≠ 0 := by
    decide
  refine hvalid (by decide +kernel)
    (hcovers fun c clique hclique triple htriple hzero => ?_) y hy ?_
  · obtain rfl := List.mem_singleton.mp (List.mem_of_getElem? hclique)
    exact absurd hzero (hpositive triple htriple)
  · have hunary : ∀ v < 3, ∀ l < 2, 0 ≤ m.unary v l := by decide
    exact sumTo_nonneg fun v hv => hunary v hv (y v) (hy v)

/-- Three variables that agree when the run has converged.  No triple has duals above a quarter of
    its energy, and the value is four times the energy of the labels that they have. -/
theorem measure_value_above_energy :
    let m : Model := .ofRows 2 #[#[0, 1], #[1, 0], #[0, 0]] [.potts [0, 1, 2] 4]
    let s₀ : Solver Unit Unit := Solver.new ⟨Cut.Graph.empty, ()⟩ .standard
    (m.Valid ∧ m.NonNegative ∧ ∀ v < m.numVars, ∀ l < m.numLabels, 0 ≤ m.unary v l) ∧
      ∃ s, Reached m Cut.maxFlow s₀ s ∧ s.phase = .converged ∧
        ∃ b, (measureExactly m s).result = .ok b ∧ b.value = 4 ∧ m.energy (fun _ => 0) = 1 := by
  intro m s₀
  have hvalid : m.Valid := ⟨Model.fault?_eq_none_iff.mp (by decide), by decide, by decide⟩
  have hnonneg : m.NonNegative := by
    intro clique hclique x _
    obtain rfl := List.mem_singleton.mp hclique
    exact Model.energyAt_potts_nonneg _ (by decide) x
  have hunary : ∀ v < m.numVars, ∀ l < m.numLabels, 0 ≤ m.unary v l := by decide
  have hok : (iterate m Cut.maxFlow 4 s₀).result = .ok ⟨2, .converged⟩ := by decide +kernel
  have hphase : (iterate m Cut.maxFlow 4 s₀).state.phase = .converged := by decide +kernel
  have hb : (measureExactly m (iterate m Cut.maxFlow 4 s₀).state).result = .ok ⟨1, 1 / 4⟩ := by
    decide +kernel
  have hr : Reached m Cut.maxFlow s₀ (iterate m Cut.maxFlow 4 s₀).state :=
    Reached.here.iterate 4 hok
  generalize (iterate m Cut.maxFlow 4 s₀).state = s at hr hphase hb
  have hvalue : (⟨1, 1 / 4⟩ : Bound Rat).value = 4 := by decide +kernel
  exact ⟨⟨hvalid, hnonneg, hunary⟩, s, hr, hphase, _, hb, hvalue, by decide⟩

end Solver

end FusionMove
