import FusionMove.Solver.Start
import FusionMove.Proofs.Action
import FusionMove.Proofs.Certificate.Spread

namespace FusionMove

/-!
# Solvers that are ready

What holds of a solver between its operations, once it has tables:

* `Solver.Ready` — the tables have the dimensions of the model, labels are in range, and heights
  are consistent with duals;
* `Certificate.TightUpTo` — the duals of the first cliques are tight, those of the others are as
  they were; the loops over all cliques keep it, one clique a step;
* `Solver.Certified` — a ready solver whose duals are tight at its labeling;
* `Ready.dual?_eq`, `Ready.height?_eq` — what a ready solver shows.
-/

/-- The fault says that duals are not tight. -/
def Fault.blamesTightness : Fault → Bool
  | .tightnessViolated .. => true
  | _ => false

namespace Model

/-- No clique has an energy below zero. -/
def NonNegative (m : Model) : Prop :=
  ∀ clique ∈ m.cliques, ∀ x : Nat → Nat, (∀ v, x v < m.numLabels) → 0 ≤ clique.energyAt x

/-- Potts cliques have no energy below zero unless their penalty is. -/
theorem energyAt_potts_nonneg (nodes : List Nat) {penalty : Int} (h : 0 ≤ penalty)
    (x : Nat → Nat) : 0 ≤ (Clique.potts nodes penalty).energyAt x := by
  show 0 ≤ Clique.pottsEnergy penalty _
  unfold Clique.pottsEnergy
  split
  · exact Int.le_refl _
  · split
    · exact Int.le_refl _
    · exact h

/-- A table without entries below zero gives no energy below zero. -/
theorem energyAt_lookup_nonneg (nodes : List Nat) (radix : Nat) {values : Array Int}
    (h : ∀ e ∈ values, 0 ≤ e) (x : Nat → Nat) :
    0 ≤ (Clique.lookup nodes radix values).energyAt x := by
  show 0 ≤ values.getD (Clique.ofDigits radix _) 0
  rw [Array.getD_eq_getD_getElem?]
  cases he : values[Clique.ofDigits radix _]? with
  | none => exact Int.le_refl _
  | some e => exact h e (Array.mem_of_getElem? he)

/-- A model that the solver accepts. -/
structure Valid (m : Model) : Prop where
  wellFormed : m.WellFormed
  complete : m.complete = true
  numLabels_pos : 0 < m.numLabels

end Model

/-! ### One clique after the other -/

namespace Certificate

variable {m : Model} {t₀ t : Certificate} {x : Nat → Nat} {n : Nat}

/-- At `x`, the duals of the first `n` cliques are tight; the other cliques have their dual sums
    from `t₀`. -/
structure TightUpTo (m : Model) (x : Nat → Nat) (t₀ : Certificate) (n : Nat) (t : Certificate) :
    Prop where
  shaped : t.Shaped m
  consistent : t.Consistent m
  dualSum_eq : ∀ c clique, m.cliques[c]? = some clique → t.dualSum c (clique.labelsAt x)
    = if c < n then clique.energyAt x else t₀.dualSum c (clique.labelsAt x)

theorem TightUpTo.zero (hs : t.Shaped m) (hc : t.Consistent m) (x : Nat → Nat) :
    TightUpTo m x t 0 t :=
  ⟨hs, hc, fun c clique _ => by rw [if_neg (Nat.not_lt_zero c)]⟩

/-- Spreading what a clique's energy lacks in duals makes the clique tight. -/
theorem TightUpTo.succ (ht : TightUpTo m x t₀ n t) (hw : m.WellFormed)
    (hx : ∀ v, x v < m.numLabels) {clique : Clique} (hclique : m.cliques[n]? = some clique) :
    TightUpTo m x t₀ (n + 1) (t.spread n clique.nodes x
      (Shares.share (clique.energyAt x - t.dualSum n (clique.labelsAt x))
        (.ofNat clique.size))) := by
  have hpos := (hw.of_getElem? hclique).1
  refine ⟨ht.shaped.spread hclique hx _, ht.shaped.consistent_spread ht.consistent hw hclique hx _,
    fun c clique' hclique' => ?_⟩
  by_cases hc : n = c
  · subst hc
    rw [hclique, Option.some.injEq] at hclique'
    subst hclique'
    rw [ht.shaped.dualSum_spread_self hw hclique hx, 
      Shares.sum_share _ hpos (hw.size_lt hclique), if_pos (Nat.lt_succ_self n)]
    omega
  · rw [ht.shaped.dualSum_spread_of_ne hclique hx _ hc hclique' (hw.length_labelsAt hclique' x)
      (hw.labelsAt_lt hclique' hx), ht.dualSum_eq c clique' hclique']
    have hlt : c < n + 1 ↔ c < n := by omega
    simp only [hlt]

/-- After all cliques the certificate is tight. -/
theorem TightUpTo.tight (ht : TightUpTo m x t₀ m.numCliques t) : t.Tight m x :=
  tight_iff.mpr fun c clique hclique => by
    have hc : c < m.numCliques := (List.getElem?_eq_some_iff.mp hclique).1
    rw [ht.dualSum_eq c clique hclique, if_pos hc]

end Certificate

namespace Solver

variable {σ τ : Type} {m : Model} {s : Solver σ τ}

/-- The tables have the dimensions of the model, labels are in range, and heights are consistent
    with duals. -/
structure Ready (m : Model) (s : Solver σ τ) : Prop where
  wellFormed : m.WellFormed
  numLabels_pos : 0 < m.numLabels
  numLabels_eq : s.numLabels = m.numLabels
  labels_size : s.labels.size = m.numVars
  proposed_size : s.proposed.size = m.numVars
  labeling_lt : ∀ v, s.labeling v < m.numLabels
  shaped : s.certificate.Shaped m
  consistent : s.certificate.Consistent m

/-- A ready solver whose duals are tight at its labeling. -/
structure Certified (m : Model) (s : Solver σ τ) : Prop extends Ready m s where
  tight : s.certificate.Tight m s.labeling

/-! ### What keeps a solver ready -/

/-- The same labels are the same labeling. -/
theorem labeling_congr {s' : Solver σ τ} (h : s'.labels = s.labels) : s'.labeling = s.labeling := by
  ext v
  rw [labeling, labeling, h]

/-- An array of labels reads as labels everywhere, since what is missing reads as label 0. -/
theorem getD_lt_of_forall_mem {labels : Array Nat} {n : Nat} (hn : 0 < n)
    (hlabels : ∀ l ∈ labels, l < n) (v : Nat) : labels.getD v 0 < n := by
  rw [Array.getD_eq_getD_getElem?]
  cases hv : labels[v]? with
  | none => exact hn
  | some l => exact hlabels l (Array.mem_of_getElem? hv)

/-- Another certificate of the same dimensions. -/
theorem Ready.withCertificate (h : Ready m s) {t : Certificate} (hs : t.Shaped m)
    (hc : t.Consistent m) : Ready m { s with certificate := t } :=
  ⟨h.wellFormed, h.numLabels_pos, h.numLabels_eq, h.labels_size, h.proposed_size, h.labeling_lt,
    hs, hc⟩

/-- A shift of one dual keeps a solver ready. -/
theorem Ready.shift (h : Ready m s) {c i l : Nat} {clique : Clique}
    (hclique : m.cliques[c]? = some clique) (hi : i < clique.size) (hl : l < m.numLabels)
    (delta : Int) : Ready m
      { s with certificate := s.certificate.shift c i (clique.nodes.getD i 0) l delta } := by
  exact h.withCertificate (h.shaped.shift _ _ _ _ _) (h.shaped.consistent_shift h.consistent hclique
    (Clique.getElem?_nodes hi) (h.wellFormed.node_lt hclique hi) hl _)

/-- A ready solver stays ready if only engine, counters, phase or strategy change. -/
theorem Ready.of_eq (h : Ready m s) {s' : Solver σ τ} (hn : s'.numLabels = s.numLabels)
    (hl : s'.labels = s.labels) (hp : s'.proposed = s.proposed)
    (hc : s'.certificate = s.certificate) : Ready m s' := by
  refine ⟨h.wellFormed, h.numLabels_pos, by rw [hn, h.numLabels_eq], by rw [hl, h.labels_size],
    by rw [hp, h.proposed_size], fun v => ?_, by rw [hc]; exact h.shaped, by
      rw [hc]; exact h.consistent⟩
  rw [labeling, hl]
  exact h.labeling_lt v

theorem Certified.of_eq (h : Certified m s) {s' : Solver σ τ} (hn : s'.numLabels = s.numLabels)
    (hl : s'.labels = s.labels) (hp : s'.proposed = s.proposed)
    (hc : s'.certificate = s.certificate) : Certified m s' := by
  refine ⟨h.toReady.of_eq hn hl hp hc, ?_⟩
  rw [hc, labeling_congr hl]
  exact h.tight

/-! ### What a ready solver shows -/

/-- The duals of a ready solver, as it shows them. -/
theorem Ready.dual?_eq (h : Ready m s) {c : Nat} {clique : Clique}
    (hclique : m.cliques[c]? = some clique) {i : Nat} (hi : i < clique.size) {l : Nat}
    (hl : l < m.numLabels) : s.dual? m c i l = some (s.certificate.dual.get c i l) := by
  have hc : c < m.numCliques := (List.getElem?_eq_some_iff.mp hclique).1
  have hblocks := h.shaped.dual.numCliques_eq
  unfold dual?
  rw [if_neg (by rw [hblocks, h.numLabels_eq]; omega), hclique]
  exact if_neg (Nat.not_le.mpr hi)

/-- The heights of a ready solver, as it shows them. -/
theorem Ready.height?_eq (h : Ready m s) {v l : Nat} (hv : v < m.numVars)
    (hl : l < m.numLabels) : s.height? v l = some (s.certificate.heights.get v l) := by
  have hrows := h.shaped.heights.numVars_eq h.numLabels_pos
  unfold height?
  rw [if_neg (by rw [hrows, h.numLabels_eq]; omega)]

end Solver

end FusionMove
