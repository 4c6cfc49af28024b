import FusionMove.Solver.Bound
import FusionMove.Proofs.Solver.Start

namespace FusionMove

/-!
# What a lower bound changes

A lower bound rewrites duals of triples that differ from the current labels, so the sums at the
current labels stay as they are, and with them tightness.

* `Certificate.tight_shift` — a shift away from the labels of a clique keeps all duals tight;
* `Solver.visitTriple_ends`, `Solver.measure_ends` — a lower bound keeps a solver certified.
-/

open FusionMove.Action

/-! ### Triples -/

/-- The triples are the lists of three labels. -/
theorem mem_triples {numLabels : Nat} {triple : List Nat} :
    triple ∈ triples numLabels ↔ triple.length = 3 ∧ ∀ l ∈ triple, l < numLabels := by
  simp only [triples, List.mem_flatMap, List.mem_map, List.mem_range]
  constructor
  · rintro ⟨a, ha, b, hb, d, hd, rfl⟩
    simp [ha, hb, hd]
  · rintro ⟨hlen, hlt⟩
    match triple, hlen with
    | [a, b, d], _ => exact ⟨a, hlt a (by simp), b, hlt b (by simp), d, hlt d (by simp), rfl⟩

theorem firstDifference_eq_some {xs ys : List Nat} {i : Nat} (h : firstDifference xs ys = some i) :
    i < xs.length ∧ xs.getD i 0 ≠ ys.getD i 0 := by
  unfold firstDifference at h
  have hmem := List.mem_of_find?_eq_some h
  have hdiff := List.find?_some h
  exact ⟨List.mem_range.mp hmem, by simpa using hdiff⟩

theorem firstDifference_eq_none {xs ys : List Nat} (h : firstDifference xs ys = none) :
    ∀ i < xs.length, xs.getD i 0 = ys.getD i 0 := by
  intro i hi
  unfold firstDifference at h
  have := List.find?_eq_none.mp h i (List.mem_range.mpr hi)
  simpa using this

/-- Lists of one length that differ nowhere are equal. -/
theorem eq_of_firstDifference_eq_none {xs ys : List Nat} (hlen : xs.length = ys.length)
    (h : firstDifference xs ys = none) : xs = ys := by
  apply List.ext_getElem hlen
  intro i h1 h2
  have := firstDifference_eq_none h i h1
  rwa [List.getD_eq_getElem?_getD, List.getD_eq_getElem?_getD, List.getElem?_eq_getElem h1,
    List.getElem?_eq_getElem h2] at this

namespace Certificate

variable {m : Model} {t : Certificate} {x : Nat → Nat} {c : Nat} {clique : Clique}

/-- A shift at another label than the current one of its member keeps all duals tight. -/
theorem tight_shift (hs : t.Shaped m) (ht : t.Tight m x) (hw : m.WellFormed)
    (hx : ∀ v, x v < m.numLabels) (hclique : m.cliques[c]? = some clique) {i l : Nat}
    (hi : i < clique.size) (hl : l < m.numLabels) (hne : l ≠ x (clique.nodes.getD i 0)) (v : Nat)
    (delta : Int) : (t.shift c i v l delta).Tight m x := by
  rw [tight_iff] at ht ⊢
  intro c' clique' hclique'
  rw [← ht c' clique' hclique', dualSum_labelsAt hw hclique', dualSum_labelsAt hw hclique']
  apply sumTo_congr
  intro j hj
  rw [hs.get_shift_dual ⟨clique, hclique, hi, hl⟩ ⟨clique', hclique', hj, hx _⟩, if_neg,
    Int.add_zero]
  -- the changed dual stands at a label that `x` does not give to its member
  rintro ⟨rfl, rfl, rfl⟩
  rw [hclique, Option.some.injEq] at hclique'
  subst hclique'
  exact hne rfl

end Certificate

namespace Solver

variable {σ τ : Type} {m : Model} {s : Solver σ τ} {c : Nat} {clique : Clique}

/-- The solver with another certificate for the same labeling. -/
def Revised (m : Model) (s s' : Solver σ τ) : Prop :=
  ∃ t, s' = { s with certificate := t } ∧ Certified m s'

theorem Certified.revised (h : Certified m s) : Revised m s s := ⟨s.certificate, rfl, h⟩

/-- Over tight duals no triple of energy zero is refused. -/
theorem settle_ends (h : Certified m s) (hclique : m.cliques[c]? = some clique)
    {triple : List Nat} (hlen : triple.length = clique.size)
    (hlabels : ∀ l ∈ triple, l < m.numLabels) (hzero : clique.energy triple = 0) :
    Ends (settle c clique triple (s.certificate.dualSum c triple)) s
      (fun _ s' => Revised m s s') fun _ _ => False := by
  have hlen' : triple.length = (clique.labelsAt s.labeling).length := by
    rw [hlen, h.wellFormed.length_labelsAt hclique]
  unfold settle
  refine ends_bind (ends_get ?_)
  dsimp only
  cases hdiff : firstDifference triple (clique.labelsAt s.labeling) with
  | some i =>
    -- the excess goes to the first member whose label is not the current one
    obtain ⟨hi, hne⟩ := firstDifference_eq_some hdiff
    have hisize : i < clique.size := by omega
    rw [h.wellFormed.getD_labelsAt hclique _ hisize] at hne
    have hl : triple.getD i 0 < m.numLabels := by
      rw [List.getD_eq_getElem?_getD, List.getElem?_eq_getElem hi]
      exact hlabels _ (List.getElem_mem hi)
    refine ends_modify ⟨_, rfl, h.toReady.shift hclique hisize hl _, ?_⟩
    exact Certificate.tight_shift h.shaped h.tight h.wellFormed h.labeling_lt hclique hisize hl hne
      _ _
  | none =>
    -- the triple is the current one, and over tight duals its energy of zero is its dual sum
    have hsum : s.certificate.dualSum c triple = 0 := by
      have heq := eq_of_firstDifference_eq_none hlen' hdiff
      rw [heq, Certificate.tight_iff.mp h.tight c clique hclique, Clique.energyAt, ← heq, hzero]
    show Ends (if s.certificate.dualSum c triple ≠ 0 then _ else _) _ _ _
    rw [if_neg (fun hne => hne hsum)]
    exact ends_pure h.revised

section

variable {α : Type} [IntCast α] [Div α] [LE α] [DecidableLE α]

/-- Visiting a triple keeps a solver certified.  It faults only at an energy below zero. -/
theorem visitTriple_ends (h : Certified m s) (hclique : m.cliques[c]? = some clique) (ratio : α)
    {triple : List Nat} (hlen : triple.length = clique.size)
    (hlabels : ∀ l ∈ triple, l < m.numLabels) :
    Ends (visitTriple c clique ratio triple) s (fun _ s' => Revised m s s')
      (fun fault _ => fault.blamesTightness = false) := by
  unfold visitTriple
  refine ends_bind (ends_get ?_)
  show Ends (if clique.energy triple < 0 then _ else _) _ _ _
  split
  · exact ends_fail rfl
  · split
    · rename_i hzero
      refine ends_bind ((settle_ends h hclique hlen hlabels hzero).mono (fun _ s' hs' => ?_)
        fun _ _ hf => hf.elim)
      exact ends_pure hs'
    · exact ends_pure h.revised

/-- Visiting the triples of a clique of three keeps a solver certified. -/
theorem visitClique_ends (h : Certified m s) (hclique : m.cliques[c]? = some clique)
    (hsize : clique.size = 3) (ratio : α) :
    Ends (visitClique ratio (clique, c)) s (fun _ s' => Revised m s s')
      (fun fault _ => fault.blamesTightness = false) := by
  unfold visitClique
  refine ends_bind (ends_get ?_)
  refine ends_foldlM (I := fun _ s' => Revised m s s') (fun triple htriple ratio' s₁ h₁ => ?_)
    h.revised
  obtain ⟨t, rfl, hcert⟩ := h₁
  rw [h.numLabels_eq] at htriple
  obtain ⟨hlen, hlabels⟩ := mem_triples.mp htriple
  refine (visitTriple_ends hcert hclique ratio' (by omega) hlabels).mono_ok fun _ s₂ h₂ => ?_
  obtain ⟨t', rfl, hcert'⟩ := h₂
  exact ⟨t', rfl, hcert'⟩

end

theorem checkTriples_ends (m : Model) (s : Solver σ τ) :
    Ends (checkTriples m) s (fun _ s' => s' = s ∧ ∀ clique ∈ m.cliques, clique.size = 3)
      (fun fault s' => s' = s ∧ fault.blamesTightness = false) := by
  unfold checkTriples
  cases hfind : m.cliques.zipIdx.find? fun p => p.1.size ≠ 3 with
  | none =>
    refine ends_pure ⟨rfl, fun clique hmem => ?_⟩
    obtain ⟨c, hc, rfl⟩ := List.mem_iff_getElem.mp hmem
    have hp : (m.cliques[c], c) ∈ m.cliques.zipIdx :=
      List.mem_zipIdx_iff_getElem?.mpr (List.getElem?_eq_getElem hc)
    simpa using List.find?_eq_none.mp hfind _ hp
  | some p => exact ends_fail ⟨rfl, rfl⟩

end Solver

end FusionMove
