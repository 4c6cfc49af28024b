import FusionMove.Energy.Draft
import FusionMove.Proofs.Solver.Ready

namespace FusionMove

/-!
# Drafts stand for valid models

A draft refuses what does not fit, so whatever is built is a model that a solver accepts.

* `Draft.Built` — the drafts that accepted additions lead to; refused ones change nothing;
* `addCosts_eq_ok`, `addClique_eq_ok` — what an addition has checked and done when it is accepted;
* `Draft.Sound` — what every addition keeps;
* `Draft.Built.valid` — the model of a built draft is valid.
-/

namespace Draft

/-- The drafts that a caller can build. -/
inductive Built : Draft → Prop
  | new {numLabels : Nat} {d : Draft} : Draft.new numLabels = .ok d → Built d
  | addVars {d : Draft} (count : Nat) : Built d → Built (d.addVars count).2
  | addCosts {d d' : Draft} (var : Nat) (costs : Array Int) : Built d →
      d.addCosts var costs = .ok d' → Built d'
  | addClique {d d' : Draft} {index : Nat} (clique : Clique) : Built d →
      d.addClique clique = .ok (index, d') → Built d'

/-! ### Accepted additions -/

variable {d d' : Draft}

/-- The array after `f` was added to `n` entries from `start` on. -/
def addRow (xs : Array Int) (start n : Nat) (f : Nat → Int) : Array Int :=
  (List.range n).foldl (fun xs l => xs.modify (start + l) (· + f l)) xs

theorem addRow_succ (xs : Array Int) (start n : Nat) (f : Nat → Int) :
    addRow xs start (n + 1) f = (addRow xs start n f).modify (start + n) (· + f n) := by
  rw [addRow, List.range_succ, List.foldl_append]
  rfl

@[simp] theorem size_addRow (xs : Array Int) (start n : Nat) (f : Nat → Int) :
    (addRow xs start n f).size = xs.size := by
  induction n with
  | zero => rfl
  | succ n ih => rw [addRow_succ, Array.size_modify, ih]

/-- Costs that are accepted are those of a variable, one a label, and are added to its row. -/
theorem addCosts_eq_ok {var : Nat} {costs : Array Int} (h : d.addCosts var costs = .ok d') :
    var < d.numVars ∧ costs.size = d.numLabels ∧ d' = { d with
      unary := addRow d.unary (var * d.numLabels) d.numLabels (costs.getD · 0) } := by
  unfold addCosts at h
  split at h
  · exact absurd h (by simp)
  · split at h
    · exact absurd h (by simp)
    · rename_i hvar hsize
      exact ⟨by omega, not_not.mp hsize, (Except.ok.inj h).symm⟩

/-- A clique that is accepted has members within the limit, all of them variables, and comes last. -/
theorem addClique_eq_ok {clique : Clique} {index : Nat} (h : d.addClique clique = .ok (index, d')) :
    (0 < clique.size ∧ clique.size ≤ cliqueSizeLimit ∧ ∀ v ∈ clique.nodes, v < d.numVars) ∧
      index = d.cliques.size ∧ d' = { d with cliques := d.cliques.push clique } := by
  unfold addClique at h
  split at h
  · exact absurd h (by simp)
  · rename_i hfault
    obtain ⟨hindex, hd⟩ := Prod.mk.inj (Except.ok.inj h)
    exact ⟨memberFault?_eq_none_iff.mp hfault, hindex.symm, hd.symm⟩

/-! ### What additions keep -/

/-- There are labels, every variable has a cost for each of them, and cliques have members that are
    variables, within the limit. -/
structure Sound (d : Draft) : Prop where
  numLabels_pos : 0 < d.numLabels
  size_eq : d.unary.size = d.numVars * d.numLabels
  wellFormed : d.toModel.WellFormed

theorem sound_new {numLabels : Nat} (h : new numLabels = .ok d) : d.Sound := by
  unfold new at h
  split at h
  · exact absurd h (by simp)
  · rename_i hpos
    obtain rfl := Except.ok.inj h
    refine ⟨Nat.pos_of_ne_zero hpos, ?_, fun c hc => absurd hc (by simp [toModel])⟩
    simp [numVars]

theorem Sound.size_addVars (h : d.Sound) (count : Nat) :
    (d.addVars count).2.unary.size = (d.numVars + count) * d.numLabels := by
  rw [Nat.add_mul, ← h.size_eq]
  simp [Draft.addVars]

theorem Sound.numVars_addVars (h : d.Sound) (count : Nat) :
    (d.addVars count).2.numVars = d.numVars + count := by
  rw [numVars, h.size_addVars]
  exact Nat.mul_div_cancel _ h.numLabels_pos

/-- New variables have costs for all labels, and old members stay variables. -/
theorem Sound.addVars (h : d.Sound) (count : Nat) : (d.addVars count).2.Sound := by
  have hvars := h.numVars_addVars count
  refine ⟨h.numLabels_pos, by rw [hvars]; exact h.size_addVars count, fun c hc => ?_⟩
  obtain ⟨hpos, hle, hmember⟩ := h.wellFormed c hc
  refine ⟨hpos, hle, fun v hv => ?_⟩
  have hlt : v < d.numVars := hmember v hv
  show v < (d.addVars count).2.numVars
  omega

/-- Costs are added to costs that are there. -/
theorem Sound.addCosts (h : d.Sound) {var : Nat} {costs : Array Int}
    (ha : d.addCosts var costs = .ok d') : d'.Sound := by
  obtain ⟨-, -, hd⟩ := addCosts_eq_ok ha
  have hvars : d'.numVars = d.numVars := by
    rw [hd, numVars, size_addRow]
    rfl
  subst hd
  refine ⟨h.numLabels_pos, ?_, fun c hc => ?_⟩
  · rw [hvars, size_addRow]
    exact h.size_eq
  · obtain ⟨hpos, hle, hmember⟩ := h.wellFormed c hc
    exact ⟨hpos, hle, fun v hv => Nat.lt_of_lt_of_eq (hmember v hv) hvars.symm⟩

/-- A clique that is accepted is as sound as the others. -/
theorem Sound.addClique (h : d.Sound) {clique : Clique} {index : Nat}
    (ha : d.addClique clique = .ok (index, d')) : d'.Sound := by
  obtain ⟨hfits, -, rfl⟩ := addClique_eq_ok ha
  refine ⟨h.numLabels_pos, h.size_eq, fun c hc => ?_⟩
  have hc : c ∈ (d.cliques.push clique).toList := hc
  rw [Array.toList_push, List.mem_append, List.mem_singleton] at hc
  rcases hc with hc | rfl
  · exact h.wellFormed c hc
  · exact hfits

/-- The cost of every label at every variable is there. -/
theorem Sound.unary?_eq_some (h : d.Sound) {v l : Nat} (hv : v < d.numVars) (hl : l < d.numLabels) :
    d.toModel.unary? v l = some (d.unary.getD (v * d.numLabels + l) 0) := by
  have hlt : v * d.numLabels + l < d.unary.size := by
    rw [h.size_eq]
    exact Heights.row_lt hv hl
  show d.unary[v * d.numLabels + l]? = _
  rw [Array.getElem?_eq_getElem hlt, Array.getD_eq_getD_getElem?, Array.getElem?_eq_getElem hlt]
  rfl

/-! ### Drafts that are built -/

theorem Built.sound (h : d.Built) : d.Sound := by
  induction h with
  | new hnew => exact sound_new hnew
  | addVars count _ ih => exact ih.addVars count
  | addCosts var costs _ ha ih => exact ih.addCosts ha
  | addClique clique _ ha ih => exact ih.addClique ha

/-- A solver accepts every model that is built. -/
theorem Built.valid (h : d.Built) : d.toModel.Valid := by
  have hsound := h.sound
  refine ⟨hsound.wellFormed, ?_, hsound.numLabels_pos⟩
  refine List.all_eq_true.mpr fun v hv => List.all_eq_true.mpr fun l hl => ?_
  rw [hsound.unary?_eq_some (List.mem_range.mp hv) (List.mem_range.mp hl)]
  rfl

end Draft

end FusionMove
