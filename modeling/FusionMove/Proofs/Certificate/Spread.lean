import FusionMove.Proofs.Certificate.Cells
import FusionMove.Proofs.Certificate.Shares

namespace FusionMove

/-!
# Spreading over a clique

* `Certificate.Shaped.get_spread` — a spread changes the duals of one clique, each member at its
  label;
* `Certificate.Shaped.dualSum_spread_self` — at these labels the dual sum grows by all shares;
* `Certificate.energy_eq` — with consistent heights, an energy is the heights of the labels plus
  what the cliques cost above their duals.
-/

open scoped CoreArithmetic

/-! ### Cliques of a well-formed model -/

/-- A clique has a node at every position below its size. -/
theorem Clique.getElem?_nodes {clique : Clique} {i : Nat} (hi : i < clique.size) :
    clique.nodes[i]? = some (clique.nodes.getD i 0) := by
  rw [size] at hi
  rw [List.getD_eq_getElem?_getD, List.getElem?_eq_getElem hi]
  rfl

namespace Model.WellFormed

variable {m : Model} {c : Nat} {clique : Clique}

theorem of_getElem? (hw : m.WellFormed) (hc : m.cliques[c]? = some clique) :
    0 < clique.size ∧ clique.size ≤ cliqueSizeLimit ∧ ∀ v ∈ clique.nodes, v < m.numVars :=
  hw clique (List.mem_of_getElem? hc)

/-- A signed word counts the members of a clique. -/
theorem size_lt (hw : m.WellFormed) (hc : m.cliques[c]? = some clique) :
    clique.size < 2 ^ (63 : Nat) :=
  Nat.lt_of_le_of_lt (hw.of_getElem? hc).2.1 (by decide)

/-- Members are variables. -/
theorem mem_lt (hw : m.WellFormed) (hc : m.cliques[c]? = some clique) {v : Nat}
    (hv : v ∈ clique.nodes) : v < m.numVars :=
  (hw.of_getElem? hc).2.2 v hv

/-- So is the node at every position. -/
theorem node_lt (hw : m.WellFormed) (hc : m.cliques[c]? = some clique) {i : Nat}
    (hi : i < clique.size) : clique.nodes.getD i 0 < m.numVars :=
  hw.mem_lt hc (List.mem_of_getElem? (Clique.getElem?_nodes hi))

/-- All members are read. -/
theorem labelsAt_eq (hw : m.WellFormed) (hc : m.cliques[c]? = some clique) (x : Nat → Nat) :
    clique.labelsAt x = clique.nodes.map x :=
  Clique.labelsAt_of_size_le (hw.of_getElem? hc).2.1 x

@[simp] theorem length_labelsAt (hw : m.WellFormed) (hc : m.cliques[c]? = some clique)
    (x : Nat → Nat) : (clique.labelsAt x).length = clique.size := by
  rw [hw.labelsAt_eq hc, List.length_map, Clique.size]

theorem getD_labelsAt (hw : m.WellFormed) (hc : m.cliques[c]? = some clique) (x : Nat → Nat)
    {i : Nat} (hi : i < clique.size) :
    (clique.labelsAt x).getD i 0 = x (clique.nodes.getD i 0) := by
  rw [hw.labelsAt_eq hc, List.getD_eq_getElem?_getD, List.getElem?_map, Clique.getElem?_nodes hi]
  rfl

/-- Labels of a clique are in range if all labels are. -/
theorem labelsAt_lt (hw : m.WellFormed) (hc : m.cliques[c]? = some clique) {x : Nat → Nat}
    (hx : ∀ v, x v < m.numLabels) : ∀ l ∈ clique.labelsAt x, l < m.numLabels := by
  rw [hw.labelsAt_eq hc]
  intro l hl
  obtain ⟨v, -, rfl⟩ := List.mem_map.mp hl
  exact hx v

end Model.WellFormed

namespace Certificate

variable {m : Model} {t : Certificate} {c c' : Nat} {clique clique' : Clique} {x y : Nat → Nat}

/-- The dual sum of a clique at a labeling, member by member. -/
theorem dualSum_labelsAt (hw : m.WellFormed) (hc : m.cliques[c]? = some clique)
    (t : Certificate) (x : Nat → Nat) : t.dualSum c (clique.labelsAt x)
      = sumTo clique.size fun i => t.dual.get c i (x (clique.nodes.getD i 0)) := by
  rw [dualSum, hw.length_labelsAt hc]
  apply sumTo_congr
  intro i hi
  rw [hw.getD_labelsAt hc x hi]

/-! ### Spreading -/

private theorem modify_add_zero (xs : Array Int) (i : Nat) : xs.modify i (· + 0) = xs := by
  apply Array.ext (Array.size_modify ..)
  intro j hj _
  rw [Array.getElem_modify, Int.add_zero, ite_self]

/-- A shift by nothing changes nothing. -/
theorem shift_zero (t : Certificate) (c i v l : Nat) : t.shift c i v l 0 = t := by
  unfold shift Duals.add Heights.add
  rw [modify_add_zero, modify_add_zero]

/-- Neither does a spread of nothing. -/
theorem spread_zero (t : Certificate) (c : Nat) (nodes : List Nat) (x : Nat → Nat)
    {share : Nat → Int} (hshare : ∀ i < nodes.length, share i = 0) :
    t.spread c nodes x share = t := by
  have hzero : ∀ p ∈ nodes.zipIdx, share p.2 = 0 := fun p hp =>
    hshare p.2 (List.snd_lt_of_mem_zipIdx hp)
  rw [spread]
  generalize nodes.zipIdx = ps at hzero
  induction ps with
  | nil => rfl
  | cons p ps ih =>
    rw [List.foldl_cons, hzero p List.mem_cons_self, shift_zero,
      ih fun q hq => hzero q (List.mem_cons_of_mem p hq)]

/-- What shifts at some members of a clique change. -/
private theorem spread_list (hs : t.Shaped m) (hclique : m.cliques[c]? = some clique)
    (hx : ∀ v, x v < m.numLabels) (share : Nat → Int) (ps : List (Nat × Nat))
    (hps : ∀ p ∈ ps, clique.nodes[p.2]? = some p.1) :
    (ps.foldl (fun t p => t.shift c p.2 p.1 (x p.1) (share p.2)) t).Shaped m ∧
      ∀ c' i' l', m.HasCell c' i' l' →
        (ps.foldl (fun t p => t.shift c p.2 p.1 (x p.1) (share p.2)) t).dual.get c' i' l'
          = t.dual.get c' i' l' + (ps.map fun p =>
              if c = c' ∧ p.2 = i' ∧ x p.1 = l' then share p.2 else 0).sum := by
  induction ps generalizing t with
  | nil => exact ⟨hs, fun c' i' l' _ => by simp⟩
  | cons p ps ih =>
    have hp := hps p (by simp)
    have hcell : m.HasCell c p.2 (x p.1) :=
      ⟨clique, hclique, (List.getElem?_eq_some_iff.mp hp).1, hx _⟩
    obtain ⟨hshape, hget⟩ := ih (hs.shift c p.2 p.1 (x p.1) (share p.2)) fun q hq =>
      hps q (by simp [hq])
    refine ⟨hshape, fun c' i' l' h' => ?_⟩
    rw [List.foldl_cons, hget c' i' l' h', hs.get_shift_dual hcell h', List.map_cons, List.sum_cons,
      Int.add_assoc]

/-- Members come with their positions. -/
private theorem getElem?_of_mem_zipIdx {nodes : List Nat} :
    ∀ p ∈ nodes.zipIdx, nodes[p.2]? = some p.1 :=
  fun _ hp => List.mem_zipIdx_iff_getElem?.mp hp

namespace Shaped

theorem spread (hs : t.Shaped m) (hclique : m.cliques[c]? = some clique)
    (hx : ∀ v, x v < m.numLabels) (share : Nat → Int) :
    (t.spread c clique.nodes x share).Shaped m :=
  (spread_list hs hclique hx share _ getElem?_of_mem_zipIdx).1

/-- A spread adds to the duals of one clique its shares, each member at its label. -/
theorem get_spread (hs : t.Shaped m) (hclique : m.cliques[c]? = some clique)
    (hx : ∀ v, x v < m.numLabels) (share : Nat → Int) {i' l' : Nat} (h' : m.HasCell c' i' l') :
    (t.spread c clique.nodes x share).dual.get c' i' l' = t.dual.get c' i' l'
      + if c = c' ∧ x (clique.nodes.getD i' 0) = l' then share i' else 0 := by
  have hget := (spread_list hs hclique hx share _ getElem?_of_mem_zipIdx).2 c' i' l' h'
  rw [Certificate.spread, hget, sum_map_zipIdx clique.nodes fun v i =>
    if c = c' ∧ i = i' ∧ x v = l' then share i else 0]
  congr 1
  by_cases hcc : c = c'
  · -- of all shifts only the one at member `i'` touches the cell
    subst hcc
    obtain ⟨clique', hclique', hi', -⟩ := h'
    rw [hclique, Option.some.injEq] at hclique'
    subst hclique'
    rw [Clique.size] at hi'
    have hterm : ∀ i < clique.nodes.length,
        (clique.nodes[i]?.map fun v => if c = c ∧ i = i' ∧ x v = l' then share i else 0).getD 0
          = if i' = i then (if x (clique.nodes.getD i 0) = l' then share i else 0) else 0 := by
      intro i hi
      rw [List.getD_eq_getElem?_getD, List.getElem?_eq_getElem hi]
      by_cases hii : i' = i
      · subst hii; simp
      · have : ¬ i = i' := fun h => hii h.symm
        simp [hii, this]
    rw [sumTo_congr hterm, sumTo_single _ _ fun i =>
      if x (clique.nodes.getD i 0) = l' then share i else 0, if_pos hi']
    simp
  · have hterm : ∀ i < clique.nodes.length,
        (clique.nodes[i]?.map fun v => if c = c' ∧ i = i' ∧ x v = l' then share i else 0).getD 0
          = 0 := by
      intro i hi
      rw [List.getElem?_eq_getElem hi]
      simp [hcc]
    rw [sumTo_congr hterm, sumTo_const_zero, if_neg fun h => hcc h.1]

/-- Other cliques keep their dual sums. -/
theorem dualSum_spread_of_ne (hs : t.Shaped m) (hclique : m.cliques[c]? = some clique)
    (hx : ∀ v, x v < m.numLabels) (share : Nat → Int) (hne : c ≠ c')
    (hclique' : m.cliques[c']? = some clique') {labels : List Nat}
    (hlen : labels.length = clique'.size) (hlabels : ∀ l ∈ labels, l < m.numLabels) :
    (t.spread c clique.nodes x share).dualSum c' labels = t.dualSum c' labels := by
  apply sumTo_congr
  intro i hi
  have hl : labels.getD i 0 < m.numLabels := by
    rw [List.getD_eq_getElem?_getD, List.getElem?_eq_getElem hi]
    exact hlabels _ (List.getElem_mem hi)
  rw [hs.get_spread hclique hx share ⟨clique', hclique', by omega, hl⟩, if_neg fun h => hne h.1,
    Int.add_zero]

/-- At the labels of the spread the dual sum grows by all shares. -/
theorem dualSum_spread_self (hs : t.Shaped m) (hw : m.WellFormed)
    (hclique : m.cliques[c]? = some clique) (hx : ∀ v, x v < m.numLabels) (share : Nat → Int) :
    (t.spread c clique.nodes x share).dualSum c (clique.labelsAt x)
      = t.dualSum c (clique.labelsAt x) + sumTo clique.size share := by
  rw [dualSum_labelsAt hw hclique, dualSum_labelsAt hw hclique, ← sumTo_add]
  apply sumTo_congr
  intro i hi
  rw [hs.get_spread hclique hx share ⟨clique, hclique, hi, hx _⟩, if_pos ⟨rfl, rfl⟩]

/-- A spread keeps the heights consistent. -/
theorem consistent_spread (hs : t.Shaped m) (hc : t.Consistent m) (hw : m.WellFormed)
    (hclique : m.cliques[c]? = some clique) (hx : ∀ v, x v < m.numLabels) (share : Nat → Int) :
    (t.spread c clique.nodes x share).Consistent m := by
  -- shift by shift, over any list of members
  have key : ∀ (ps : List (Nat × Nat)) (t : Certificate), t.Shaped m → t.Consistent m →
      (∀ p ∈ ps, clique.nodes[p.2]? = some p.1) →
      (ps.foldl (fun t p => t.shift c p.2 p.1 (x p.1) (share p.2)) t).Consistent m := by
    intro ps
    induction ps with
    | nil => exact fun t _ hc _ => hc
    | cons p ps ih =>
      intro t hs hc hps
      have hp := hps p (by simp)
      have hv := hw.mem_lt hclique (List.mem_of_getElem? hp)
      exact ih _ (hs.shift _ _ _ _ _) (hs.consistent_shift hc hclique hp hv (hx _) _)
        fun q hq => hps q (by simp [hq])
  exact key _ t hs hc getElem?_of_mem_zipIdx

end Shaped

/-! ### The energy of a labeling -/

/-- What the cliques cost at `x` above their duals. -/
def excess (m : Model) (t : Certificate) (x : Nat → Nat) : Int :=
  sumTo m.numCliques fun c =>
    (m.cliques[c]?.map fun clique => clique.energyAt x - t.dualSum c (clique.labelsAt x)).getD 0

/-- Tightness, clique by clique. -/
theorem tight_iff : t.Tight m x ↔ ∀ c clique, m.cliques[c]? = some clique →
    t.dualSum c (clique.labelsAt x) = clique.energyAt x :=
  ⟨fun h c clique hc => h (clique, c) (List.mem_zipIdx_iff_getElem?.mpr hc),
    fun h p hp => h p.2 p.1 (List.mem_zipIdx_iff_getElem?.mp hp)⟩

/-- A tight certificate leaves no excess. -/
theorem Tight.excess_eq_zero (h : t.Tight m x) : t.excess m x = 0 := by
  rw [excess, ← sumTo_const_zero m.numCliques]
  apply sumTo_congr
  intro c hc
  have hclique : m.cliques[c]? = some m.cliques[c] := List.getElem?_eq_getElem hc
  rw [hclique, Option.map_some, Option.getD_some, tight_iff.mp h c _ hclique]
  omega

/-- The duals of all cliques at `x`, summed. -/
def dualTotal (m : Model) (t : Certificate) (x : Nat → Nat) : Int :=
  sumTo m.numCliques fun c =>
    (m.cliques[c]?.map fun clique => t.dualSum c (clique.labelsAt x)).getD 0

/-- Summed over all variables, the duals at the places of their labels are the duals of all
    cliques. -/
theorem sum_places_eq (hw : m.WellFormed) (t : Certificate) (x : Nat → Nat) :
    sumTo m.numVars (fun v => ((places m v).map fun p => t.dual.get p.1 p.2 (x v)).sum)
      = t.dualTotal m x := by
  -- every member of a clique is a place of its variable, so this exchanges the order of the sums
  have hmem : ∀ ms ∈ m.cliques.map (·.nodes), ∀ v ∈ ms, v < m.numVars := by
    intro ms hms v hv
    obtain ⟨clique, hclique, rfl⟩ := List.mem_map.mp hms
    exact (hw clique hclique).2.2 v hv
  show sumTo m.numVars (fun v => ((incidence (m.cliques.map (·.nodes)) v).map
    fun p => t.dual.get p.1 p.2 (x v)).sum) = _
  rw [sumTo_sum_incidence hmem fun v p => t.dual.get p.1 p.2 (x v), List.length_map]
  apply sumTo_congr
  intro c hc
  have hclique : m.cliques[c]? = some m.cliques[c] := List.getElem?_eq_getElem hc
  have hnodes : (m.cliques.map (·.nodes)).getD c [] = m.cliques[c].nodes := by
    rw [List.getD_eq_getElem?_getD, List.getElem?_map, hclique]
    rfl
  rw [hnodes, hclique, Option.map_some, Option.getD_some, dualSum_labelsAt hw hclique]
  rfl

/-- With consistent heights, the heights of the labels are their unary costs and the duals of all
    cliques. -/
theorem sum_heights_eq (hw : m.WellFormed) (hc : t.Consistent m) (hx : ∀ v, x v < m.numLabels) :
    sumTo m.numVars (fun v => t.heights.get v (x v))
      = sumTo m.numVars (fun v => m.unary v (x v)) + t.dualTotal m x := by
  rw [← sum_places_eq hw, ← sumTo_add]
  apply sumTo_congr
  intro v hv
  rw [hc v hv (x v) (hx v), heightFrom]

/-- With consistent heights, the energy of a labeling is the heights of its labels plus what the
    cliques cost above their duals. -/
theorem energy_eq (hw : m.WellFormed) (hc : t.Consistent m) (hx : ∀ v, x v < m.numLabels) :
    m.energy x = sumTo m.numVars (fun v => t.heights.get v (x v)) + t.excess m x := by
  have hcliques : (m.cliques.map (·.energyAt x)).sum = t.excess m x + t.dualTotal m x := by
    rw [sum_map_eq_sumTo, excess, dualTotal, ← sumTo_add]
    apply sumTo_congr
    intro c hc
    have hclique : m.cliques[c]? = some m.cliques[c] := List.getElem?_eq_getElem hc
    rw [hclique]
    simp only [Option.map_some, Option.getD_some]
    omega
  rw [Model.energy, sum_heights_eq hw hc hx, hcliques]
  omega

end Certificate

end FusionMove
