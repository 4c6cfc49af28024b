import FusionMove.Certificate.Checked
import FusionMove.Proofs.Certificate.Spread

namespace FusionMove

/-!
# Certificates of the model's dimensions miss no entry

On tables with the dimensions of a model, at its cliques and variables and at labels in range, the
checked forms yield what the definitions themselves do.

* `Clique.gather?_eq_ok`, `Heights.ofFn?_eq_ok`, `Duals.Shaped.slice?_eq_ok`,
  `Heights.Shaped.objective?_eq_ok` — labels, tables, blocks and rows;
* `Certificate.Shaped.shift?_eq_ok`, `Certificate.Shaped.dualsAt?_eq_ok`,
  `Certificate.Shaped.spread?_eq_ok` — duals with their heights.
-/

/-- The members of a clique have labels in a list with one label a variable. -/
theorem Clique.gather?_eq_ok {c : Clique} {labels : Array Nat} (h : ∀ v ∈ c.nodes, v < labels.size) :
    c.gather? labels = .ok (c.labelsAt (labels.getD · 0)) :=
  mapM_eq_ok fun v hv => present_array (h v (List.mem_of_mem_take hv)) 0

/-! ### Blocks and rows -/

/-- The block of a clique lies inside the table. -/
theorem Duals.Laid.slice?_eq_ok {sizes : List Nat} {numLabels : Nat} {t : Duals}
    (ht : t.Laid sizes numLabels) {c k : Nat} (hk : sizes[c]? = some k) :
    t.slice? c = .ok (t.block c) := by
  have hc : c < sizes.length := (List.getElem?_eq_some_iff.mp hk).1
  have hoffsets := ht.size_offsets
  have hnext := sum_take_succ hk
  have hstart : t.offsets.getD c 0 ≤ t.offsets.getD (c + 1) 0 := by
    rw [ht.getD_offsets (by omega), ht.getD_offsets (by omega)]
    exact Nat.mul_le_mul_right _ (by omega)
  have hstop : t.offsets.getD (c + 1) 0 ≤ t.values.size := by
    rw [ht.getD_offsets (by omega), ht.size_eq, hnext]
    exact Nat.mul_le_mul_right _ (sum_take_add_le_sum hk)
  rw [Duals.slice?, present_array (by omega) 0, ok_bind, present_array (by omega) 0, ok_bind,
    FusionMove.slice?_eq_ok hstart hstop]
  rfl

theorem Duals.Shaped.slice?_eq_ok {m : Model} {t : Duals} (hs : t.Shaped m) {c : Nat}
    (hc : c < m.numCliques) : t.slice? c = .ok (t.block c) := by
  have hk : (m.cliques.map (·.size))[c]? = some m.cliques[c].size := by
    rw [List.getElem?_map, List.getElem?_eq_getElem hc]
    rfl
  exact hs.laid.slice?_eq_ok hk

namespace Heights

/-- The table in which the first `j` entries are written. -/
private def writtenUpTo (n k : Nat) (g : Nat → Nat → Int) (j : Nat) : Heights where
  values := filledUpTo (fun i => g (i / k) (i % k)) (fun _ => 0) (n * k) j
  numLabels := k

/-- Writing one entry more. -/
private theorem set?_writtenUpTo {n k : Nat} {g : Nat → Nat → Int} {v l : Nat} (hv : v < n)
    (hl : l < k) : (writtenUpTo n k g (v * k + l)).set? v l (g v l)
      = .ok (writtenUpTo n k g (v * k + (l + 1))) := by
  obtain ⟨hdiv, hmod⟩ := row_div_mod (v := v) hl
  have hin : (writtenUpTo n k g (v * k + l)).inBounds v l = true := by
    simp [inBounds, address, writtenUpTo, row_lt hv hl]
  have hentry : (fun i => g (i / k) (i % k)) (v * k + l) = g v l := by
    dsimp only
    rw [hdiv, hmod]
  rw [set?, if_pos hin, Except.ok.injEq, writtenUpTo, writtenUpTo, Heights.mk.injEq]
  exact ⟨setIfInBounds_filledUpTo hentry, rfl⟩

/-- Entries that are all there fill a table row by row. -/
theorem ofFn?_eq_ok {n k : Nat} {f : Nat → Nat → Except Fault Int} {g : Nat → Nat → Int}
    (h : ∀ v < n, ∀ l < k, f v l = .ok (g v l)) : ofFn? n k f = .ok (ofFn n k g) := by
  have hzero : writtenUpTo n k g (0 * k) = zeros n k := by
    rw [writtenUpTo, zeros, Heights.mk.injEq, Nat.zero_mul, filledUpTo_zero]
    exact ⟨(replicate_eq_ofFn _ _).symm, rfl⟩
  have hall : writtenUpTo n k g (n * k) = ofFn n k g := by
    rw [writtenUpTo, filledUpTo_self, ofFn]
  have hrow : ∀ v < n, (List.range k).foldlM (fun t l => do t.set? v l (← f v l))
      (writtenUpTo n k g (v * k)) = .ok (writtenUpTo n k g ((v + 1) * k)) := by
    intro v hv
    rw [Nat.add_mul, Nat.one_mul]
    refine foldlM_range_eq_ok (fun l => writtenUpTo n k g (v * k + l)) fun l hl => ?_
    rw [h v hv l hl, ok_bind]
    exact set?_writtenUpTo hv hl
  rw [ofFn?, ← hzero, ← hall]
  exact foldlM_range_eq_ok (fun v => writtenUpTo n k g (v * k)) hrow

namespace Shaped

variable {m : Model} {t : Heights}

/-- Every row of a table with the dimensions of a model is inside. -/
theorem objective?_eq_ok (hs : t.Shaped m) (hL : 0 < m.numLabels) :
    t.objective? = .ok t.objective := by
  have hrows : (List.range t.numVars).mapM t.row? = .ok ((List.range t.numVars).map t.row) := by
    refine mapM_eq_ok fun v hv => if_pos ?_
    rw [List.mem_range, hs.numVars_eq hL] at hv
    rw [hs.size_eq, hs.numLabels_eq]
    exact Nat.mul_le_mul_right _ hv
  rw [objective?, hrows, ok_bind, List.map_map, sum_map_range]
  rfl

end Shaped

end Heights

/-! ### Duals with their heights -/

namespace Certificate.Shaped

variable {m : Model} {t : Certificate} {c i v l : Nat} {clique : Clique}

theorem get?_eq_ok (hs : t.Shaped m) (h : m.HasCell c i l) :
    t.dual.get? c i l = .ok (t.dual.get c i l) := if_pos (hs.dual.inBounds h)

theorem shift?_eq_ok (hs : t.Shaped m) (h : m.HasCell c i l) (hv : v < m.numVars) (delta : Int) :
    t.shift? c i v l delta = .ok (t.shift c i v l delta) := by
  have hdual : t.dual.add? c i l delta = .ok (t.dual.add c i l delta) :=
    if_pos (hs.dual.inBounds h)
  obtain ⟨-, -, -, hl⟩ := h
  have hheights : t.heights.add? v l delta = .ok (t.heights.add v l delta) :=
    if_pos (hs.heights.inBounds hv hl)
  rw [shift?, hdual, ok_bind, hheights]
  rfl

/-- The duals of a clique at labels in range. -/
theorem dualsAt?_eq_ok (hs : t.Shaped m) (hclique : m.cliques[c]? = some clique)
    {labels : List Nat} (hlength : labels.length = clique.size)
    (hlabels : ∀ l ∈ labels, l < m.numLabels) : t.dualsAt? c clique.size labels
      = .ok ((List.range clique.size).map fun i => t.dual.get c i (labels.getD i 0)) := by
  refine mapM_eq_ok fun i hi => ?_
  have hi : i < clique.size := List.mem_range.mp hi
  have hl : labels.getD i 0 < m.numLabels := by
    rw [List.getD_eq_getElem?_getD, List.getElem?_eq_getElem (by omega)]
    exact hlabels _ (List.getElem_mem _)
  rw [present_list (by omega) 0, ok_bind, hs.get?_eq_ok ⟨clique, hclique, hi, hl⟩]

/-- The shares of a clique, at labels in range. -/
theorem spread?_eq_ok (hs : t.Shaped m) (hw : m.WellFormed)
    (hclique : m.cliques[c]? = some clique) {x : Nat → Nat} (hx : ∀ v, x v < m.numLabels)
    {label? : Nat × Nat → Except Fault Nat} {share? : Nat → Except Fault Int} {share : Nat → Int}
    (hlabel : ∀ i v, clique.nodes[i]? = some v → label? (v, i) = .ok (x v))
    (hshare : ∀ i < clique.size, share? i = .ok (share i)) :
    t.spread? c clique.nodes label? share? = .ok (t.spread c clique.nodes x share) := by
  refine (foldlM_eq_ok (I := Shaped m) (fun p hp t hs => ?_) hs).1
  obtain ⟨v, i⟩ := p
  have hv : clique.nodes[i]? = some v := List.mem_zipIdx_iff_getElem?.mp hp
  have hi : i < clique.size := (List.getElem?_eq_some_iff.mp hv).1
  refine ⟨?_, hs.shift c i v (x v) (share i)⟩
  rw [hlabel i v hv, ok_bind, hshare i hi, ok_bind,
    hs.shift?_eq_ok ⟨clique, hclique, hi, hx v⟩
      (hw.mem_lt hclique (List.mem_of_getElem? hv))]

end Certificate.Shaped

end FusionMove
