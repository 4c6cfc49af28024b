import FusionMove.Proofs.Solver.Checked

namespace FusionMove

/-!
# Snapshots are read within their bounds

A snapshot comes from outside and may hold anything.  Its shape is checked before its content is
read, and its content before anything is copied; each of these steps asks only for what the steps
before it have found.

* `Solver.Checked.shapeFault_eq_ok` — the shape of any snapshot can be checked;
* `Snapshot.Fits.exists_block` — a snapshot of the right shape has the entries of its certificate;
* `Solver.Checked.contentFault_eq_ok`, `Solver.Checked.copyable_eq_ok` — so its content can be
  checked, and copied;
* `Solver.restore_vouched` — restoring any snapshot misses no entry.
-/

open FusionMove.Action
open scoped CoreArithmetic

/-- The entries of a list stand in the concatenation after those of the lists before it. -/
theorem getElem?_flatten_block {α : Type} {xss : List (List α)} {c : Nat} {xs : List α}
    (h : xss[c]? = some xs) {j : Nat} (hj : j < xs.length) :
    xss.flatten[((xss.take c).map List.length).sum + j]? = xs[j]? := by
  induction xss generalizing c with
  | nil => simp at h
  | cons ys xss ih =>
    cases c with
    | zero =>
      rw [List.getElem?_cons_zero, Option.some.injEq] at h
      subst h
      rw [List.flatten_cons, List.take_zero, List.map_nil, List.sum_nil, Nat.zero_add,
        List.getElem?_append_left hj]
    | succ c =>
      rw [List.flatten_cons, List.take_succ_cons, List.map_cons, List.sum_cons, Nat.add_assoc,
        List.getElem?_append_right (Nat.le_add_right _ _), Nat.add_sub_cancel_left]
      exact ih h

namespace Snapshot

variable {m : Model} {p : Snapshot} {c : Nat} {clique : Clique}

/-- A snapshot of the model's dimensions has a block for every clique, and in it the duals of its
    certificate. -/
theorem Fits.exists_block (h : p.Fits m) (hclique : m.cliques[c]? = some clique) :
    ∃ block, p.dual[c]? = some block ∧ block.size = clique.size * m.numLabels ∧
      ∀ i < clique.size, ∀ l < m.numLabels,
        block[i * m.numLabels + l]? = some ((p.certificate m).dual.get c i l) := by
  have hc : c < m.cliques.length := (List.getElem?_eq_some_iff.mp hclique).1
  have hsize : (p.dual.map (·.size))[c]? = (m.cliques.map (·.size * m.numLabels))[c]? := by
    rw [h.dual_sizes]
  rw [List.getElem?_map, List.getElem?_map, hclique, Option.map_some, Option.map_eq_some_iff] at hsize
  obtain ⟨block, hblock, hsize⟩ := hsize
  refine ⟨block, hblock, hsize, fun i hi l hl => ?_⟩
  have hj : i * m.numLabels + l < block.size := by
    rw [hsize]
    exact Heights.row_lt hi hl
  -- the block starts where the certificate looks for it
  have hstart : (((p.dual.map (·.toList)).take c).map List.length).sum
      = (p.certificate m).dual.offsets.getD c 0 := by
    have hlengths : (p.dual.map (·.toList)).map List.length
        = m.cliques.map (·.size * m.numLabels) := by
      rw [← h.dual_sizes, List.map_map]
      rfl
    rw [List.map_take, hlengths, ← List.map_take, List.sum_map_mul_right,
      h.shaped.dual.laid.getD_offsets (by rw [List.length_map]; omega), List.map_take]
  have hrow : (p.dual.map (·.toList))[c]? = some block.toList := by
    rw [List.getElem?_map, hblock]
    rfl
  have hentry := getElem?_flatten_block hrow (j := i * m.numLabels + l)
    (by rw [Array.length_toList]; exact hj)
  have hvalue : (p.certificate m).dual.values[(p.certificate m).dual.address c i l]?
      = some block[i * m.numLabels + l] := by
    show (p.dual.map (·.toList)).flatten.toArray[_]? = _
    rw [List.getElem?_toArray, Duals.address, ← hstart, Nat.add_assoc]
    exact hentry.trans (by rw [Array.getElem?_toList]; exact Array.getElem?_eq_getElem hj)
  rw [Duals.get, Array.getD_eq_getD_getElem?, hvalue]
  exact Array.getElem?_eq_getElem hj

/-- And it has no other blocks. -/
theorem Fits.exists_clique (h : p.Fits m) {block : Array Int} (hblock : p.dual[c]? = some block) :
    ∃ clique, m.cliques[c]? = some clique ∧ block.size = clique.size * m.numLabels ∧
      ∀ i < clique.size, ∀ l < m.numLabels,
        block[i * m.numLabels + l]? = some ((p.certificate m).dual.get c i l) := by
  have hlength : p.dual.length = m.cliques.length := by
    simpa using congrArg List.length h.dual_sizes
  have hc : c < m.cliques.length := by
    rw [← hlength]
    exact (List.getElem?_eq_some_iff.mp hblock).1
  have hclique : m.cliques[c]? = some m.cliques[c] := List.getElem?_eq_getElem hc
  obtain ⟨block', hblock', hentries⟩ := h.exists_block hclique
  obtain rfl : block = block' := Option.some.inj (hblock.symm.trans hblock')
  exact ⟨m.cliques[c], hclique, hentries⟩

/-- What is wrong with a shape is no failed access. -/
theorem shapeFault?_blames {fault : Fault} (h : p.shapeFault? m = some fault) :
    fault.blamesAccess = false := by
  unfold shapeFault? at h
  repeat' split at h
  all_goals first | (cases h; rfl) | exact absurd h (by simp)

/-- Nor is what is wrong with a content. -/
theorem contentFault?_blames {fault : Fault} (h : p.contentFault? m = some fault) :
    fault.blamesAccess = false := by
  unfold contentFault? at h
  repeat' split at h
  all_goals first | (cases h; rfl) | exact absurd h (by simp)

end Snapshot

namespace Solver

variable {τ : Type} {m : Model} {p : Snapshot} {s : Solver Unit τ}

/-! ### Shape -/

/-- A check that can be made before the others. -/
private theorem ite_pure_eq_ok {α : Type} {q : Prop} [Decidable q] {x : Except Fault α} {a b : α}
    (h : ¬ q → x = .ok b) : (if q then pure a else x) = Except.ok (if q then a else b) := by
  by_cases hq : q
  · rw [if_pos hq, if_pos hq]
    rfl
  · rw [if_neg hq, if_neg hq]
    exact h hq

/-- With as many blocks as cliques, every block has its clique. -/
theorem Checked.blocksFit_eq_ok (hlength : p.dual.length = m.numCliques) :
    Checked.blocksFit m p
      = .ok (decide (p.dual.map (·.size) = m.cliques.map (·.size * m.numLabels))) := by
  have hread : Checked.blocksFit m p = .ok (p.dual.zipIdx.all fun b =>
      decide (b.1.size = (m.cliques.map (·.size * m.numLabels)).getD b.2 0)) := by
    refine allM_eq_ok fun b hb => ?_
    obtain ⟨block, c⟩ := b
    have hc : c < m.cliques.length := by
      have := (List.getElem?_eq_some_iff.mp (List.mem_zipIdx_iff_getElem?.mp hb)).1
      rw [hlength] at this
      exact this
    rw [present_eq_ok (List.getElem?_eq_getElem hc), ok_bind]
    simp [hc]
    rfl
  rw [hread, Except.ok.injEq, Bool.eq_iff_iff, List.all_eq_true, decide_eq_true_eq]
  constructor
  · intro hall
    refine List.ext_getElem (by simpa [Model.numCliques] using hlength) fun c hc hc' => ?_
    rw [List.length_map] at hc
    have hblock := hall (p.dual[c], c)
      (List.mem_zipIdx_iff_getElem?.mpr (List.getElem?_eq_getElem hc))
    rw [decide_eq_true_eq, List.getD_eq_getElem?_getD, List.getElem?_eq_getElem hc'] at hblock
    rw [List.getElem_map]
    exact hblock
  · intro heq b hb
    have hblock : (p.dual.map (·.size))[b.2]? = some b.1.size := by
      rw [List.getElem?_map, List.mem_zipIdx_iff_getElem?.mp hb]
      rfl
    rw [decide_eq_true_eq, ← heq, List.getD_eq_getElem?_getD, hblock]
    rfl

/-- The shape of any snapshot can be checked. -/
theorem Checked.shapeFault_eq_ok (m : Model) (p : Snapshot) :
    Checked.shapeFault m p = .ok (p.shapeFault? m) := by
  unfold Checked.shapeFault Snapshot.shapeFault?
  refine ite_pure_eq_ok fun _ => ite_pure_eq_ok fun _ => ite_pure_eq_ok fun _ =>
    ite_pure_eq_ok fun _ => ?_
  cases p.labels.toList.find? (m.numLabels ≤ ·) with
  | some label => rfl
  | none =>
    refine ite_pure_eq_ok fun hlength => ?_
    rw [Checked.blocksFit_eq_ok (Decidable.of_not_not hlength), ok_bind]
    simp only [decide_eq_true_eq]
    exact ite_pure_eq_ok fun _ => ite_pure_eq_ok fun _ => rfl

/-! ### Content -/

/-- The duals of a snapshot at its own labels are there. -/
theorem Checked.tight_eq_ok (hv : m.Valid) (hp : p.Fits m) :
    Checked.tight m p = .ok (decide ((p.certificate m).Tight m p.labeling)) := by
  have hread : Checked.tight m p = .ok (p.dual.zipIdx.all fun b =>
      (m.cliques[b.2]?.map fun clique => decide ((p.certificate m).dualSum b.2
        (clique.labelsAt p.labeling) = clique.energyAt p.labeling)).getD true) := by
    refine allM_eq_ok fun b hb => ?_
    obtain ⟨block, c⟩ := b
    obtain ⟨clique, hclique, -, hentry⟩ := hp.exists_clique (List.mem_zipIdx_iff_getElem?.mp hb)
    have hgather : clique.gather? p.labels = .ok (clique.labelsAt p.labeling) :=
      Clique.gather?_eq_ok fun v hmem => by
        rw [hp.labels_size]
        exact hv.wellFormed.mem_lt hclique hmem
    have hduals : (clique.labelsAt p.labeling).zipIdx.mapM
        (fun l => present block[l.2 * m.numLabels + l.1]?)
        = .ok (dualsAt (p.certificate m) c (clique.labelsAt p.labeling)) := by
      refine mapM_eq_ok fun l hl => ?_
      have hget := List.mem_zipIdx_iff_getElem?.mp hl
      have hi := (List.getElem?_eq_some_iff.mp hget).1
      rw [hv.wellFormed.length_labelsAt hclique] at hi
      exact present_eq_ok (hentry l.2 hi l.1 (hv.wellFormed.labelsAt_lt hclique
        (hp.labeling_lt hv.numLabels_pos) l.1 (List.mem_of_getElem? hget)))
    rw [present_eq_ok hclique, ok_bind, hgather, ok_bind, hduals, ok_bind, sum_dualsAt, hclique]
    rfl
  rw [hread, Except.ok.injEq, Bool.eq_iff_iff, List.all_eq_true, decide_eq_true_eq,
    Certificate.tight_iff]
  constructor
  · intro hall c clique hclique
    obtain ⟨block, hblock, -⟩ := hp.exists_block hclique
    have htight := hall (block, c) (List.mem_zipIdx_iff_getElem?.mpr hblock)
    rw [hclique] at htight
    exact of_decide_eq_true htight
  · intro htight b _
    cases hclique : m.cliques[b.2]? with
    | none => rfl
    | some clique => exact decide_eq_true (htight b.2 clique hclique)

/-- Every height of a snapshot is there, and the duals at the places of its variable. -/
theorem Checked.consistent_eq_ok (hv : m.Valid) (hp : p.Fits m) :
    Checked.consistent m p (Array.ofFn fun v : Fin m.numVars => Certificate.places m v)
      = .ok (decide ((p.certificate m).Consistent m)) := by
  have hread : Checked.consistent m p (Array.ofFn fun v : Fin m.numVars => Certificate.places m v)
      = .ok ((List.range m.numVars).all fun v => (List.range m.numLabels).all fun l =>
          decide ((p.certificate m).heights.get v l
            = Certificate.heightFrom m (p.certificate m).dual v l)) := by
    refine allM_eq_ok fun v hlt => allM_eq_ok fun l hl => ?_
    have hlt : v < m.numVars := List.mem_range.mp hlt
    have hl : l < m.numLabels := List.mem_range.mp hl
    have hplaces : present (Array.ofFn fun v : Fin m.numVars => Certificate.places m v)[v]?
        = .ok (Certificate.places m v) := present_eq_ok (by simp [hlt])
    have hduals : (Certificate.places m v).mapM (fun place => do
        let block ← present p.dual[place.1]?
        present block[place.2 * m.numLabels + l]?)
        = .ok ((Certificate.places m v).map fun q => (p.certificate m).dual.get q.1 q.2 l) := by
      refine mapM_eq_ok fun place hplace => ?_
      obtain ⟨c, i⟩ := place
      obtain ⟨clique, hclique, hi⟩ := mem_incidence_map.mp hplace
      obtain ⟨block, hblock, -, hentry⟩ := hp.exists_block hclique
      rw [present_eq_ok hblock, ok_bind]
      exact present_eq_ok (hentry i (List.getElem?_eq_some_iff.mp hi).1 l hl)
    have hheight : present p.heights[v * m.numLabels + l]?
        = .ok ((p.certificate m).heights.get v l) :=
      present_array (by rw [hp.heights_size]; exact Heights.row_lt hlt hl) 0
    rw [Model.cost?_eq_ok hv.complete hlt hl, ok_bind, hplaces, ok_bind, hduals, ok_bind, hheight]
    rfl
  rw [hread, Except.ok.injEq, Bool.eq_iff_iff, decide_eq_true_eq, Certificate.Consistent]
  simp

/-- The content of a snapshot of the right shape can be checked. -/
theorem Checked.contentFault_eq_ok (hv : m.Valid) (hp : p.Fits m) (h : Tabled m s) :
    Checked.contentFault m p s.places = .ok (p.contentFault? m) := by
  rw [Checked.contentFault, Checked.tight_eq_ok hv hp, ok_bind, h.places_eq,
    Snapshot.contentFault?]
  simp only [decide_eq_true_eq]
  refine ite_pure_eq_ok fun _ => ?_
  rw [Checked.consistent_eq_ok hv hp, ok_bind]
  simp only [decide_eq_true_eq]
  exact ite_pure_eq_ok fun _ => rfl

/-! ### Copying -/

/-- Labels, blocks and heights of a snapshot of the right shape are copied over as many. -/
theorem Checked.copyable_eq_ok (hp : p.Fits m) (h : Tabled m s) : Checked.copyable p s = .ok () := by
  have hlabels : Checked.sameSize s.labels p.labels = .ok () :=
    if_pos (h.labels_size.trans hp.labels_size.symm)
  have hheights : Checked.sameSize s.certificate.heights.values p.heights = .ok () :=
    if_pos (h.shaped.heights.size_eq.trans hp.heights_size.symm)
  have hblocks : p.dual.zipIdx.mapM (fun b => do
      let block ← s.certificate.dual.slice? b.2
      Checked.sameSize block b.1) = .ok (p.dual.zipIdx.map fun _ => ()) := by
    refine mapM_eq_ok fun b hb => ?_
    obtain ⟨block, c⟩ := b
    obtain ⟨clique, hclique, hsize, -⟩ := hp.exists_clique (List.mem_zipIdx_iff_getElem?.mp hb)
    have hk : (m.cliques.map (·.size))[c]? = some clique.size := by
      rw [List.getElem?_map, hclique]
      rfl
    have hold := h.shaped.dual.laid.size_block hk
    rw [h.shaped.dual.slice?_eq_ok (List.getElem?_eq_some_iff.mp hclique).1, ok_bind]
    exact if_pos (hold.trans hsize.symm)
  rw [Checked.copyable, hlabels, ok_bind, hblocks, ok_bind, hheights]

/-! ### Restoring -/

/-- A fault that a check has found stops the restoring. -/
theorem refuse_blameless {fault? : Option Fault}
    (hblames : ∀ fault, fault? = some fault → fault.blamesAccess = false) :
    Ends (refuse fault?) s (fun _ s' => s' = s ∧ fault? = none)
      fun fault _ => fault.blamesAccess = false :=
  (refuse_ends fault? s).mono (fun _ _ h' => h') fun fault _ hf => hblames fault hf.2

/-- Restoring any snapshot asks for nothing that is not there. -/
theorem restore_vouched (hv : m.Valid) (h : Booked m s) (hg : OnMirror m s) (p : Snapshot) :
    Vouched (Checked.restore m p) (restore m p) s fun _ _ => True := by
  unfold Checked.restore restore
  refine vouched_read (Checked.shapeFault_eq_ok m p) (vouched_bind (vouched_self
    ((refuse_blameless fun _ => Snapshot.shapeFault?_blames).mono_ok fun _ s₁ h₁ => ?_)))
  obtain ⟨rfl, hshape⟩ := h₁
  have hp : p.Fits m := Snapshot.shapeFault?_eq_none_iff.mp hshape
  -- the content is checked, and copied, over tables that are in order
  have hrest : ∀ s₂ : Solver Unit τ, Furnished m s₂ → Vouched (do
      let s ← Action.get
      let content ← Action.ofExcept (Checked.contentFault m p s.places)
      refuse content
      Action.ofExcept (Checked.copyable p s)
      Action.modify (load m p)
      Action.record (.restored p.iteration p.phase.name)) (do
      refuse (p.contentFault? m)
      Action.modify (load m p)
      Action.record (.restored p.iteration p.phase.name)) s₂ fun _ _ => True := by
    intro s₂ h₂
    refine vouched_get_left (vouched_read (Checked.contentFault_eq_ok hv hp h₂.toTabled)
      (vouched_bind (vouched_self ((refuse_blameless fun _ =>
        Snapshot.contentFault?_blames).mono_ok fun _ s₃ h₃ => ?_))))
    obtain ⟨rfl, -⟩ := h₃
    refine vouched_read (Checked.copyable_eq_ok hp h₂.toTabled) ?_
    exact vouched_self (ends_bind (ends_modify (ends_record trivial)))
  refine vouched_get_bind ?_
  dsimp only
  refine vouched_ite (fun _ => ?_) fun hphase => hrest _ (h.furnished hg hphase)
  exact vouched_bind ((buildTables_vouched hv hg.1).mono fun _ s₂ h₂ => hrest s₂ h₂)

end Solver

end FusionMove
