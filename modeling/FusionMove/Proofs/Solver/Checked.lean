import FusionMove.Solver.Checked
import FusionMove.Proofs.Vouched
import FusionMove.Proofs.Certificate.Checked
import FusionMove.Proofs.Cut.Checked
import FusionMove.Proofs.Solver.Resume

namespace FusionMove

/-!
# Operations miss no entry

On a valid model, in every state that operations lead to, the checked form of an operation does what
the operation does, and no operation stops at a failed access.  Neither tight duals nor non-negative
energies are needed for this: an operation that faults leaves tables whose sizes and labels are in
order, and so do those after it.

* `Solver.Furnished` — a solver with its tables in order and a graph for the model; every step of an
  operation keeps this, and all that a step asks for is there;
* `Solver.start_vouched`, `Solver.iterate_vouched`, `Solver.lowerBound_vouched`,
  `Solver.restore_vouched` — the operations;
* `Solver.Checked.dual_eq_ok`, `Solver.Checked.height_eq_ok`, `Solver.Checked.energy_eq_ok`,
  `Solver.Checked.capture_eq_ok` — what a solver shows.
-/

open FusionMove.Action
open scoped CoreArithmetic

/-- A complete model has a cost for every variable and label. -/
theorem Model.cost?_eq_ok {m : Model} (hc : m.complete = true) {v l : Nat} (hv : v < m.numVars)
    (hl : l < m.numLabels) : m.cost? v l = .ok (m.unary v l) := by
  have hsome : (m.unary? v l).isSome = true :=
    List.all_eq_true.mp (List.all_eq_true.mp hc v (List.mem_range.mpr hv)) l (List.mem_range.mpr hl)
  obtain ⟨cost, hcost⟩ := Option.isSome_iff_exists.mp hsome
  rw [cost?, Model.unary, present_eq_ok hcost, hcost]
  rfl

namespace Solver

variable {τ : Type} {m : Model} {s : Solver Unit τ} {c : Nat} {clique : Clique}

/-- A solver with its tables in order and a graph for the model. -/
structure Furnished (m : Model) (s : Solver Unit τ) : Prop extends Tabled m s where
  mirrors : s.graph.Mirrors m

/-- A solver that has started is furnished, whatever has faulted. -/
theorem Booked.furnished (h : Booked m s) (hg : OnMirror m s) (hphase : s.phase ≠ .uninitialized) :
    Furnished m s :=
  ⟨h.tabled hphase, hg.2 hphase⟩

namespace Furnished

/-- Every variable has a label. -/
theorem label_eq_ok (h : Furnished m s) {v : Nat} (hv : v < m.numVars) :
    present s.labels[v]? = .ok (s.labeling v) :=
  present_array (by rw [h.labels_size]; exact hv) 0

/-- And a proposed one. -/
theorem proposed_eq_ok (h : Furnished m s) {v : Nat} (hv : v < m.numVars) :
    present s.proposed[v]? = .ok (s.proposal v) :=
  present_array (by rw [h.proposed_size]; exact hv) 0

/-- So have the members of a clique. -/
theorem gather_labels (h : Furnished m s) (hclique : m.cliques[c]? = some clique) :
    clique.gather? s.labels = .ok (clique.labelsAt s.labeling) :=
  Clique.gather?_eq_ok fun v hv => by
    rw [h.labels_size]
    exact h.wellFormed.mem_lt hclique hv

theorem gather_proposed (h : Furnished m s) (hclique : m.cliques[c]? = some clique) :
    clique.gather? s.proposed = .ok (clique.labelsAt s.proposal) :=
  Clique.gather?_eq_ok fun v hv => by
    rw [h.proposed_size]
    exact h.wellFormed.mem_lt hclique hv

/-- Every clique has duals at labels in range, with their sum. -/
theorem dualsAt_eq_ok (h : Furnished m s) (hclique : m.cliques[c]? = some clique)
    {labels : List Nat} (hlength : labels.length = clique.size)
    (hlabels : ∀ l ∈ labels, l < m.numLabels) :
    s.certificate.dualsAt? c clique.size labels = .ok (dualsAt s.certificate c labels) := by
  rw [h.shaped.dualsAt?_eq_ok hclique hlength hlabels]
  congr 1
  apply List.ext_getElem?
  intro i
  by_cases hi : i < clique.size
  · simp [dualsAt, hi, hlength]
  · simp [dualsAt, hi, hlength]

end Furnished

/-- The duals of a clique sum up to its dual sum. -/
theorem sum_dualsAt (t : Certificate) (c : Nat) (labels : List Nat) :
    (dualsAt t c labels).sum = t.dualSum c labels := by
  rw [dualsAt, sum_map_eq_sumTo, List.length_zipIdx, Certificate.dualSum]
  refine sumTo_congr fun i hi => ?_
  simp [hi]

/-! ### Starting -/

/-- Tables for a complete model. -/
theorem allocate_vouched (hv : m.Valid) (hg : s.graph.Mirrors m) :
    Vouched (Checked.allocate m) (require m.complete .outOfRange >>= fun _ => modify (allocate m)) s
      fun _ s' => Furnished m s' := by
  unfold Checked.allocate
  rw [require, if_pos hv.complete]
  refine vouched_read (Heights.ofFn?_eq_ok fun v hlt l hl => Model.cost?_eq_ok hv.complete hlt hl)
    (vouched_read (placeTable?_eq_ok fun ms hms v hmem => ?_) ?_)
  · obtain ⟨clique, hclique, rfl⟩ := List.mem_map.mp hms
    exact (hv.wellFormed clique hclique).2.2 v hmem
  · exact vouched_modify rfl ⟨tabled_allocate hv s, hg⟩

/-- Tables are built for a valid model on a graph that fits. -/
theorem buildTables_vouched (hv : m.Valid) (hg : s.graph.Fits m) :
    Vouched (Checked.buildTables m) (buildTables m) s fun _ s' => Furnished m s' := by
  unfold Checked.buildTables buildTables
  refine vouched_bind (vouched_self (ends_require (fun _ => ?_) fun hzero => ?_))
  · refine vouched_bind (vouched_self ((checkModel_ends m s).mono (fun _ s₁ h₁ => ?_)
      fun _ _ hf => absurd hv.wellFormed hf.2.2))
    obtain ⟨rfl, hw⟩ := h₁
    refine vouched_bind (vouched_self (ends_zoom ((Cut.fit_ends hw s₁.graph).mono
      (fun _ g hmirrors => ?_) fun _ _ hf => absurd hg hf.2)))
    exact allocate_vouched hv (hmirrors hg)
  · exact absurd (Nat.pos_iff_ne_zero.mp hv.numLabels_pos) hzero

/-- Every cost that the choice of a label compares is stored. -/
theorem Checked.cheapest_eq_ok (hv : m.Valid) {v : Nat} (hlt : v < m.numVars) :
    Checked.cheapest m v = .ok (Solver.cheapest m v) := by
  refine (foldlM_eq_ok (I := (· < m.numLabels)) (fun l hl best hbest => ?_) hv.numLabels_pos).1
  have hl : l < m.numLabels := List.mem_range.mp hl
  rw [Model.cost?_eq_ok hv.complete hlt hl, ok_bind, Model.cost?_eq_ok hv.complete hlt hbest]
  refine ⟨rfl, ?_⟩
  show (if m.unary v l < m.unary v best then l else best) < m.numLabels
  split
  · exact hl
  · exact hbest

theorem chooseLabels_vouched (hv : m.Valid) (h : Furnished m s) :
    Vouched (Checked.chooseLabels m) (modify (chooseLabels m)) s fun _ s' => Furnished m s' := by
  have hlabels : arrayOf? s.labels.size (Checked.cheapest m) = .ok (chooseLabels m s).labels :=
    arrayOf?_eq_ok fun v hlt => Checked.cheapest_eq_ok hv (by rw [← h.labels_size]; exact hlt)
  unfold Checked.chooseLabels
  refine vouched_get_left (vouched_read hlabels (vouched_modify rfl ?_))
  exact ⟨⟨ready_chooseLabels h.toReady, h.places_eq, h.proposal_lt⟩, h.mirrors⟩

/-- Every member gets its share, at a label that the caller has for it. -/
theorem spreadEvenly_vouched (h : Furnished m s) (hclique : m.cliques[c]? = some clique)
    (amount : Int) {label? : Nat × Nat → Except Fault Nat}
    (hlabel : ∀ i v, clique.nodes[i]? = some v → label? (v, i) = .ok (s.labeling v)) :
    Vouched (Checked.spreadEvenly c clique amount label?) (modify (spreadEvenly c clique amount)) s
      fun _ s' => Furnished m s' := by
  have hshares := Shares.of?_ofNat_eq_ok amount (h.wellFormed.of_getElem? hclique).1
    (h.wellFormed.size_lt hclique)
  unfold Checked.spreadEvenly
  refine vouched_get_left (vouched_read hshares (vouched_read
    (h.shaped.spread?_eq_ok h.wellFormed hclique h.labeling_lt hlabel fun _ _ => rfl)
    (vouched_modify rfl ⟨h.toTabled.spreadEvenly hclique amount, h.mirrors⟩)))

/-- A negative energy is refused by its own fault. -/
theorem checkEnergy_blameless (h : Furnished m s) (c : Nat) (labels : List Nat) (energy : Int) :
    Ends (checkEnergy c labels energy) s (fun _ s' => s' = s ∧ Furnished m s')
      fun fault _ => fault.blamesAccess = false :=
  (checkEnergy_ends c labels energy s).mono (fun _ _ h' => ⟨h'.1, h'.1 ▸ h⟩) fun _ _ hf => by
    rw [hf.2.1]
    rfl

theorem seed_vouched (h : Furnished m s) (hclique : m.cliques[c]? = some clique) :
    Vouched (Checked.seed c clique) (seed c clique) s fun _ s' => Furnished m s' := by
  unfold Checked.seed seed
  refine vouched_get_bind (vouched_read (h.gather_labels hclique) (vouched_bind (vouched_self
    ((checkEnergy_blameless h c _ _).mono_ok fun _ s' h' => ?_))))
  obtain ⟨rfl, h⟩ := h'
  exact spreadEvenly_vouched h hclique _ fun i v hv =>
    h.label_eq_ok (h.wellFormed.mem_lt hclique (List.mem_of_getElem? hv))

/-- A start, which may be refused for a negative energy. -/
theorem start_vouched (hv : m.Valid) (hg : s.graph.Fits m) :
    Vouched (Checked.start m) (start m) s fun _ s' => Furnished m s' := by
  unfold Checked.start start
  refine vouched_bind ((buildTables_vouched hv hg).mono fun _ s₁ h₁ => ?_)
  refine vouched_bind ((chooseLabels_vouched hv h₁).mono fun _ s₂ h₂ => ?_)
  refine vouched_bind ((vouched_forEach (I := Furnished m) (fun p hp s₃ h₃ =>
    seed_vouched h₃ (List.mem_zipIdx_iff_getElem?.mp hp)) h₂).mono fun _ s₃ h₃ => ?_)
  refine vouched_self (ends_bind (ends_modify (ends_bind (ends_get (ends_record ?_)))))
  exact ⟨h₃.toTabled.of_eq rfl rfl rfl rfl rfl, h₃.mirrors⟩

/-- A solver is furnished once it has started. -/
theorem ensureStarted_vouched (hv : m.Valid) (h : Booked m s) (hg : OnMirror m s) :
    Vouched (Checked.ensureStarted m) (ensureStarted m) s fun _ s' => Furnished m s' := by
  unfold Checked.ensureStarted ensureStarted
  refine vouched_get_bind (vouched_ite (fun _ => start_vouched hv hg.1) fun hphase => ?_)
  exact vouched_pure (h.furnished hg hphase)

/-! ### Iterating -/

theorem propose_vouched (h : Furnished m s) :
    Vouched propose propose s fun _ s' => Furnished m s' := by
  refine vouched_self ((propose_ends h.toReady).mono (fun _ s' h' => ?_) fun _ _ hf => hf.elim)
  obtain ⟨f, strategy, -, rfl, hready, hproposal⟩ := h'
  exact ⟨⟨hready, h.places_eq, hproposal⟩, h.mirrors⟩

/-- The factor of a clique has room for its residual table, and every step of the two walks over
    it finds what it asks for. -/
theorem Checked.residualTable_eq_ok (h : Furnished m s) (hclique : m.cliques[c]? = some clique) :
    ∃ table, Checked.residualTable c clique s = .ok table ∧
      Solver.residualTable s.certificate c clique s.labeling s.proposal
        ((s.graph.factors[c]?.map (·.table)).getD #[]) = .ok table ∧
      table.size = 2 ^ clique.size := by
  obtain ⟨f, hf, -, hsize⟩ := h.mirrors.exists_factor hclique
  have hlength : ∀ x, (clique.labelsAt x).length = clique.size :=
    h.wellFormed.length_labelsAt hclique
  have hcurrent := h.wellFormed.labelsAt_lt hclique h.labeling_lt
  have hfused := h.wellFormed.labelsAt_lt hclique h.proposal_lt
  have hfits : Fusion.Fits (clique.labelsAt s.labeling).length (clique.labelsAt s.proposal).length
      f.table.size := by
    rw [hlength, hlength, hsize]
    exact ⟨Nat.le_refl _, Nat.le_refl _⟩
  have hfilled : (Fusion.tabulate clique.energy (clique.labelsAt s.labeling)
      (clique.labelsAt s.proposal) f.table).size = f.table.size := Fusion.size_tabulate hfits.2
  have hfits' : Fusion.Fits (dualsAt s.certificate c (clique.labelsAt s.labeling)).length
      (dualsAt s.certificate c (clique.labelsAt s.proposal)).length
      (Fusion.tabulate clique.energy (clique.labelsAt s.labeling) (clique.labelsAt s.proposal)
        f.table).size := by
    rw [length_dualsAt, length_dualsAt, hfilled]
    exact hfits
  have htable : (Fusion.discount (Fusion.tabulate clique.energy (clique.labelsAt s.labeling)
      (clique.labelsAt s.proposal) f.table) (dualsAt s.certificate c (clique.labelsAt s.proposal))
      (dualsAt s.certificate c (clique.labelsAt s.labeling))).size = 2 ^ clique.size := by
    rw [Fusion.size_discount hfits'.2, hfilled, hsize]
  refine ⟨_, ?_, ?_, htable⟩
  · rw [Checked.residualTable, h.gather_labels hclique, ok_bind, h.gather_proposed hclique, ok_bind,
      h.dualsAt_eq_ok hclique (hlength _) hcurrent, ok_bind,
      h.dualsAt_eq_ok hclique (hlength _) hfused, ok_bind, present_eq_ok hf, ok_bind,
      Fusion.fill?_eq_ok _ hfits, ok_bind, Fusion.reduce?_eq_ok hfits', ok_bind,
      present_array (by rw [htable]; exact Nat.two_pow_pos _) 0]
    rfl
  · rw [Solver.residualTable, hf]
    show (Fusion.tabulate? _ _ _ f.table >>= fun filled => Fusion.discount? filled _ _) = _
    rw [Fusion.tabulate?, if_pos hfits, ok_bind, Fusion.discount?, if_pos hfits']

/-- A table is refused for its entry at the empty mask only. -/
theorem checkResidual_blameless (c : Nat) (clique : Clique) (table : Array Int) :
    Ends (checkResidual c clique table) s (fun _ s' => s' = s)
      fun fault _ => fault.blamesAccess = false := by
  unfold checkResidual
  refine ends_bind (ends_get ?_)
  dsimp only
  split
  · exact ends_bind (ends_record (ends_fail rfl))
  · exact ends_pure rfl

theorem loadTable_vouched (h : Furnished m s) (hclique : m.cliques[c]? = some clique) :
    Vouched (Checked.loadTable c clique) (loadTable c clique) s fun _ s' => Furnished m s' := by
  obtain ⟨table, hchecked, hplain, hsize⟩ := Checked.residualTable_eq_ok h hclique
  unfold Checked.loadTable loadTable
  refine vouched_get_bind (vouched_ofExcept_bind hchecked hplain ?_)
  refine vouched_self (ends_bind (ends_modify ((checkResidual_blameless c clique table).mono_ok
    fun _ s' h' => ?_)))
  subst h'
  exact ⟨h.toTabled.withGraph _, mirrors_setTable h.mirrors hclique hsize⟩

theorem loadTables_vouched (h : Furnished m s) :
    Vouched (Checked.loadTables m) (loadTables m) s fun _ s' => Furnished m s' := by
  unfold Checked.loadTables loadTables
  refine vouched_bind (vouched_modify rfl ?_)
  exact vouched_forEach (fun p hp s₁ h₁ =>
      loadTable_vouched h₁ (List.mem_zipIdx_iff_getElem?.mp hp))
    ⟨h.toTabled.withGraph _, mirrors_fixAgreeing h.mirrors⟩

/-- The labels of a variable have heights. -/
theorem Checked.drop_eq_ok (h : Furnished m s) {v : Nat} (hv : v < m.numVars) :
    Checked.drop s v = .ok (Solver.drop s v) := by
  have hheight : ∀ l < m.numLabels,
      s.certificate.heights.get? v l = .ok (s.certificate.heights.get v l) :=
    fun l hl => if_pos (h.shaped.heights.inBounds hv hl)
  rw [Checked.drop, h.label_eq_ok hv, ok_bind, h.proposed_eq_ok hv, ok_bind,
    hheight _ (h.labeling_lt v), ok_bind, hheight _ (h.proposal_lt v)]
  rfl

/-- The graph with the costs of the first `k` nodes. -/
private def costedUpTo (s : Solver Unit τ) (k : Nat) : Cut.Graph :=
  { s.graph with
    nodes := filledUpTo (fun v => ⟨max (s.drop v) 0, max (-s.drop v) 0, s.graph.chosen v⟩)
      (fun v => ⟨0, 0, s.graph.chosen v⟩) s.graph.numNodes k
    constant := 0 }

/-- The costs of one node more, on the side that keeps them from being negative. -/
private theorem addCosts_costedUpTo {k : Nat} (hk : k < s.graph.numNodes) :
    (if 0 < s.drop k then (costedUpTo s k).addCosts? k (s.drop k) 0
      else (costedUpTo s k).addCosts? k 0 (-s.drop k)) = .ok (costedUpTo s (k + 1)) := by
  have hnodes : k < (costedUpTo s k).numNodes := Nat.lt_of_lt_of_eq hk (size_filledUpTo ..).symm
  have hadd : ∀ e0 e1, e0 = max (s.drop k) 0 → e1 = max (-s.drop k) 0 →
      (costedUpTo s k).addCosts? k e0 e1 = .ok (costedUpTo s (k + 1)) := by
    rintro _ _ rfl rfl
    rw [Cut.Graph.addCosts?, if_pos hnodes, Cut.Graph.addCosts, costedUpTo,
      modify_filledUpTo (by simp)]
    rfl
  split
  · exact hadd _ _ (by omega) (by omega)
  · exact hadd _ _ (by omega) (by omega)

theorem loadCosts_vouched (h : Furnished m s) :
    Vouched Checked.loadCosts (modify loadCosts) s fun _ s' => s' = s.loadCosts := by
  have hnodes : s.graph.numNodes = s.labels.size := by rw [h.mirrors.numNodes_eq, h.labels_size]
  have hnone : { s.graph.clearCosts with constant := 0 } = costedUpTo s 0 := by
    rw [costedUpTo, filledUpTo_zero]
    rfl
  have hall : costedUpTo s s.graph.numNodes = s.loadCosts.graph := by
    rw [costedUpTo, filledUpTo_self]
    rfl
  unfold Checked.loadCosts
  refine vouched_get_left (vouched_read (b := s.loadCosts.graph) ?_ (vouched_modify rfl rfl))
  rw [hnone, ← hall, hnodes]
  refine foldlM_range_eq_ok (costedUpTo s) fun v hv => ?_
  rw [Checked.drop_eq_ok h (by rw [← h.labels_size]; exact hv), ok_bind]
  exact addCosts_costedUpTo (by rw [hnodes]; exact hv)

/-- The bundled oracle answers for the graph of the model and records its answer there. -/
theorem oracle_vouched (hg : s.graph.Mirrors m) :
    Vouched (onEngine Cut.checkedFlow.run) (onEngine Cut.maxFlow.run) s fun answer s' =>
      ∃ engine, s' = { s with engine := engine } ∧ engine.graph = s.graph.record answer := by
  obtain ⟨hok, hstate⟩ := Cut.maxFlow_run hg.wellFormed
  refine ⟨?_, ends_zoom ((ends_of_ok hok).mono_ok fun answer engine h' => ?_)⟩
  · show zoom engine _ Cut.checkedFlow.run s = zoom engine _ Cut.maxFlow.run s
    rw [zoom, zoom, Cut.checkedFlow_run (e := s.engine) hg.wellFormed]
  · obtain ⟨rfl, rfl⟩ := h'
    exact ⟨_, rfl, by rw [hstate]⟩

/-- Every variable has the labels between which an answer chooses. -/
theorem Checked.outcome_eq_ok (h : Furnished m s) (chosen : Nat → Bool) {v : Nat}
    (hv : v < m.numVars) : Checked.outcome chosen s v
      = .ok (if chosen v then s.proposal v else s.labeling v,
          chosen v && s.labeling v ≠ s.proposal v) := by
  rw [Checked.outcome, h.label_eq_ok hv, ok_bind]
  cases chosen v with
  | false => rfl
  | true =>
    rw [if_pos rfl, h.proposed_eq_ok hv]
    rfl

/-- What an answer makes of every variable: the labels after it, and how many of them change. -/
theorem Checked.outcomes_eq_ok (h : Furnished m s) (chosen : Nat → Bool) :
    ∃ outcomes, (List.range s.labels.size).mapM (Checked.outcome chosen s) = .ok outcomes ∧
      (outcomes.map (·.1)).toArray = (switch chosen s).labels ∧
      outcomes.countP (·.2) = s.switches chosen := by
  refine ⟨_, mapM_eq_ok fun v hv => Checked.outcome_eq_ok h chosen ?_, ?_, ?_⟩
  · rw [← h.labels_size]
    exact List.mem_range.mp hv
  · rw [List.map_map]
    exact toArray_map_range _ _
  · rw [List.countP_map]
    rfl

/-- The recorded answer has a potential for every member of every clique. -/
theorem Checked.absorb_eq_ok (h : Furnished m s) {g : Cut.Graph} (hg : g.Mirrors m)
    {answer : Cut.Answer} (hrecord : s.graph = g.record answer) :
    Checked.absorb m s = .ok (Solver.absorb m answer.potential s).certificate := by
  refine (foldlM_eq_ok (I := Certificate.Shaped m) (fun p hp t ht => ?_) h.shaped).1
  obtain ⟨clique, c⟩ := p
  have hclique : m.cliques[c]? = some clique := List.mem_zipIdx_iff_getElem?.mp hp
  refine ⟨?_, ht.spread hclique h.proposal_lt _⟩
  obtain ⟨f, hf, hmembers, -⟩ := hg.exists_factor hclique
  have hfactor : s.graph.factors[c]? = some { f with
      potential := Array.ofFn fun i : Fin f.size => answer.potential c i } := by
    rw [hrecord]
    simp [Cut.Graph.record, List.getElem?_zipIdx, hf]
  have hsize : f.size = clique.size := by rw [Cut.Factor.size, hmembers, Clique.size]
  rw [present_eq_ok hfactor, ok_bind]
  refine ht.spread?_eq_ok h.wellFormed hclique h.proposal_lt (fun i v hv => ?_) fun i hi => ?_
  · exact h.proposed_eq_ok (h.wellFormed.mem_lt hclique (List.mem_of_getElem? hv))
  · exact present_eq_ok (by simp [hsize, hi])

/-- An answer is taken over. -/
theorem fuse_vouched (h : Furnished m s) :
    Vouched (Checked.fuse m) (fuse m Cut.maxFlow) s fun _ s' => Furnished m s' := by
  unfold Checked.fuse fuse
  refine vouched_bind ((loadCosts_vouched h).mono fun _ s₁ h₁ => ?_)
  subst h₁
  have hg : s.loadCosts.graph.Mirrors m := mirrors_loadCosts h.mirrors
  refine vouched_bind ((oracle_vouched hg).mono fun answer s₁ h₁ => ?_)
  obtain ⟨engine, rfl, hrecord⟩ := h₁
  have hanswered : Furnished m { s.loadCosts with engine := engine } :=
    ⟨h.toTabled.of_eq rfl rfl rfl rfl rfl, by
      show engine.graph.Mirrors m
      rw [hrecord]
      exact hg.record answer⟩
  generalize hs₁ : ({ s.loadCosts with engine := engine } : Solver Unit τ) = s₁ at hanswered
  obtain ⟨outcomes, hread, hswitch, hcount⟩ := Checked.outcomes_eq_ok hanswered answer.chosen
  have habsorb : Checked.absorb m s₁ = .ok (absorb m answer.potential s₁).certificate :=
    Checked.absorb_eq_ok hanswered hg (by rw [← hs₁]; exact hrecord)
  refine vouched_get_bind (vouched_bind (vouched_self (ends_record ?_)))
  refine vouched_read hread (vouched_bind (vouched_modify (by rw [hswitch]; rfl) ?_))
  refine vouched_read habsorb (vouched_bind (vouched_modify rfl ?_))
  rw [hcount]
  subst hs₁
  exact vouched_pure ⟨h.toTabled.fused engine answer, hanswered.mirrors⟩

/-! ### Repairing -/

/-- An infeasible clique is refused with the table of its factor. -/
theorem checkFeasible_vouched (h : Furnished m s) (hclique : m.cliques[c]? = some clique)
    (energy dualSum : Int) :
    Vouched (Checked.checkFeasible c (clique.labelsAt s.labeling) energy dualSum)
      (checkFeasible c clique energy dualSum) s fun _ s' => s' = s := by
  obtain ⟨f, hf, -, -⟩ := h.mirrors.exists_factor hclique
  unfold Checked.checkFeasible checkFeasible
  refine vouched_get_bind (vouched_ite (fun _ => ?_) fun _ => vouched_pure rfl)
  refine vouched_read (present_eq_ok hf) ?_
  rw [hf]
  exact vouched_self (ends_bind (ends_record (ends_fail rfl)))

theorem repairClique_vouched (h : Furnished m s) (hclique : m.cliques[c]? = some clique) :
    Vouched (Checked.repairClique c clique) (repairClique c clique) s fun _ s' => Furnished m s' := by
  obtain ⟨-, hle, hmember⟩ := h.wellFormed.of_getElem? hclique
  unfold Checked.repairClique repairClique
  refine vouched_get_bind (vouched_read (h.gather_labels hclique) (vouched_read
    (h.dualsAt_eq_ok hclique (h.wellFormed.length_labelsAt hclique _)
      (h.wellFormed.labelsAt_lt hclique h.labeling_lt)) ?_))
  rw [sum_dualsAt]
  refine vouched_bind (vouched_self ((checkEnergy_blameless h c _ _).mono_ok fun _ s' h' => ?_))
  obtain ⟨rfl, h⟩ := h'
  refine vouched_bind ((checkFeasible_vouched h hclique _ _).mono fun _ s' h' => ?_)
  subst h'
  refine spreadEvenly_vouched h hclique _ fun i v hv => present_eq_ok ?_
  rw [Clique.labelsAt_of_size_le hle, List.getElem?_map, hv]
  rfl

theorem repair_vouched (h : Furnished m s) :
    Vouched (Checked.repair m) (repair m) s fun _ s' => Furnished m s' :=
  vouched_forEach (fun _ hp _ h₁ =>
    repairClique_vouched h₁ (List.mem_zipIdx_iff_getElem?.mp hp)) h

theorem fusionMove_vouched (h : Furnished m s) :
    Vouched (Checked.fusionMove m) (fusionMove m Cut.maxFlow) s fun _ s' => Furnished m s' := by
  unfold Checked.fusionMove fusionMove
  refine vouched_bind ((loadTables_vouched h).mono fun _ s₁ h₁ => ?_)
  refine vouched_bind ((fuse_vouched h₁).mono fun switched s₂ h₂ => ?_)
  exact vouched_bind ((repair_vouched h₂).mono fun _ s₃ h₃ => vouched_pure h₃)

/-! ### Rounds -/

/-- The labels of a solver with tables have an energy. -/
theorem Tabled.evaluate_eq_ok (h : Tabled m s) (hv : m.Valid) :
    m.evaluate s.labels = .ok (m.energy s.labeling) := by
  refine Model.evaluate_eq_energy h.labels_size ?_
  rw [Model.readable, Bool.and_eq_true, List.all_eq_true, List.all_eq_true]
  refine ⟨fun v hlt => ?_, fun clique hclique => List.all_eq_true.mpr fun v hmem => ?_⟩
  · rw [List.mem_range, h.labels_size] at hlt
    exact List.all_eq_true.mp (List.all_eq_true.mp hv.complete v (List.mem_range.mpr hlt)) _
      (List.mem_range.mpr (h.labeling_lt v))
  · rw [decide_eq_true_eq, h.labels_size]
    exact (hv.wellFormed clique hclique).2.2 v (List.mem_of_mem_take hmem)

theorem complete_vouched (hv : m.Valid) (h : Furnished m s) (switched : Nat) :
    Vouched (Checked.complete m switched) (complete m switched) s fun _ s' => Furnished m s' := by
  have htallied : Furnished m (tally switched s) :=
    ⟨h.toTabled.of_eq rfl rfl rfl rfl rfl, h.mirrors⟩
  unfold Checked.complete complete
  refine vouched_bind (vouched_modify rfl (vouched_get_bind ?_))
  dsimp only
  split
  · exact vouched_read (htallied.toTabled.evaluate_eq_ok hv) (vouched_self (ends_record htallied))
  · exact vouched_self (ends_record htallied)

theorem enter_vouched (h : Furnished m s) (phase : Phase) :
    Vouched (enter phase) (enter phase) s fun _ s' => Furnished m s' :=
  vouched_modify rfl ⟨h.toTabled.of_eq rfl rfl rfl rfl rfl, h.mirrors⟩

theorem round_vouched (hv : m.Valid) (h : Furnished m s) :
    Vouched (Checked.round m) (round m Cut.maxFlow) s fun _ s' => Furnished m s' := by
  unfold Checked.round round
  refine vouched_bind ((propose_vouched h).mono fun _ s₁ h₁ => vouched_get_bind ?_)
  refine vouched_ite (fun _ => vouched_pure h₁) fun _ => ?_
  refine vouched_bind ((fusionMove_vouched h₁).mono fun switched s₂ h₂ => ?_)
  exact vouched_bind ((complete_vouched hv h₂ switched).mono fun _ s₃ h₃ => vouched_pure h₃)

theorem rounds_vouched (hv : m.Valid) (patience budget : Nat) (h : Furnished m s) :
    Vouched (Checked.rounds m patience budget) (rounds m Cut.maxFlow patience budget) s
      fun _ s' => Furnished m s' := by
  induction budget generalizing s with
  | zero => exact vouched_pure h
  | succ budget ih =>
    unfold Checked.rounds rounds
    refine vouched_bind ((round_vouched hv h).mono fun fused s₁ h₁ => vouched_get_bind ?_)
    have hconverged : ∀ n : Nat, Vouched (enter .converged >>= fun _ => pure n)
        (enter .converged >>= fun _ => pure n) s₁ fun _ s' => Furnished m s' :=
      fun n => vouched_bind ((enter_vouched h₁ .converged).mono fun _ s₂ h₂ => vouched_pure h₂)
    refine vouched_ite (fun _ => hconverged 0) fun _ => vouched_ite (fun _ => hconverged 1) fun _ => ?_
    exact vouched_bind ((ih h₁).mono fun more s₂ h₂ => vouched_pure h₂)

theorem run_vouched (hv : m.Valid) (h : Furnished m s) (budget : Nat) :
    Vouched (Checked.run m budget) (run m Cut.maxFlow budget) s fun _ s' => Furnished m s' := by
  unfold Checked.run run
  refine vouched_bind ((enter_vouched h .iterating).mono fun _ s₁ h₁ => vouched_get_bind ?_)
  refine vouched_bind ((rounds_vouched hv _ budget h₁).mono fun done s₂ h₂ => ?_)
  refine vouched_self (ends_bind ((conclude_ends s₂).mono (fun _ s₃ h₃ => ?_) fun _ _ hf => hf.elim))
  subst h₃
  exact ends_bind (ends_get (ends_pure ⟨h₂.toTabled.of_eq rfl rfl rfl rfl rfl, h₂.mirrors⟩))

/-- Iterating asks for nothing that is not there, from every state that operations lead to. -/
theorem iterate_vouched (hv : m.Valid) (h : Booked m s) (hg : OnMirror m s) (budget : Nat) :
    Vouched (Checked.iterate m budget) (iterate m Cut.maxFlow budget) s
      fun _ s' => Furnished m s' := by
  unfold Checked.iterate iterate
  refine vouched_bind ((ensureStarted_vouched hv h hg).mono fun _ s₁ h₁ => vouched_get_bind ?_)
  exact vouched_ite (fun _ => vouched_pure h₁) fun _ => run_vouched hv h₁ budget

/-! ### Lower bounds -/

/-- A model without triples is refused by its own fault. -/
theorem checkTriples_blameless (h : OnMirror m s) (hbooked : Booked m s) :
    Ends (checkTriples m) s
      (fun _ s' => OnMirror m s' ∧ Booked m s' ∧ ∀ clique ∈ m.cliques, clique.size = 3)
      fun fault _ => fault.blamesAccess = false := by
  have hblame : Ends (checkTriples m) s (fun _ _ => True)
      fun fault _ => fault.blamesAccess = false := by
    unfold checkTriples
    split
    · exact ends_pure trivial
    · exact ends_fail rfl
  refine ((checkTriples_ends m s).and hblame).mono (fun _ s' h' => ?_) fun _ _ hf => hf.2
  obtain ⟨⟨rfl, hsizes⟩, -⟩ := h'
  exact ⟨h, hbooked, hsizes⟩

/-- The first difference is looked for among labels that are there. -/
theorem Checked.firstDifference_eq_ok {triple current : List Nat} (htriple : triple.length = 3)
    (hcurrent : current.length = 3) :
    ((List.range 3).findM? fun i => do
      let label ← present triple[i]?
      let held ← present current[i]?
      return decide (label ≠ held)) = .ok (firstDifference triple current) := by
  rw [firstDifference, htriple]
  refine findM?_eq_ok fun i hi => ?_
  have hi : i < 3 := List.mem_range.mp hi
  rw [present_list (by omega) 0, ok_bind, present_list (by omega) 0]
  rfl

theorem settle_vouched (h : Furnished m s) (hclique : m.cliques[c]? = some clique)
    (hsize : clique.size = 3) {triple : List Nat} (hlength : triple.length = 3)
    (hlabels : ∀ l ∈ triple, l < m.numLabels) (dualSum : Int) :
    Vouched (Checked.settle c clique triple dualSum) (settle c clique triple dualSum) s
      fun _ s' => Furnished m s' := by
  have hcurrent : (clique.labelsAt s.labeling).length = 3 :=
    (h.wellFormed.length_labelsAt hclique _).trans hsize
  unfold Checked.settle settle
  refine vouched_get_bind (vouched_read (h.gather_labels hclique) (vouched_read
    (Checked.firstDifference_eq_ok hlength hcurrent) ?_))
  dsimp only
  cases hdiff : firstDifference triple (clique.labelsAt s.labeling) with
  | some i =>
    have hi := (firstDifference_eq_some hdiff).1
    have hi' : i < clique.nodes.length := Nat.lt_of_lt_of_eq hi (hlength.trans hsize.symm)
    have hl : triple.getD i 0 < m.numLabels := by
      rw [List.getD_eq_getElem?_getD, List.getElem?_eq_getElem hi]
      exact hlabels _ (List.getElem_mem hi)
    have hv := h.wellFormed.node_lt hclique hi'
    refine vouched_read (present_list hi' 0) (vouched_read (present_list hi 0) (vouched_read
      (h.shaped.shift?_eq_ok ⟨clique, hclique, hi', hl⟩ hv _) (vouched_modify rfl ?_)))
    exact ⟨⟨h.toReady.shift hclique hi' hl _, h.places_eq, h.proposal_lt⟩, h.mirrors⟩
  | none =>
    refine vouched_ite (fun _ => ?_) fun _ => vouched_pure h
    refine vouched_bind (vouched_self (ends_record ?_))
    exact vouched_read (h.shaped.dual.slice?_eq_ok (List.getElem?_eq_some_iff.mp hclique).1)
      (vouched_self (ends_fail rfl))

section

variable {α : Type} [IntCast α] [Div α] [LE α] [DecidableLE α]

theorem visitTriple_vouched (h : Furnished m s) (hclique : m.cliques[c]? = some clique)
    (hsize : clique.size = 3) (ratio : α) {triple : List Nat} (hlength : triple.length = 3)
    (hlabels : ∀ l ∈ triple, l < m.numLabels) :
    Vouched (Checked.visitTriple c clique ratio triple) (visitTriple c clique ratio triple) s
      fun _ s' => Furnished m s' := by
  have hduals := h.dualsAt_eq_ok hclique (hlength.trans hsize.symm) hlabels
  rw [hsize] at hduals
  unfold Checked.visitTriple visitTriple
  refine vouched_get_bind (vouched_ite (fun _ => vouched_self (ends_fail rfl)) fun _ => ?_)
  refine vouched_read hduals ?_
  rw [sum_dualsAt]
  refine vouched_ite (fun _ => ?_) fun _ => vouched_pure h
  exact vouched_bind ((settle_vouched h hclique hsize hlength hlabels _).mono
    fun _ s' h' => vouched_pure h')

theorem measure_vouched (hv : m.Valid) (h : Booked m s) (hg : OnMirror m s) :
    Vouched (Checked.measure m : Action (Solver Unit τ) (Bound α)) (measure m) s
      fun _ s' => Furnished m s' := by
  unfold Checked.measure measure
  refine vouched_bind (vouched_self ((checkTriples_blameless hg h).mono_ok fun _ s₁ h₁ => ?_))
  obtain ⟨hg, h, hsizes⟩ := h₁
  refine vouched_bind ((ensureStarted_vouched hv h hg).mono fun _ s₂ h₂ => ?_)
  refine vouched_bind ((vouched_foldlM (I := Furnished m) (fun p hp ratio s₃ h₃ => ?_) h₂).mono
    fun ratio s₃ h₃ => vouched_get_bind ?_)
  · obtain ⟨clique, c⟩ := p
    have hclique : m.cliques[c]? = some clique := List.mem_zipIdx_iff_getElem?.mp hp
    unfold Checked.visitClique visitClique
    refine vouched_get_bind (vouched_foldlM (fun triple htriple ratio s₄ h₄ => ?_) h₃)
    rw [h₃.numLabels_eq] at htriple
    obtain ⟨hlength, hlabels⟩ := mem_triples.mp htriple
    exact visitTriple_vouched h₄ hclique (hsizes clique (List.mem_of_getElem? hclique)) ratio hlength
      hlabels
  · exact vouched_read (h₃.shaped.heights.objective?_eq_ok hv.numLabels_pos) (vouched_pure h₃)

end

/-- So does the lower bound. -/
theorem lowerBound_vouched (hv : m.Valid) (h : Booked m s) (hg : OnMirror m s) :
    Vouched (Checked.lowerBound m) (lowerBound m) s fun _ s' => Furnished m s' := by
  unfold Checked.lowerBound lowerBound
  refine vouched_bind ((measure_vouched hv h hg).mono fun b s₁ h₁ => ?_)
  refine vouched_self ?_
  dsimp only
  split
  · exact ends_bind (ends_record (ends_pure h₁))
  · exact ends_bind (ends_record (ends_pure h₁))

/-! ### Looking at a solver -/

/-- A solver that has a label has tables. -/
theorem Booked.tabled_of_label (h : Booked m s) {l : Nat} (hl : ¬ s.numLabels ≤ l) : Tabled m s := by
  refine h.resolve_left fun hfresh => hl ?_
  rw [Decidable.of_not_not hfresh.2]
  exact Nat.zero_le l

/-- A solver without tables shows no dual, and one with tables has those that it shows. -/
theorem Checked.dual_eq_ok (h : Booked m s) (c i l : Nat) :
    Checked.dual m s c i l = .ok (s.dual? m c i l) := by
  rw [Checked.dual, dual?]
  by_cases hout : s.certificate.dual.numCliques ≤ c ∨ s.numLabels ≤ l
  · rw [if_pos hout, if_pos hout]
    rfl
  · rw [if_neg hout, if_neg hout]
    have htabled := h.tabled_of_label (not_or.mp hout).2
    rw [htabled.shaped.dual.laid.numCliques_eq, List.length_map,
      htabled.numLabels_eq] at hout
    obtain ⟨hc, hl⟩ := not_or.mp hout
    have hclique : m.cliques[c]? = some m.cliques[c] := List.getElem?_eq_getElem (by omega)
    rw [present_eq_ok hclique, ok_bind, hclique]
    by_cases hi : m.cliques[c].size ≤ i
    · exact (if_pos hi).trans (congrArg Except.ok (if_pos hi).symm)
    · refine (if_neg hi).trans ?_
      rw [htabled.shaped.get?_eq_ok ⟨_, hclique, by omega, by omega⟩]
      exact congrArg Except.ok (if_neg hi).symm

theorem Checked.height_eq_ok (h : Booked m s) (v l : Nat) :
    Checked.height s v l = .ok (s.height? v l) := by
  rw [Checked.height, height?]
  by_cases hout : s.certificate.heights.numVars ≤ v ∨ s.numLabels ≤ l
  · rw [if_pos hout, if_pos hout]
    rfl
  · rw [if_neg hout, if_neg hout]
    have htabled := h.tabled_of_label (not_or.mp hout).2
    rw [htabled.shaped.heights.numVars_eq htabled.numLabels_pos, htabled.numLabels_eq] at hout
    obtain ⟨hv, hl⟩ := not_or.mp hout
    rw [Heights.get?, if_pos (htabled.shaped.heights.inBounds (by omega) (by omega))]
    rfl

theorem Checked.energy_eq_ok (hv : m.Valid) (h : Booked m s) :
    Checked.energy m s = .ok (s.currentEnergy? m) := by
  rw [Checked.energy, currentEnergy?]
  by_cases hphase : s.phase = .uninitialized
  · rw [if_pos hphase, if_pos hphase]
    rfl
  · rw [if_neg hphase, if_neg hphase, (h.tabled hphase).evaluate_eq_ok hv]
    rfl

/-- The blocks of a solver with tables are cut out of its duals. -/
theorem Checked.capture_eq_ok (h : Tabled m s) : Checked.capture s = .ok (Snapshot.capture s) := by
  rw [Checked.capture, mapM_eq_ok fun c hc => h.shaped.dual.slice?_eq_ok (by
    rw [List.mem_range, h.shaped.dual.numCliques_eq] at hc
    exact hc)]
  rfl

end Solver

end FusionMove
