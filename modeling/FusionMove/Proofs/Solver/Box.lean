import FusionMove.Proofs.Cut.Potential
import FusionMove.Proofs.Solver.Optimal

namespace FusionMove

/-!
# The certificate of an optimal move

A move from the labeling `x` with the proposal `f` chooses among all fusions of the two.  Where the
fusion tables are submodular, the duals that it leaves certify the choice `y`: no label tuple that
takes its labels from `x` and `f`, one member apart from the other, has duals above its energy, at
`y` the two are equal, and every variable has at `y` the lower one of its two heights.  So the
repair finds nothing to do.

* `Clique.Mixes` — these label tuples, `Mixes.exists_mask` — every one is a fusion along a mask;
* `Solver.BoxOptimal` — what the duals certify;
* `Solver.residual_minimumCut` — the potentials of the cut go off the residuals, and
  `Solver.height_fused` — onto the heights of the proposed labels;
* `Solver.repair_of_certified` — a repair of tight duals changes nothing;
* `Solver.reached_boxOptimal` — every round leaves duals that certify its labeling.
-/

open FusionMove.Action
open scoped CoreArithmetic

/-! ### Mixed label tuples -/

/-- Lists of one length that hold the same labels are equal. -/
private theorem ext_getD {xs ys : List Nat} (hlength : xs.length = ys.length)
    (h : ∀ i < xs.length, xs.getD i 0 = ys.getD i 0) : xs = ys := by
  refine List.ext_getElem hlength fun i hi hi' => ?_
  have hlabel := h i hi
  rw [List.getD_eq_getElem?_getD, List.getD_eq_getElem?_getD, List.getElem?_eq_getElem hi,
    List.getElem?_eq_getElem hi'] at hlabel
  exact hlabel

/-- Every member holds its label under `x` or the one under `f`.  Members that are the same variable
    may hold different ones. -/
structure Clique.Mixes (clique : Clique) (x f : Nat → Nat) (labels : List Nat) : Prop where
  length_eq : labels.length = clique.size
  label_eq : ∀ i < clique.size, labels.getD i 0 = x (clique.nodes.getD i 0) ∨
    labels.getD i 0 = f (clique.nodes.getD i 0)

section

variable {m : Model} {c : Nat} {clique : Clique} {x f : Nat → Nat} {labels : List Nat}

/-- The labels of a fusion, member by member. -/
theorem getD_mix_labelsAt (hw : m.WellFormed) (hclique : m.cliques[c]? = some clique)
    (x f : Nat → Nat) (mask : Nat) {i : Nat} (hi : i < clique.size) :
    (Fusion.mix (clique.labelsAt x) (clique.labelsAt f) mask).getD i 0
      = if mask.testBit i then f (clique.nodes.getD i 0) else x (clique.nodes.getD i 0) := by
  have hx : (clique.labelsAt x)[i]? = some (x (clique.nodes.getD i 0)) := by
    rw [hw.labelsAt_eq hclique, List.getElem?_map, Clique.getElem?_nodes hi]
    rfl
  rw [List.getD_eq_getElem?_getD, Fusion.getElem?_mix, hx, hw.getD_labelsAt hclique f hi]
  rfl

/-- The residual at a mask is what the clique costs above its duals at the labels of this fusion. -/
theorem Certificate.residual_eq (hw : m.WellFormed) (hclique : m.cliques[c]? = some clique)
    (t : Certificate) (x f : Nat → Nat) (mask : Nat) :
    t.residual c clique x f mask
      = clique.energy (Fusion.mix (clique.labelsAt x) (clique.labelsAt f) mask)
        - t.dualSum c (Fusion.mix (clique.labelsAt x) (clique.labelsAt f) mask) := by
  rw [residual, dualSum, Fusion.length_mix, hw.length_labelsAt hclique]
  congr 1
  exact sumTo_congr fun i hi => by rw [getD_mix_labelsAt hw hclique x f mask hi]

/-- A mixed tuple is the fusion along the members whose label is not the one under `x`. -/
theorem Clique.Mixes.exists_mask (h : clique.Mixes x f labels) (hw : m.WellFormed)
    (hclique : m.cliques[c]? = some clique) :
    ∃ mask, Mask.Within mask (Mask.ofBits (clique.nodes.map fun v => x v ≠ f v)) ∧
      Fusion.mix (clique.labelsAt x) (clique.labelsAt f) mask = labels := by
  let switched : Nat → Bool := fun i => labels.getD i 0 ≠ x (clique.nodes.getD i 0)
  have hbit : ∀ i < clique.size,
      (Mask.ofBits ((List.range clique.size).map switched)).testBit i = switched i := by
    intro i hi
    rw [Mask.testBit_ofBits_map, List.getElem?_range hi]
    rfl
  refine ⟨Mask.ofBits ((List.range clique.size).map switched), Mask.within_iff.mpr fun i hi => ?_,
    ext_getD ?_ fun i hi => ?_⟩
  · have hlt : i < clique.size := by
      have := Mask.lt_of_testBit (Mask.ofBits_map_lt _ _) hi
      rwa [List.length_range] at this
    rw [hbit i hlt] at hi
    have hne : labels.getD i 0 ≠ x (clique.nodes.getD i 0) := of_decide_eq_true hi
    rw [(h.label_eq i hlt).resolve_left hne] at hne
    rw [Mask.testBit_ofBits_map, Clique.getElem?_nodes hlt]
    exact decide_eq_true hne.symm
  · rw [Fusion.length_mix, hw.length_labelsAt hclique, h.length_eq]
  · rw [Fusion.length_mix, hw.length_labelsAt hclique] at hi
    rw [getD_mix_labelsAt hw hclique x f _ hi, hbit i hi]
    by_cases heq : labels.getD i 0 = x (clique.nodes.getD i 0)
    · rw [if_neg (by simpa [switched] using heq), heq]
    · rw [if_pos (decide_eq_true heq), (h.label_eq i hi).resolve_left heq]

end

namespace Solver

variable {σ τ : Type} {m : Model} {s : Solver σ τ} {c : Nat} {clique : Clique}

/-- The certificate shows that no fusion of `x` and `f` is better than `y`: on the box that the two
    span, the duals are nowhere above the energies, they are tight at `y`, and the heights are
    lowest there. -/
structure BoxOptimal (m : Model) (t : Certificate) (x f y : Nat → Nat) : Prop where
  between : m.Between x f y
  dualSum_le : ∀ c clique, m.cliques[c]? = some clique → ∀ labels, clique.Mixes x f labels →
    t.dualSum c labels ≤ clique.energy labels
  tight : ∀ c clique, m.cliques[c]? = some clique →
    t.dualSum c (clique.labelsAt y) = clique.energyAt y
  height_le : ∀ v < m.numVars, t.heights.get v (y v) ≤ t.heights.get v (x v) ∧
    t.heights.get v (y v) ≤ t.heights.get v (f v)

/-! ### Heights -/

/-- Taking an answer over raises the heights of the proposed labels by the potentials of their
    variables. -/
theorem height_fused (h : Ready m s) (hp : ∀ v, s.proposal v < m.numLabels)
    (engine : Cut.Engine σ) (answer : Cut.Answer) {v l : Nat} (hv : v < m.numVars)
    (hl : l < m.numLabels) :
    (fused m s engine answer).certificate.heights.get v l = s.certificate.heights.get v l
      + if s.proposal v = l then
          ((Certificate.places m v).map fun p => answer.potential p.1 p.2).sum else 0 := by
  have hdual : ∀ p ∈ Certificate.places m v,
      (fused m s engine answer).certificate.dual.get p.1 p.2 l
        = s.certificate.dual.get p.1 p.2 l
          + if s.proposal v = l then answer.potential p.1 p.2 else 0 := by
    rintro ⟨c, i⟩ hplace
    obtain ⟨clique, hclique, hi⟩ := mem_incidence_map.mp hplace
    have hnode : clique.nodes.getD i 0 = v := by rw [List.getD_eq_getElem?_getD, hi]; rfl
    have hget := get_absorb h hp answer.potential hclique (List.getElem?_eq_some_iff.mp hi).1 hl
    rw [hnode] at hget
    exact hget
  rw [(ready_fused h hp engine answer).consistent v hv l hl, h.consistent v hv l hl,
    Certificate.heightFrom, Certificate.heightFrom, List.map_congr_left hdual, sum_map_add,
    Int.add_assoc]
  by_cases heq : s.proposal v = l
  · simp only [if_pos heq]
  · simp only [if_neg heq, sum_map_zero]

/-- Where the labels differ, the costs of a node with its potentials are by how much the height of
    the proposed label then exceeds the other one. -/
theorem costWithPotentials_fusionProblem (h : Certified m s)
    (hp : ∀ v, s.proposal v < m.numLabels) (hg : s.graph.Mirrors m) (engine : Cut.Engine σ)
    (answer : Cut.Answer) {v : Nat} (hv : v < m.numVars) (hne : s.labeling v ≠ s.proposal v) :
    answer.costWithPotentials (s.fusionProblem m) v
      = (fused m s engine answer).certificate.heights.get v (s.proposal v)
        - (fused m s engine answer).certificate.heights.get v (s.labeling v) := by
  have hready := h.toReady
  obtain ⟨g, hloaded, hproblem⟩ := exists_loaded h hg
  have hcost : (s.fusionProblem m).cost1 v - (s.fusionProblem m).cost0 v
      = s.certificate.heights.get v (s.proposal v)
        - s.certificate.heights.get v (s.labeling v) := by
    rw [← hproblem]
    exact cost_sub_loadCosts (s := s.withGraph g) (hv.trans_eq hloaded.mirrors.numNodes_eq.symm)
  have hplaces : (s.fusionProblem m).places v = Certificate.places m v := by
    rw [Cut.Graph.places, (loaded_fusionProblem h hg).mirrors.members_eq]
    rfl
  rw [Cut.Answer.costWithPotentials, hcost, hplaces, height_fused hready hp engine answer hv (hp v),
    height_fused hready hp engine answer hv (hready.labeling_lt v), if_pos rfl, if_neg hne.symm]
  omega

/-! ### Repairing tight duals -/

/-- A repair of tight duals changes nothing. -/
theorem repair_of_certified (h : Certified m s) (hnonneg : m.NonNegative) :
    Ends (repair m) s (fun _ s' => s' = s) (fun _ _ => False) := by
  unfold repair
  refine ends_forEach_zipIdx (I := fun _ s' => s' = s) (fun c clique hclique s' hs' => ?_) rfl
  subst hs'
  have htight := Certificate.tight_iff.mp h.tight c clique hclique
  refine (repairClique_ends c clique s').mono (fun _ s₁ h₁ => ?_) fun fault _ hf => ?_
  · -- nothing is missing, so every share is zero
    rw [h₁.1, htight, Int.sub_self, spreadEvenly,
      Certificate.spread_zero _ _ _ _ fun i hi =>
        Shares.share_of_zero _ (Nat.lt_trans hi (h.wellFormed.size_lt hclique))]
  · cases hf with
    | negative hneg =>
      have := hnonneg clique (List.mem_of_getElem? hclique) _ h.labeling_lt
      omega
    | infeasible _ hgap => omega

/-- The solver that a move hands to the repair. -/
def unrepaired (m : Model) (o : Cut.Oracle σ) (s : Solver σ τ) : Solver σ τ :=
  (fuse m o (loadTables m s).state).state

section

variable {s : Solver Unit τ}

/-! ### Moves over the minimum cut -/

/-- The potentials of the cut go off the residuals of the fusions that the proposal makes. -/
theorem residual_minimumCut (h : Certified m s) (hp : ∀ v, s.proposal v < m.numLabels)
    (hg : s.graph.Mirrors m) (engine : Cut.Engine Unit) (hclique : m.cliques[c]? = some clique)
    (mask : Nat) :
    (fused m s engine (Cut.minimumCut (s.fusionProblem m))).certificate.residual c clique
        s.labeling s.proposal mask
      = s.certificate.residual c clique s.labeling s.proposal mask
        - Mask.sum clique.size ((Cut.minimumCut (s.fusionProblem m)).potential c) mask := by
  have hloaded := loaded_fusionProblem h hg
  obtain ⟨fac, hfac, hmembers, -⟩ := hloaded.mirrors.exists_factor hclique
  have hget : ∀ i < clique.size,
      (fused m s engine (Cut.minimumCut (s.fusionProblem m))).certificate.dual.get c i
          (if mask.testBit i then s.proposal (clique.nodes.getD i 0)
            else s.labeling (clique.nodes.getD i 0))
        = s.certificate.dual.get c i (if mask.testBit i then s.proposal (clique.nodes.getD i 0)
            else s.labeling (clique.nodes.getD i 0))
          + if mask.testBit i then (Cut.minimumCut (s.fusionProblem m)).potential c i else 0 := by
    intro i hi
    have hnode := Clique.getElem?_nodes hi
    have hv := h.wellFormed.node_lt hclique hi
    have hlt : (if mask.testBit i then s.proposal (clique.nodes.getD i 0)
        else s.labeling (clique.nodes.getD i 0)) < m.numLabels := by
      split
      · exact hp _
      · exact h.labeling_lt _
    refine (get_absorb h.toReady hp _ hclique hi hlt).trans (congrArg _ ?_)
    generalize clique.nodes.getD i 0 = v at hnode hv
    cases hbit : mask.testBit i with
    | true => simp
    | false =>
      -- a member that keeps its label has a potential only if it is the proposed one as well
      by_cases heq : s.proposal v = s.labeling v
      · have hfixed : (s.fusionProblem m).isFixed v = true := by
          rw [hloaded.isFixed_eq v hv, heq, decide_eq_true rfl]
        have hzero := Cut.minimumCut_potential_fixed hloaded.mirrors.wellFormed hfac
          (by rw [hmembers]; exact hnode) hfixed
        simp [heq, hzero]
      · simp [heq]
  rw [Certificate.residual, Certificate.residual, sumTo_congr hget, sumTo_add, Mask.sum]
  omega

/-- Between labelings whose fusions are submodular the residuals do not fall below zero. -/
theorem residual_minimumCut_nonneg (h : Certified m s) (hp : ∀ v, s.proposal v < m.numLabels)
    (hg : s.graph.Mirrors m) (hsub : m.FusionSubmodular s.labeling s.proposal)
    (engine : Cut.Engine Unit) (hclique : m.cliques[c]? = some clique) {mask : Nat}
    (hmask : Mask.Within mask
      (Mask.ofBits (clique.nodes.map fun v => s.labeling v ≠ s.proposal v))) :
    0 ≤ (fused m s engine (Cut.minimumCut (s.fusionProblem m))).certificate.residual c clique
        s.labeling s.proposal mask := by
  have hw := h.wellFormed
  have hloaded := loaded_fusionProblem h hg
  obtain ⟨fac, hfac, hmembers, -⟩ := hloaded.mirrors.exists_factor hclique
  have hlt : mask < 2 ^ clique.size := hmask.lt (Mask.ofBits_map_lt _ _)
  rw [← hloaded.maskOf_free hw hclique hfac] at hmask
  have hle := Cut.minimumCut_potential_le hloaded.mirrors.wellFormed
    (hloaded.submodular hw hsub) hfac hmask
  have hsize : fac.size = clique.size := by rw [Cut.Factor.size, hmembers]; rfl
  -- the duals were tight before, so the table starts at zero
  rw [hsize, hloaded.entry_eq c clique fac hclique hfac mask hlt,
    hloaded.entry_eq c clique fac hclique hfac 0 (Nat.two_pow_pos _),
    Certificate.residual_zero hw hclique, Certificate.tight_iff.mp h.tight c clique hclique] at hle
  rw [residual_minimumCut h hp hg engine hclique mask]
  omega

/-- Every variable then has the lower one of its two heights. -/
theorem height_minimumCut_le (h : Certified m s) (hp : ∀ v, s.proposal v < m.numLabels)
    (hg : s.graph.Mirrors m) (hsub : m.FusionSubmodular s.labeling s.proposal)
    (engine : Cut.Engine Unit) {v : Nat} (hv : v < m.numVars) {s' : Solver Unit τ}
    (hs' : fused m s engine (Cut.minimumCut (s.fusionProblem m)) = s') :
    s'.certificate.heights.get v (s'.labeling v) ≤ s'.certificate.heights.get v (s.labeling v) ∧
      s'.certificate.heights.get v (s'.labeling v)
        ≤ s'.certificate.heights.get v (s.proposal v) := by
  have hloaded := loaded_fusionProblem h hg
  have hlabel := labeling_minimumCut h hg engine
  have hcosts := Cut.minimumCut_costWithPotentials hloaded.mirrors.wellFormed
    (hloaded.submodular h.wellFormed hsub) (hv.trans_eq hloaded.mirrors.numNodes_eq.symm)
  have hdiff := costWithPotentials_fusionProblem h hp hg engine
    (Cut.minimumCut (s.fusionProblem m)) hv
  rw [hs'] at hlabel hdiff
  rw [hlabel, fusedLabeling]
  by_cases heq : s.labeling v = s.proposal v
  · rw [heq, ite_self]
    exact ⟨Int.le_refl _, Int.le_refl _⟩
  · rw [hdiff heq, hloaded.isFixed_eq v hv] at hcosts
    cases hchosen : (Cut.minimumCut (s.fusionProblem m)).chosen v with
    | true =>
      have := hcosts.1 hchosen
      rw [if_pos rfl]
      omega
    | false =>
      have := hcosts.2 (decide_eq_false heq) hchosen
      rw [if_neg (by simp)]
      omega

/-- Between labelings whose fusions are submodular, taking the cut over keeps the duals tight. -/
theorem certified_fused (h : Certified m s) (hp : ∀ v, s.proposal v < m.numLabels)
    (hg : s.graph.Mirrors m) (hsub : m.FusionSubmodular s.labeling s.proposal)
    (engine : Cut.Engine Unit) :
    Certified m (fused m s engine (Cut.minimumCut (s.fusionProblem m))) := by
  have hloaded := loaded_fusionProblem h hg
  have hgw := hloaded.mirrors.wellFormed
  refine ⟨ready_fused h.toReady hp engine _, Certificate.tight_iff.mpr fun c clique hclique => ?_⟩
  have hexcess := excess_freeSet h hp hg engine (Cut.minimumCut_freeSet hgw) hclique
  rw [Cut.minimumCut_shortfall hgw,
    Cut.minimumCut_slackOn hgw (hloaded.submodular h.wellFormed hsub)] at hexcess
  omega

/-- The duals certify the choice of the cut. -/
theorem boxOptimal_fused (h : Certified m s) (hp : ∀ v, s.proposal v < m.numLabels)
    (hg : s.graph.Mirrors m) (hsub : m.FusionSubmodular s.labeling s.proposal)
    (engine : Cut.Engine Unit) {s' : Solver Unit τ}
    (hs' : fused m s engine (Cut.minimumCut (s.fusionProblem m)) = s') :
    BoxOptimal m s'.certificate s.labeling s.proposal s'.labeling where
  between v _ := by
    rw [← hs', labeling_minimumCut h hg, fusedLabeling]
    split
    · exact .inr rfl
    · exact .inl rfl
  dualSum_le c clique hclique labels hmixes := by
    obtain ⟨mask, hmask, rfl⟩ := hmixes.exists_mask h.wellFormed hclique
    have hnonneg := residual_minimumCut_nonneg h hp hg hsub engine hclique hmask
    rw [hs', Certificate.residual_eq h.wellFormed hclique] at hnonneg
    omega
  tight := by
    rw [← hs']
    exact Certificate.tight_iff.mp (certified_fused h hp hg hsub engine).tight
  height_le v hv := height_minimumCut_le h hp hg hsub engine hv hs'

/-- A move loads its tables, and takes the cut over. -/
theorem exists_fused (h : Certified m s) (hg : s.graph.Mirrors m) :
    (loadTables m s).result = .ok () ∧ ∃ switched engine,
      (fuse m Cut.maxFlow (loadTables m s).state).result = .ok switched ∧
      fused m s engine (Cut.minimumCut (s.fusionProblem m)) = unrepaired m Cut.maxFlow s := by
  have hload := loadTables_ok h hg
  obtain ⟨g, hstate, hproblem, -⟩ := (loadTables_problem h).of_ok hload
  have hsolve := Cut.maxFlow_solve (loaded_fusionProblem h hg).mirrors.wellFormed
  rw [← hproblem] at hsolve
  obtain ⟨switched, hfuse, answer, engine, hfused, -, hsolved, -⟩ :=
    (fuse_ends m Cut.maxFlow (s.withGraph g)).exists_ok_of fun fault _ hf => by
      rw [hf.1] at hsolve
      exact absurd hsolve (by simp)
  obtain rfl := Except.ok.inj (hsolved.symm.trans hsolve)
  rw [hproblem] at hfused
  refine ⟨hload, switched, engine, ?_, ?_⟩
  · rw [hstate]
    exact hfuse
  · rw [unrepaired, hstate]
    exact hfused.symm

/-- A move between labelings whose fusions are submodular has nothing to repair: it ends with the
    duals that the cut leaves, and these certify its choice. -/
theorem fusionMove_boxOptimal (h : Certified m s) (hnonneg : m.NonNegative)
    (hp : ∀ v, s.proposal v < m.numLabels) (hg : s.graph.Mirrors m)
    (hsub : m.FusionSubmodular s.labeling s.proposal) {s' : Solver Unit τ}
    (hs' : unrepaired m Cut.maxFlow s = s') :
    BoxOptimal m s'.certificate s.labeling s.proposal s'.labeling ∧
      (repair m s').result = .ok () ∧ (repair m s').state = s' ∧
      Ends (fusionMove m Cut.maxFlow) s (fun _ s₁ => s₁ = s') (fun _ _ => False) := by
  obtain ⟨hload, switched, engine, hfuse, heq⟩ := exists_fused h hg
  rw [hs'] at heq
  have hcert := certified_fused h hp hg hsub engine
  rw [heq] at hcert
  obtain ⟨⟨⟩, hok, hrepair⟩ := (repair_of_certified hcert hnonneg).exists_ok
  refine ⟨boxOptimal_fused h hp hg hsub engine heq, hok, hrepair, ?_⟩
  unfold fusionMove
  refine ends_bind ((ends_of_ok hload).mono_ok fun _ s₁ h₁ => ?_)
  obtain ⟨-, rfl⟩ := h₁
  refine ends_bind ((ends_of_ok hfuse).mono_ok fun _ s₂ h₂ => ?_)
  obtain ⟨-, rfl⟩ := h₂
  rw [show (fuse m Cut.maxFlow (loadTables m s).state).state = s' from hs']
  refine ends_bind ((ends_of_ok hok).mono_ok fun _ s₃ h₃ => ?_)
  exact ends_pure (h₃.2.trans hrepair)

/-! ### Rounds -/

/-- A proposal that is the labeling itself spans no box, and tight duals certify the labeling. -/
theorem boxOptimal_self (h : Certified m s) :
    BoxOptimal m s.certificate s.labeling s.labeling s.labeling where
  between _ _ := .inl rfl
  dualSum_le c clique hclique labels hmixes := by
    have hlabels : labels = clique.labelsAt s.labeling :=
      ext_getD (by rw [hmixes.length_eq, h.wellFormed.length_labelsAt hclique]) fun i hi => by
        rw [hmixes.length_eq] at hi
        rw [h.wellFormed.getD_labelsAt hclique _ hi]
        exact (hmixes.label_eq i hi).elim id id
    rw [hlabels, Certificate.tight_iff.mp h.tight c clique hclique]
    exact Int.le_refl _
  tight := Certificate.tight_iff.mp h.tight
  height_le _ _ := ⟨Int.le_refl _, Int.le_refl _⟩

/-- A round over submodular fusion tables does not fault.  It leaves duals that certify its labeling,
    and if it moves, these are the ones that its repair begins with. -/
theorem round_boxOptimal (h : Certified m s) (hnonneg : m.NonNegative) (hg : s.graph.Mirrors m)
    {f : Array Nat} {strategy : Strategy τ}
    (hpropose : s.strategy.propose s.iteration s.certificate.heights s.labels s.proposed
      = .ok (f, strategy)) (hsub : m.FusionSubmodular s.labeling (f.getD · 0)) :
    Ends (round m Cut.maxFlow) s
      (fun moved s' => moved = decide (f ≠ s.labels) ∧
        BoxOptimal m s'.certificate s.labeling (f.getD · 0) s'.labeling ∧
        ∀ s₁, unrepaired m Cut.maxFlow (proposing f strategy s) = s₁ → f ≠ s.labels →
          (repair m s₁).result = .ok () ∧ (repair m s₁).state = s₁ ∧
          s'.certificate = s₁.certificate)
      (fun _ _ => False) := by
  obtain ⟨f', strategy', hpropose', hcert, hp, -⟩ := round_rounds Cut.maxFlow h
  obtain ⟨rfl, rfl⟩ := Prod.mk.inj (Except.ok.inj (hpropose.symm.trans hpropose'))
  obtain ⟨hbox, hok, hrepair, hmove⟩ := fusionMove_boxOptimal hcert hnonneg hp hg hsub rfl
  refine ends_round hpropose (fun heq => ?_) fun hne => hmove.mono_ok fun switched s₂ h₂ => ?_
  · have hself : s.labeling = (f.getD · 0) := by
      ext v
      rw [labeling, heq]
    have hbox' := boxOptimal_self h
    exact ⟨by simp [heq], by rw [← hself]; exact hbox', fun _ _ hne => absurd heq hne⟩
  · subst h₂
    exact ⟨by simp [hne], hbox, fun s₁ h₁ _ => h₁ ▸ ⟨hok, hrepair, rfl⟩⟩

/-- From every state that a new solver reaches over the minimum cut, a round whose proposal makes
    submodular fusions with the labeling does not fault.  The duals that it leaves certify the new
    labeling against all fusions of the two, and they are the duals that its repair began with. -/
theorem reached_boxOptimal (hvalid : m.Valid) (hnonneg : m.NonNegative)
    {engine : Cut.Engine Unit} (hfits : engine.graph.Fits m) {config : Config}
    {s : Solver Unit τ} (hr : Reached m Cut.maxFlow (Solver.new engine config) s) :
    (ensureStarted m s).result = .ok () ∧ ∀ s₀, (ensureStarted m s).state = s₀ →
      ∃ f strategy, s₀.strategy.propose s₀.iteration s₀.certificate.heights s₀.labels s₀.proposed
          = .ok (f, strategy) ∧
        (m.FusionSubmodular s₀.labeling (f.getD · 0) →
          (round m Cut.maxFlow s₀).result = .ok (decide (f ≠ s₀.labels)) ∧
          BoxOptimal m (round m Cut.maxFlow s₀).state.certificate s₀.labeling (f.getD · 0)
            (round m Cut.maxFlow s₀).state.labeling ∧
          ∀ s₁, unrepaired m Cut.maxFlow (proposing f strategy s₀) = s₁ → f ≠ s₀.labels →
            (repair m s₁).result = .ok () ∧ (repair m s₁).state = s₁ ∧
            (round m Cut.maxFlow s₀).state.certificate = s₁.certificate) := by
  obtain ⟨hstart, hcert, hgraph⟩ := hr.started hvalid hnonneg hfits
  refine ⟨hstart, fun s₀ hs₀ => ?_⟩
  rw [hs₀] at hcert hgraph
  obtain ⟨-, -, f, strategy, hpropose, -⟩ := (propose_ends hcert.toReady).exists_ok
  refine ⟨f, strategy, hpropose, fun hsub => ?_⟩
  obtain ⟨moved, hok, rfl, hbox, hrepair⟩ :=
    (round_boxOptimal hcert hnonneg hgraph hpropose hsub).exists_ok
  exact ⟨hok, hbox, hrepair⟩

/-- Three variables; one clique has the second of them twice, so its tuples may give this variable both
    labels at once.  The first round switches it. -/
theorem reached_boxOptimal_repeated :
    let m : Model :=
      .ofRows 2 #[#[0, 1], #[5, 0], #[0, 2]] [.potts [0, 1] 3, .potts [1, 2, 1] 4]
    let s₀ : Solver Unit Unit := Solver.new ⟨Cut.Graph.empty, ()⟩ ⟨.cyclic, false⟩
    m.Valid ∧ m.NonNegative ∧ s₀.graph.Fits m ∧ ∃ s, Reached m Cut.maxFlow s₀ s ∧
      s.labels = #[0, 1, 0] ∧
      m.FusionSubmodular (#[0, 1, 0].getD · 0) (#[0, 0, 0].getD · 0) ∧
      (round m Cut.maxFlow s).result = .ok true ∧
      (round m Cut.maxFlow s).state.labels = #[0, 0, 0] ∧
      (round m Cut.maxFlow s).state.certificate.dual.values = #[2, 0, -2, 1, 2, 2, 1, 0, -3, 1] ∧
      BoxOptimal m (round m Cut.maxFlow s).state.certificate (#[0, 1, 0].getD · 0)
        (#[0, 0, 0].getD · 0) (round m Cut.maxFlow s).state.labeling := by
  intro m s₀
  have hvalid : m.Valid := ⟨Model.fault?_eq_none_iff.mp (by decide), by decide, by decide⟩
  have hnonneg : m.NonNegative := by
    intro clique hclique x _
    simp only [m, Model.ofRows, List.mem_cons, List.not_mem_nil, or_false] at hclique
    obtain rfl | rfl := hclique <;> exact Model.energyAt_potts_nonneg _ (by decide) x
  have hfits : s₀.graph.Fits m := Cut.Graph.fits_empty m
  have hsub : m.FusionSubmodular (#[0, 1, 0].getD · 0) (#[0, 0, 0].getD · 0) := by decide
  -- the start, and what the first round proposes
  have hok : (iterate m Cut.maxFlow 0 s₀).result = .ok ⟨0, .exhausted⟩ := by decide +kernel
  have hphase : (iterate m Cut.maxFlow 0 s₀).state.phase = .exhausted := by decide +kernel
  have hlabels : (iterate m Cut.maxFlow 0 s₀).state.labels = #[0, 1, 0] := by decide +kernel
  have hproposed : ((iterate m Cut.maxFlow 0 s₀).state.strategy.propose
      (iterate m Cut.maxFlow 0 s₀).state.iteration
      (iterate m Cut.maxFlow 0 s₀).state.certificate.heights #[0, 1, 0]
      (iterate m Cut.maxFlow 0 s₀).state.proposed).toOption.map (·.1) = some #[0, 0, 0] := by
    decide +kernel
  have hround : (round m Cut.maxFlow (iterate m Cut.maxFlow 0 s₀).state).state.labels
      = #[0, 0, 0] := by decide +kernel
  have hdual : (round m Cut.maxFlow (iterate m Cut.maxFlow 0 s₀).state).state.certificate.dual.values
      = #[2, 0, -2, 1, 2, 2, 1, 0, -3, 1] := by decide +kernel
  have hr : Reached m Cut.maxFlow s₀ (iterate m Cut.maxFlow 0 s₀).state :=
    Reached.here.iterate 0 hok
  generalize (iterate m Cut.maxFlow 0 s₀).state = s at hr hphase hlabels hproposed hround hdual
  refine ⟨hvalid, hnonneg, hfits, s, hr, hlabels, hsub, ?_⟩
  have hstarted : (ensureStarted m s).state = s := by
    rw [ensureStarted_of_started m (by rw [hphase]; decide)]
  obtain ⟨-, hbox⟩ := reached_boxOptimal hvalid hnonneg hfits hr
  obtain ⟨f, strategy, hf, hbox⟩ := hbox s hstarted
  rw [hlabels] at hf
  rw [hf] at hproposed
  obtain rfl : f = #[0, 0, 0] := Option.some.inj hproposed
  have hlabeling : s.labeling = (#[0, 1, 0].getD · 0) := by
    ext v
    rw [labeling, hlabels]
  rw [hlabeling] at hbox
  obtain ⟨hmoved, hoptimal, -⟩ := hbox hsub
  rw [hlabels] at hmoved
  exact ⟨hmoved, hround, hdual, hoptimal⟩

end

end Solver

end FusionMove
