import FusionMove.Proofs.Cut.Descending
import FusionMove.Proofs.Solver.Descent

namespace FusionMove

/-!
# Optimal fusion moves

Where the fusion tables are submodular, the minimum cut is the best fusion of the labeling with the
proposal, and its potentials close the gap between duals and energy: nothing is left to repair, and
nothing can be refused.

* `Model.FusionSubmodular` — every clique is submodular where labeling and proposal differ;
* `Model.BestFusion` — a fusion of two labelings of least energy;
* `Solver.Loaded.submodular` — the loaded graph is submodular then, and `Loaded.chosen_best` — its
  sets of least energy are the best fusions;
* `Solver.MoveFaults.shortfall_pos` — a move over any oracle that answers faults only if the potentials
  fall short, and `Solver.not_moveFaults` — one over a minimum cut that goes down does not fault;
* `Solver.Moved.best` — such a move takes the best fusion;
* `Solver.reached_bestFusion` — a round over the minimum cut finds the best fusion.
-/

open FusionMove.Action

namespace Model

/-- Between the labelings `x` and `f` the energy of every clique is submodular on the members at
    which they differ. -/
def FusionSubmodular (m : Model) (x f : Nat → Nat) : Prop :=
  ∀ clique ∈ m.cliques, Mask.Submodular (Mask.ofBits (clique.nodes.map fun v => x v ≠ f v))
    fun t => clique.energy (Fusion.mix (clique.labelsAt x) (clique.labelsAt f) t)

instance (m : Model) (x f : Nat → Nat) : Decidable (m.FusionSubmodular x f) :=
  inferInstanceAs (Decidable (∀ clique ∈ m.cliques, _))

/-- The labeling `y` takes the label of `x` or of `f` at every variable. -/
def Between (m : Model) (x f y : Nat → Nat) : Prop :=
  ∀ v < m.numVars, y v = x v ∨ y v = f v

/-- The labeling `y` has the least energy among those between `x` and `f`. -/
structure BestFusion (m : Model) (x f y : Nat → Nat) : Prop where
  between : m.Between x f y
  energy_le : ∀ z, m.Between x f z → m.energy y ≤ m.energy z

variable {m : Model} {x f y : Nat → Nat}

/-- The best fusion is no worse than the labeling itself. -/
theorem BestFusion.energy_le_self (h : m.BestFusion x f y) : m.energy y ≤ m.energy x :=
  h.energy_le x fun _ _ => .inl rfl

/-- Labelings between two are those in which some variables have switched. -/
theorem Between.exists_switched (hw : m.WellFormed) (h : m.Between x f y) :
    ∃ S : Nat → Bool, (∀ v, S v = true → v < m.numVars ∧ x v ≠ f v) ∧
      m.energy (fusedLabeling x f S) = m.energy y := by
  refine ⟨fun v => v < m.numVars && y v ≠ x v, fun v hv => ?_, ?_⟩
  · obtain ⟨hlt, hne⟩ := Bool.and_eq_true_iff.mp hv
    have hv : v < m.numVars := of_decide_eq_true hlt
    have hne : y v ≠ x v := of_decide_eq_true hne
    rcases h v hv with heq | heq
    · exact absurd heq hne
    · exact ⟨hv, fun hxf => hne (by rw [heq, hxf])⟩
  · apply energy_congr fun clique hclique => (hw clique hclique).2.2
    intro v hv
    show (if (v < m.numVars && y v ≠ x v) = true then f v else x v) = y v
    by_cases hne : y v = x v
    · simp [hne]
    · have heq : y v = f v := (h v hv).resolve_left hne
      simp [hv, hne, ← heq]

end Model

namespace Solver

variable {σ τ : Type} {m : Model} {s : Solver σ τ} {g : Cut.Graph}

/-! ### The cut of the loaded graph -/

/-- The free members of a loaded factor are those at which labeling and proposal differ. -/
theorem Loaded.maskOf_free (hw : m.WellFormed) (hg : Loaded m s g) {c : Nat} {clique : Clique}
    {fac : Cut.Factor} (hclique : m.cliques[c]? = some clique) (hfac : g.factors[c]? = some fac) :
    fac.maskOf (fun v => !g.isFixed v)
      = Mask.ofBits (clique.nodes.map fun v => s.labeling v ≠ s.proposal v) := by
  obtain ⟨fac', hfac', hmembers, -⟩ := hg.mirrors.exists_factor hclique
  obtain rfl := Option.some.inj (hfac.symm.trans hfac')
  rw [Cut.Factor.maskOf, hmembers]
  refine congrArg Mask.ofBits (List.map_congr_left fun v hv => ?_)
  rw [hg.isFixed_eq v (hw.mem_lt hclique hv)]
  simp

/-- Less the duals, submodular fusion tables are submodular still. -/
theorem Loaded.submodular (hw : m.WellFormed) (hg : Loaded m s g)
    (hsub : m.FusionSubmodular s.labeling s.proposal) : g.Submodular := by
  intro fac hfac
  obtain ⟨c, hc, rfl⟩ := List.mem_iff_getElem.mp hfac
  have hlt : c < m.cliques.length := by
    rw [hg.mirrors.length_factors] at hc
    exact hc
  have hclique : m.cliques[c]? = some m.cliques[c] := List.getElem?_eq_getElem hlt
  have hfac? : g.factors[c]? = some g.factors[c] := List.getElem?_eq_getElem hc
  generalize m.cliques[c] = clique at hclique
  generalize g.factors[c] = fac at hfac?
  have hmem : clique ∈ m.cliques := List.mem_of_getElem? hclique
  rw [hg.maskOf_free hw hclique hfac?]
  -- the duals are a constant and a sum over members
  refine ((hsub clique hmem).sub_sum
    (sumTo clique.size fun p => s.certificate.dual.get c p (s.labeling (clique.nodes.getD p 0)))
    clique.size fun p => s.certificate.dual.get c p (s.proposal (clique.nodes.getD p 0))
      - s.certificate.dual.get c p (s.labeling (clique.nodes.getD p 0))).congr fun t ht => ?_
  rw [hg.entry_eq c clique fac hclique hfac? t (ht.lt (Mask.ofBits_map_lt _ _)),
    Certificate.residual, Int.sub_sub, Mask.sum, ← sumTo_add]
  congr 1
  apply sumTo_congr
  intro p _
  split <;> omega

/-- The variables of a set of least energy make up the best fusion. -/
theorem Loaded.chosen_best (h : Ready m s) (hp : ∀ v, s.proposal v < m.numLabels)
    (hg : Loaded m s g) {S : Nat → Bool} (hS : ∀ T, (s.withGraph g).loadCosts.graph.FreeSet T →
      (s.withGraph g).loadCosts.graph.energy S ≤ (s.withGraph g).loadCosts.graph.energy T) :
    m.BestFusion s.labeling s.proposal (fusedLabeling s.labeling s.proposal S) := by
  refine ⟨fun v _ => ?_, fun y hy => ?_⟩
  · unfold fusedLabeling
    split
    · exact .inr rfl
    · exact .inl rfl
  · obtain ⟨T, hT, henergy⟩ := hy.exists_switched h.wellFormed
    have hcosts := hg.loadCosts
    have hfree : (s.withGraph g).loadCosts.graph.FreeSet T := by
      intro v hv
      obtain ⟨hlt, hne⟩ := hT v hv
      exact ⟨by rw [hcosts.mirrors.numNodes_eq]; exact hlt,
        by rw [hcosts.isFixed_eq v hlt]; simpa using hne⟩
    have hle := hS T hfree
    have h1 := hg.energy_sub h hp S
    have h2 := hg.energy_sub h hp T
    omega

/-! ### Why moves fault -/

/-- A move that has its answer faults only where the answer does not cover what it has chosen. -/
theorem MoveFaults.shortfall_pos {o : Cut.Oracle σ} {answer : Cut.Answer} {fault : Fault}
    (hf : MoveFaults m o s fault) (h : Certified m s) (hnonneg : m.NonNegative)
    (hp : ∀ v, s.proposal v < m.numLabels) (hg : s.graph.Mirrors m)
    (hsolved : (o.solve (s.fusionProblem m) s.engine.memory).result = .ok answer)
    (hfree : (s.fusionProblem m).FreeSet answer.chosen) :
    ∃ c energy table, c < m.numCliques ∧ 0 < answer.shortfall (s.fusionProblem m) c ∧
      fault = .dualInfeasible c energy (energy - answer.shortfall (s.fusionProblem m) c)
        (answer.shortfall (s.fusionProblem m) c) table := by
  cases hf with
  | noRoom _ hroom => exact absurd hg hroom
  | oracle herror => exact absurd (hsolved.symm.trans herror) (by simp)
  | clique answer' engine c clique hsolved' hclique hrefused =>
    obtain rfl := Except.ok.inj (hsolved.symm.trans hsolved')
    have hexcess := excess_freeSet h hp hg engine hfree hclique
    have hready := ready_fused h.toReady hp engine answer
    have henergy := hnonneg clique (List.mem_of_getElem? hclique) _ hready.labeling_lt
    generalize clique.energyAt (fused m s engine answer).labeling = energy at *
    generalize (fused m s engine answer).certificate.dualSum c _ = dualSum at *
    cases hrefused with
    | negative hneg => exact absurd henergy (Int.not_le.mpr hneg)
    | infeasible table hgap =>
      refine ⟨c, energy, table, (List.getElem?_eq_some_iff.mp hclique).1, by omega, ?_⟩
      rw [← hexcess, Int.sub_sub_self]

/-! ### Moves over the minimum cut -/

section

variable {s : Solver Unit τ}

/-- Between labelings whose fusions are submodular the minimum cut is the least one. -/
theorem leastMinimiser_fusionProblem (h : Certified m s) (hg : s.graph.Mirrors m)
    (hsub : m.FusionSubmodular s.labeling s.proposal) :
    (s.fusionProblem m).LeastMinimiser (Cut.minimumCut (s.fusionProblem m)).chosen := by
  have hloaded := loaded_fusionProblem h hg
  exact Cut.minimumCut_leastMinimiser hloaded.mirrors.wellFormed
    (hloaded.submodular h.wellFormed hsub)

/-- A move between such labelings finds their best fusion. -/
theorem Moved.best {answer : Cut.Answer} {engine : Cut.Engine Unit} {t : Certificate}
    (hm : Moved m Cut.maxFlow s answer engine t) (h : Certified m s)
    (hp : ∀ v, s.proposal v < m.numLabels) (hg : s.graph.Mirrors m)
    (hsub : m.FusionSubmodular s.labeling s.proposal) :
    m.BestFusion s.labeling s.proposal (fused m s engine answer).labeling := by
  obtain ⟨g, hloaded, hproblem⟩ := exists_loaded h hg
  have hleast := leastMinimiser_fusionProblem h hg hsub
  obtain rfl := answer_eq_minimumCut h hg hm.solved
  rw [labeling_minimumCut h hg]
  refine hloaded.chosen_best h.toReady hp ?_
  rw [hproblem]
  exact hleast.energy_le

/-- Between such labelings minimum cuts go down. -/
theorem descending_fusionProblem (h : Certified m s) (hg : s.graph.Mirrors m)
    (hsub : m.FusionSubmodular s.labeling s.proposal) : (s.fusionProblem m).Descending := by
  have hloaded := loaded_fusionProblem h hg
  exact Cut.descending_of_submodular hloaded.mirrors.wellFormed
    (hloaded.submodular h.wellFormed hsub)

/-- A move over a minimum cut that goes down does not fault. -/
theorem not_moveFaults (h : Certified m s) (hnonneg : m.NonNegative)
    (hp : ∀ v, s.proposal v < m.numLabels) (hg : s.graph.Mirrors m)
    (hcut : (s.fusionProblem m).Descending) (fault : Fault) :
    ¬ MoveFaults m Cut.maxFlow s fault := by
  have hgw := (loaded_fusionProblem h hg).mirrors.wellFormed
  intro hfault
  obtain ⟨c, -, -, -, hpos, -⟩ := hfault.shortfall_pos h hnonneg hp hg (Cut.maxFlow_solve hgw)
    (Cut.minimumCut_freeSet hgw)
  -- but the cut leaves no slack
  rw [Cut.minimumCut_shortfall hgw] at hpos
  exact absurd (hcut.slackOn_le c) (Int.not_le.mpr hpos)

/-- A round whose proposal is not the labeling itself finds the best fusion of the two, and does not
    fault. -/
theorem round_best (h : Certified m s) (hnonneg : m.NonNegative) (hgraph : s.graph.Mirrors m)
    {f : Array Nat} {strategy : Strategy τ}
    (hpropose : s.strategy.propose s.iteration s.certificate.heights s.labels s.proposed
      = .ok (f, strategy)) (hne : f ≠ s.labels)
    (hsub : m.FusionSubmodular s.labeling (f.getD · 0)) :
    Ends (round m Cut.maxFlow) s
      (fun fused s' => fused = true ∧ m.BestFusion s.labeling (f.getD · 0) s'.labeling)
      (fun _ _ => False) := by
  obtain ⟨f', strategy', hpropose', hcert, hp, hround⟩ := round_rounds Cut.maxFlow h
  obtain ⟨rfl, rfl⟩ := Prod.mk.inj (Except.ok.inj (hpropose.symm.trans hpropose'))
  refine hround.mono (fun fused s' h' => ?_) fun fault _ hf =>
    not_moveFaults hcert hnonneg hp hgraph (descending_fusionProblem hcert hgraph hsub) fault hf.2
  cases h' with
  | stop heq => exact absurd heq hne
  | move answer engine t _ hm => exact ⟨rfl, hm.best hcert hp hgraph hsub⟩

end

/-! ### One iteration -/

/-- A solver that has started stays as it is. -/
theorem ensureStarted_of_started (m : Model) (h : s.phase ≠ .uninitialized) :
    ensureStarted m s = ⟨.ok (), s, []⟩ := by
  unfold ensureStarted
  rw [bind_apply_ok (get_apply s), if_neg h]
  rfl

/-- A start does not converge. -/
theorem ensureStarted_converged (m : Model) (s : Solver σ τ) :
    Ends (ensureStarted m) s (fun _ s' => s'.phase = .converged → s.phase = .converged)
      (fun _ _ => True) := by
  unfold ensureStarted
  refine ends_bind (ends_get ?_)
  split
  · refine (start_ends m s).mono (fun _ s' h' hconverged => ?_) fun _ _ _ => trivial
    rw [h'.1] at hconverged
    exact absurd hconverged (by decide)
  · exact ends_pure id

/-- A run of one iteration leaves the labels that its round leaves. -/
theorem iterate_one_ends (o : Cut.Oracle σ) {P : (Nat → Nat) → Prop}
    (hstart : (ensureStarted m s).result = .ok ()) (hphase : s.phase ≠ .converged)
    (hround : Ends (round m o) (enter .iterating (ensureStarted m s).state).state
      (fun fused s' => fused = true ∧ P s'.labeling) (fun _ _ => False)) :
    Ends (iterate m o 1) s (fun report s' => report.iterations = 1 ∧ P s'.labeling)
      (fun _ _ => False) := by
  have hconverged : (ensureStarted m s).state.phase ≠ .converged :=
    fun heq => hphase ((ensureStarted_converged m s).of_ok hstart heq)
  refine ends_iterate ((ends_of_ok hstart).mono_ok fun _ s₁ h₁ => ?_)
  obtain ⟨-, rfl⟩ := h₁
  refine ⟨fun heq => absurd heq hconverged, fun _ => ?_⟩
  refine ends_rounds_succ (hround.mono_ok fun fused s₂ h₂ => ?_)
  obtain ⟨rfl, hlabels⟩ := h₂
  -- whether the round was the last one or the budget is used up, the labels stay
  exact ⟨fun hstop => absurd hstop (by decide), fun _ _ => ⟨rfl, hlabels⟩,
    fun _ _ => ends_pure ⟨rfl, hlabels⟩⟩

/-- From every state that a new solver reaches over the minimum cut, a round whose proposal differs
    from the labeling, with submodular fusions between them, does not fault and leaves the best
    fusion of the two.  So does a run of one iteration, unless the solver has converged. -/
theorem reached_bestFusion (hvalid : m.Valid) (hnonneg : m.NonNegative)
    {engine : Cut.Engine Unit} (hfits : engine.graph.Fits m) {config : Config}
    {s : Solver Unit τ} (hr : Reached m Cut.maxFlow (Solver.new engine config) s) :
    (ensureStarted m s).result = .ok () ∧ ∀ s₀, (ensureStarted m s).state = s₀ →
      ∃ f strategy, s₀.strategy.propose s₀.iteration s₀.certificate.heights s₀.labels s₀.proposed
          = .ok (f, strategy) ∧
        (f ≠ s₀.labels → m.FusionSubmodular s₀.labeling (f.getD · 0) →
          ((round m Cut.maxFlow s₀).result = .ok true ∧
            m.BestFusion s₀.labeling (f.getD · 0) (round m Cut.maxFlow s₀).state.labeling ∧
            m.energy (round m Cut.maxFlow s₀).state.labeling ≤ m.energy s₀.labeling) ∧
          (s.phase ≠ .converged →
            ∃ phase, (iterate m Cut.maxFlow 1 s).result = .ok ⟨1, phase⟩ ∧
              m.BestFusion s₀.labeling (f.getD · 0) (iterate m Cut.maxFlow 1 s).state.labeling ∧
              m.energy (iterate m Cut.maxFlow 1 s).state.labeling ≤ m.energy s₀.labeling)) := by
  obtain ⟨hstart, hcert, hgraph⟩ := hr.started hvalid hnonneg hfits
  refine ⟨hstart, fun s₀ hs₀ => ?_⟩
  rw [hs₀] at hcert hgraph
  obtain ⟨-, -, f, strategy, hpropose, -⟩ := (propose_ends hcert.toReady).exists_ok
  refine ⟨f, strategy, hpropose, fun hne hsub => ⟨?_, fun hphase => ?_⟩⟩
  · obtain ⟨fused, hok, rfl, hbest⟩ :=
      (round_best hcert hnonneg hgraph hpropose hne hsub).exists_ok
    exact ⟨hok, hbest, hbest.energy_le_self⟩
  · have hcert' : Certified m (enter .iterating s₀).state := hcert.of_eq rfl rfl rfl rfl
    have hround := round_best hcert' hnonneg hgraph hpropose hne hsub
    rw [← hs₀] at hround
    obtain ⟨⟨done, phase⟩, hok, rfl, hbest⟩ :=
      (iterate_one_ends (P := m.BestFusion _ _) _ hstart hphase hround).exists_ok
    rw [hs₀] at hbest
    exact ⟨phase, hok, hbest, hbest.energy_le_self⟩

/-- Two variables that start apart.  The first iteration proposes the first label, and they stay
    apart; the second proposes the other one, and they come together. -/
theorem reached_bestFusion_pair :
    let m : Model := .ofRows 2 #[#[0, 1], #[5, 0]] [.potts [0, 1] 3]
    let s₀ : Solver Unit Unit := Solver.new ⟨Cut.Graph.empty, ()⟩ ⟨.cyclic, false⟩
    m.Valid ∧ m.NonNegative ∧ s₀.graph.Fits m ∧ ∃ s, Reached m Cut.maxFlow s₀ s ∧
      s.labels = #[0, 1] ∧ m.FusionSubmodular (#[0, 1].getD · 0) (#[1, 1].getD · 0) ∧
      ∃ phase, (iterate m Cut.maxFlow 1 s).result = .ok ⟨1, phase⟩ ∧
        m.BestFusion (#[0, 1].getD · 0) (#[1, 1].getD · 0)
          (iterate m Cut.maxFlow 1 s).state.labeling := by
  intro m s₀
  have hvalid : m.Valid := ⟨Model.fault?_eq_none_iff.mp (by decide), by decide, by decide⟩
  have hnonneg : m.NonNegative := by
    intro clique hclique x _
    obtain rfl := List.mem_singleton.mp hclique
    exact Model.energyAt_potts_nonneg _ (by decide) x
  have hfits : s₀.graph.Fits m := Cut.Graph.fits_empty m
  have hsub : m.FusionSubmodular (#[0, 1].getD · 0) (#[1, 1].getD · 0) := by decide
  -- what the first iteration leaves, and what the second proposes
  have hok : (iterate m Cut.maxFlow 1 s₀).result = .ok ⟨1, .exhausted⟩ := by decide +kernel
  have hphase : (iterate m Cut.maxFlow 1 s₀).state.phase = .exhausted := by decide +kernel
  have hlabels : (iterate m Cut.maxFlow 1 s₀).state.labels = #[0, 1] := by decide +kernel
  have hproposed : ((iterate m Cut.maxFlow 1 s₀).state.strategy.propose
      (iterate m Cut.maxFlow 1 s₀).state.iteration
      (iterate m Cut.maxFlow 1 s₀).state.certificate.heights #[0, 1]
      (iterate m Cut.maxFlow 1 s₀).state.proposed).toOption.map (·.1) = some #[1, 1] := by
    decide +kernel
  have hr : Reached m Cut.maxFlow s₀ (iterate m Cut.maxFlow 1 s₀).state :=
    Reached.here.iterate 1 hok
  generalize (iterate m Cut.maxFlow 1 s₀).state = s at hr hphase hlabels hproposed
  refine ⟨hvalid, hnonneg, hfits, s, hr, hlabels, hsub, ?_⟩
  have hstarted : (ensureStarted m s).state = s := by
    rw [ensureStarted_of_started m (by rw [hphase]; decide)]
  obtain ⟨-, hbest⟩ := reached_bestFusion hvalid hnonneg hfits hr
  obtain ⟨f, strategy, hf, hbest⟩ := hbest s hstarted
  rw [hlabels] at hf
  rw [hf] at hproposed
  obtain rfl : f = #[1, 1] := Option.some.inj hproposed
  have hlabeling : s.labeling = (#[0, 1].getD · 0) := by
    ext v
    rw [labeling, hlabels]
  rw [hlabeling] at hbest
  have hdiffers : #[1, 1] ≠ s.labels := by
    rw [hlabels]
    decide
  obtain ⟨phase, hone, hfused, -⟩ := (hbest hdiffers hsub).2 (by rw [hphase]; decide)
  exact ⟨phase, hone, hfused⟩

end Solver

end FusionMove
