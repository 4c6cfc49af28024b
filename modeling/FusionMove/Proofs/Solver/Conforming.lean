import FusionMove.Proofs.Solver.Optimal

namespace FusionMove

/-!
# Conforming oracles

What a round makes of any oracle that keeps its promise, where the fusions are submodular.

The promised set is the best fusion.  The promised bound on the potentials is one from above, and
the repair needs one from below: after the move a clique costs above its duals what the potentials
fall short by.  So a round either is complete, if the answer covers what it has chosen, or is refused
for a clique in which it does not.

* `Solver.exists_answer` — the oracle answers;
* `Solver.best_of_honors` — a completed move leaves the best fusion;
* `Solver.maxFlow_covers` — the minimum cut covers what it has chosen;
* `Solver.round_conforming` — when a round completes;
* `Solver.skewed_refused` — an oracle that keeps its promise, and a round that is refused.
-/

open FusionMove.Action

namespace Solver

variable {σ τ : Type} {m : Model} {o : Cut.Oracle σ} {s : Solver σ τ} {answer : Cut.Answer}

/-- Between labelings whose fusions are submodular a conforming oracle answers as promised. -/
theorem exists_answer (h : Certified m s) (hg : s.graph.Mirrors m)
    (ho : o.Conforms s.engine.memory) (hsub : m.FusionSubmodular s.labeling s.proposal) :
    ∃ answer, (o.solve (s.fusionProblem m) s.engine.memory).result = .ok answer ∧
      answer.Honors (s.fusionProblem m) := by
  have hloaded := loaded_fusionProblem h hg
  exact ho _ hloaded.mirrors.wellFormed (hloaded.submodular h.wellFormed hsub)

/-! ### Moves -/

/-- An answer as promised leaves the best fusion of labeling and proposal. -/
theorem best_of_honors (h : Certified m s) (hp : ∀ v, s.proposal v < m.numLabels)
    (hg : s.graph.Mirrors m) (engine : Cut.Engine σ)
    (hanswer : answer.Honors (s.fusionProblem m)) :
    m.BestFusion s.labeling s.proposal (fused m s engine answer).labeling := by
  obtain ⟨g, hloaded, hproblem⟩ := exists_loaded h hg
  rw [labeling_freeSet h hg engine hanswer.free]
  refine hloaded.chosen_best h.toReady hp ?_
  rw [hproblem]
  exact hanswer.energy_le

/-- The answer of the minimum cut covers what it has chosen. -/
theorem maxFlow_covers {s : Solver Unit τ} (h : Certified m s) (hg : s.graph.Mirrors m)
    (hsub : m.FusionSubmodular s.labeling s.proposal)
    (hsolved : (Cut.maxFlow.solve (s.fusionProblem m) s.engine.memory).result = .ok answer) :
    answer.Covers (s.fusionProblem m) := by
  have hloaded := loaded_fusionProblem h hg
  rw [answer_eq_minimumCut h hg hsolved]
  exact Cut.minimumCut_covers hloaded.mirrors.wellFormed (hloaded.submodular h.wellFormed hsub)

/-! ### Rounds -/

/-- A round whose proposal is the labeling itself asks no oracle. -/
theorem round_of_eq {f : Array Nat} {strategy : Strategy τ}
    (hpropose : s.strategy.propose s.iteration s.certificate.heights s.labels s.proposed
      = .ok (f, strategy)) (heq : f = s.labels) : (round m o s).result = .ok false := by
  unfold round
  rw [bind_apply_ok (propose_apply hpropose), bind_apply_ok (get_apply _),
    if_pos (show (proposing f strategy s).proposed = (proposing f strategy s).labels from heq)]
  rfl

/-- What a round with a proposal does, once the oracle has answered as promised. -/
theorem round_of_honors (h : Certified m s) (hnonneg : m.NonNegative) (hg : s.graph.Mirrors m)
    {f : Array Nat} {strategy : Strategy τ}
    (hpropose : s.strategy.propose s.iteration s.certificate.heights s.labels s.proposed
      = .ok (f, strategy)) (hne : f ≠ s.labels) {problem : Cut.Graph}
    (hproblem : (proposing f strategy s).fusionProblem m = problem)
    (hsolved : (o.solve problem s.engine.memory).result = .ok answer)
    (hanswer : answer.Honors problem) :
    Ends (round m o) s
      (fun fused s' => fused = true ∧ answer.Covers problem ∧
        m.BestFusion s.labeling (f.getD · 0) s'.labeling ∧ Certified m s')
      (fun fault _ => ∃ c energy table, c < m.numCliques ∧ 0 < answer.shortfall problem c ∧
        fault = .dualInfeasible c energy (energy - answer.shortfall problem c)
          (answer.shortfall problem c) table) := by
  subst hproblem
  obtain ⟨f', strategy', hpropose', hcert, hp, hround⟩ := round_rounds o h
  obtain ⟨rfl, rfl⟩ := Prod.mk.inj (Except.ok.inj (hpropose.symm.trans hpropose'))
  refine hround.mono (fun fused s' h' => ?_) fun fault _ hf =>
    hf.2.shortfall_pos hcert hnonneg hp hg hsolved hanswer.free
  cases h' with
  | stop heq => exact absurd heq hne
  | move answer' engine t _ hm =>
    obtain rfl : answer = answer' := Except.ok.inj (hsolved.symm.trans hm.solved)
    exact ⟨rfl, hm.covers hcert hp hg hanswer.free, best_of_honors hcert hp hg engine hanswer,
      (hm.certified hcert hp).of_eq rfl rfl rfl rfl⟩

/-- Over any conforming oracle and from any tight state of a model without negative energies, a
    round whose proposal is the labeling itself completes, and so does one whose proposal differs
    from the labeling, with submodular fusions between them, exactly if the answer covers what it
    has chosen.  Then it leaves the best fusion of the two, and tight duals.  If not, it is refused
    for a clique in which the potentials fall short, and by as much as they do. -/
theorem round_conforming (h : Certified m s) (hnonneg : m.NonNegative) (hg : s.graph.Mirrors m)
    (ho : o.Conforms s.engine.memory) {f : Array Nat} {strategy : Strategy τ}
    (hpropose : s.strategy.propose s.iteration s.certificate.heights s.labels s.proposed
      = .ok (f, strategy)) (hsub : m.FusionSubmodular s.labeling (f.getD · 0)) :
    (f = s.labels → (round m o s).result = .ok false) ∧
    (f ≠ s.labels → ∀ problem, (proposing f strategy s).fusionProblem m = problem →
      ∃ answer, (o.solve problem s.engine.memory).result = .ok answer ∧ answer.Honors problem ∧
        (answer.Covers problem → (round m o s).result = .ok true ∧
          m.BestFusion s.labeling (f.getD · 0) (round m o s).state.labeling ∧
          Certified m (round m o s).state) ∧
        (¬ answer.Covers problem → ∃ c energy table, c < m.numCliques ∧
          0 < answer.shortfall problem c ∧ (round m o s).result
            = .error (.dualInfeasible c energy (energy - answer.shortfall problem c)
                (answer.shortfall problem c) table))) := by
  obtain ⟨f', strategy', hpropose', hcert, -⟩ := round_rounds o h
  obtain ⟨rfl, rfl⟩ := Prod.mk.inj (Except.ok.inj (hpropose.symm.trans hpropose'))
  have hg' : (proposing f strategy s).graph.Mirrors m := hg
  refine ⟨fun heq => ?_, fun hne problem hproblem => ?_⟩
  · exact round_of_eq hpropose heq
  · obtain ⟨answer, hsolved, hanswer⟩ := exists_answer hcert hg' ho hsub
    rw [hproblem] at hsolved hanswer
    have hends := round_of_honors h hnonneg hg hpropose hne hproblem hsolved hanswer
    refine ⟨answer, hsolved, hanswer, fun hcovers => ?_, fun hcovers => ?_⟩
    · obtain ⟨fused, hok, rfl, -, hbest, hcert'⟩ := hends.exists_ok_of fun fault _ hf => by
        obtain ⟨c, -, -, hc, hpos, -⟩ := hf
        have := hcovers c (by
          rw [← hproblem, (loaded_fusionProblem hcert hg').mirrors.length_factors]
          exact hc)
        omega
      exact ⟨hok, hbest, hcert'⟩
    · cases hresult : (round m o s).result with
      | ok fused => exact absurd (hends.of_ok hresult).2.1 hcovers
      | error fault =>
        obtain ⟨c, energy, table, hc, hpos, rfl⟩ := hends.of_error hresult
        exact ⟨c, energy, table, hc, hpos, rfl⟩

/-- Two variables whose cheapest labels differ, in a clique that wants them to agree. -/
def disagreeing : Model :=
  .ofRows 2 #[#[0, 5], #[1, 0]] [.potts [0, 1] 10]

theorem disagreeing_nonNegative : disagreeing.NonNegative := by
  intro clique hclique x _
  obtain rfl := List.mem_singleton.mp hclique
  exact Model.energyAt_potts_nonneg _ (by decide) x

/-- Over minimum cuts the variables come together. -/
theorem round_conforming_maxFlow :
    ∃ s : Solver Unit Unit, Certified disagreeing s ∧ s.graph.Mirrors disagreeing ∧
      disagreeing.NonNegative ∧ Cut.maxFlow.Conforms s.engine.memory ∧ s.labels = #[0, 1] ∧
      disagreeing.FusionSubmodular s.labeling (#[0, 0].getD · 0) ∧
      (round disagreeing Cut.maxFlow s).result = .ok true ∧
      disagreeing.BestFusion s.labeling (#[0, 0].getD · 0)
        (round disagreeing Cut.maxFlow s).state.labeling := by
  let s₀ : Solver Unit Unit := Solver.new ⟨Cut.Graph.empty, ()⟩ .standard
  have hok : (start disagreeing s₀).result = .ok () := by decide +kernel
  have hlabels : (start disagreeing s₀).state.labels = #[0, 1] := by decide +kernel
  have hproposed : ((start disagreeing s₀).state.strategy.propose
      (start disagreeing s₀).state.iteration (start disagreeing s₀).state.certificate.heights
      (start disagreeing s₀).state.labels
      (start disagreeing s₀).state.proposed).toOption.map (·.1) = some #[0, 0] := by
    decide +kernel
  have hsub : disagreeing.FusionSubmodular (start disagreeing s₀).state.labeling
      (#[0, 0].getD · 0) := by decide +kernel
  have hfits : s₀.graph.Fits disagreeing := Cut.Graph.fits_empty disagreeing
  obtain ⟨hcert, hg⟩ := certified_start hok hfits
  generalize (start disagreeing s₀).state = s at hcert hg hlabels hproposed hsub
  obtain ⟨f, strategy, hpropose, hcert', -⟩ := round_rounds Cut.maxFlow hcert
  rw [hpropose] at hproposed
  obtain rfl : f = #[0, 0] := Option.some.inj hproposed
  obtain ⟨-, hmove⟩ := round_conforming hcert disagreeing_nonNegative hg Cut.maxFlow_conforms
    hpropose hsub
  obtain ⟨answer, hsolved, -, hcovered, -⟩ := hmove (by rw [hlabels]; decide) _ rfl
  obtain ⟨hround, hbest, -⟩ := hcovered (maxFlow_covers hcert' hg hsub hsolved)
  exact ⟨s, hcert, hg, disagreeing_nonNegative, Cut.maxFlow_conforms, hlabels, hsub, hround, hbest⟩

/-- With one taken off every potential the oracle keeps its promise, but the potentials of the two
    members fall short by two, and the same round is refused. -/
theorem skewed_refused :
    ∃ s : Solver Cut.Skew Unit, Certified disagreeing s ∧ s.graph.Mirrors disagreeing ∧
      disagreeing.NonNegative ∧ Cut.skewed.Conforms s.engine.memory ∧
      (∃ strategy, s.strategy.propose s.iteration s.certificate.heights s.labels s.proposed
        = .ok (#[0, 0], strategy)) ∧ s.labels = #[0, 1] ∧
      disagreeing.FusionSubmodular s.labeling (#[0, 0].getD · 0) ∧
      (round disagreeing Cut.skewed s).result
        = .error (.dualInfeasible 0 0 (-2) 2 [0, 0, -5, -5]) := by
  let s₀ : Solver Cut.Skew Unit := Solver.new ⟨Cut.Graph.empty, ⟨-1, 0⟩⟩ .standard
  have hok : (start disagreeing s₀).result = .ok () := by decide +kernel
  have hlabels : (start disagreeing s₀).state.labels = #[0, 1] := by decide +kernel
  have hmemory : (start disagreeing s₀).state.engine.memory = ⟨-1, 0⟩ := by decide +kernel
  have hproposed : ((start disagreeing s₀).state.strategy.propose
      (start disagreeing s₀).state.iteration (start disagreeing s₀).state.certificate.heights
      (start disagreeing s₀).state.labels
      (start disagreeing s₀).state.proposed).toOption.map (·.1) = some #[0, 0] := by
    decide +kernel
  have hround : (round disagreeing Cut.skewed (start disagreeing s₀).state).result
      = .error (.dualInfeasible 0 0 (-2) 2 [0, 0, -5, -5]) := by decide +kernel
  have hsub : disagreeing.FusionSubmodular (start disagreeing s₀).state.labeling
      (#[0, 0].getD · 0) := by decide +kernel
  have hfits : s₀.graph.Fits disagreeing := Cut.Graph.fits_empty disagreeing
  obtain ⟨hcert, hg⟩ := certified_start hok hfits
  generalize (start disagreeing s₀).state = s at hcert hg hlabels hmemory hproposed hround hsub
  obtain ⟨-, -, f, strategy, hpropose, -⟩ := (propose_ends hcert.toReady).exists_ok
  rw [hpropose] at hproposed
  obtain rfl : f = #[0, 0] := Option.some.inj hproposed
  have hconforms : Cut.skewed.Conforms s.engine.memory := by
    rw [hmemory]
    exact Cut.skewed_conforms (by decide)
  exact ⟨s, hcert, hg, disagreeing_nonNegative, hconforms, ⟨strategy, hpropose⟩, hlabels, hsub,
    hround⟩

end Solver

end FusionMove
