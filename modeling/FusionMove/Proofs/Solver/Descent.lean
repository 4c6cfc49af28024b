import FusionMove.Proofs.Cut.Contract
import FusionMove.Proofs.Solver.Reached

namespace FusionMove

/-!
# Descent

What a move over the minimum cut does to the energy, whatever the fusion tables.

The potentials of a cut go into the duals, so above these a clique then costs what the cut has left as
slack at the chosen members.  The repair refuses a clique with a positive rest, and the other
cliques make the fusion cheaper still: a move that is complete has not raised the energy, as long as
the chosen nodes cannot send to the sink.  A search that finds no path makes sure of that.  A run
that gives up on a path without capacity does not, and there the energy may grow.

* `Solver.excess_fused` — what a clique costs above its duals after an answer was taken over, and
  `Solver.Moved.covers` — so a completed move has left no gap;
* `Solver.Moved.energy_le` — a completed move whose search gave up on no path does not raise the
  energy;
* `Solver.reached_energy_le` — nor does a round or a run that reports no warning;
* `Solver.round_raises_energy` — a round with a warning that does.
-/

open FusionMove.Action

/-! ### What a quiet round has not given up -/

/-- In a quiet call of the oracle no path is given up. -/
theorem Cut.not_mem_saturated_events {g : Graph} (hw : g.WellFormed)
    (h : Quiet (maxFlow.solve g ())) (sink : Nat) (flow : Int) :
    Event.noCapacity sink flow ∉ (Network.ofGraph g).saturated.events := by
  have hrequire : (Action.require g.WellFormed .outOfRange ()).result = .ok () := by
    rw [Action.require, if_pos hw]
    rfl
  exact fun hwarn => quiet_of_bind (quiet_of_bind_ok h hrequire) _ hwarn rfl

namespace Solver

variable {σ τ : Type} {m : Model} {s : Solver σ τ} {g : Cut.Graph}

/-- In a quiet move the oracle is quiet. -/
theorem quiet_of_fusionMove {o : Cut.Oracle σ} (hload : (loadTables m s).result = .ok ())
    (h : Quiet (fusionMove m o s)) :
    Quiet (o.solve (s.fusionProblem m) (loadTables m s).state.engine.memory) := by
  intro e he
  have hrun : e ∈ (o.run (loadTables m s).state.loadCosts.engine).events :=
    mem_events_bind_right rfl (mem_events_bind_left he)
  have hfuse : e ∈ (fuse m o (loadTables m s).state).events :=
    mem_events_bind_right rfl (mem_events_bind_left hrun)
  exact quiet_of_bind (quiet_of_bind_ok h hload) e hfuse

/-- In a quiet round the move is quiet. -/
theorem quiet_of_round {o : Cut.Oracle σ} {f : Array Nat} {strategy : Strategy τ}
    (hpropose : s.strategy.propose s.iteration s.certificate.heights s.labels s.proposed
      = .ok (f, strategy)) (hne : f ≠ s.labels) (h : Quiet (round m o s)) :
    Quiet (fusionMove m o (proposing f strategy s)) := by
  have happly := propose_apply hpropose
  have hrest := quiet_of_bind_ok h (congrArg Outcome.result happly)
  rw [happly] at hrest
  have hmove := quiet_of_bind_ok hrest rfl
  rw [if_neg (show ¬ (proposing f strategy s).proposed = (proposing f strategy s).labels from hne)]
    at hmove
  exact quiet_of_bind hmove

/-! ### The gap that a cut leaves -/

/-- The labels after an answer was taken over. -/
theorem labeling_fused (h : Ready m s) (engine : Cut.Engine σ) (answer : Cut.Answer)
    (hfree : ∀ v, answer.chosen v = true → v < m.numVars) :
    (fused m s engine answer).labeling = fusedLabeling s.labeling s.proposal answer.chosen := by
  ext v
  show (Array.ofFn fun v : Fin s.labels.size =>
    if answer.chosen v then s.proposal v else s.labeling v).getD v 0 = _
  rw [Array.getD_eq_getD_getElem?, Array.getElem?_ofFn, fusedLabeling]
  split
  · rfl
  · rename_i hv
    have hout : answer.chosen v = false := Bool.eq_false_iff.mpr fun hc => hv (by
      rw [h.labels_size]
      exact hfree v hc)
    have hlabel : s.labels[v]? = none := Array.getElem?_eq_none (Nat.not_lt.mp hv)
    rw [hout, labeling, Array.getD_eq_getD_getElem?, hlabel]
    rfl

/-- Sets of free nodes of the fusion problem are sets of variables. -/
theorem labeling_freeSet (h : Certified m s) (hg : s.graph.Mirrors m) (engine : Cut.Engine σ)
    {answer : Cut.Answer} (hfree : (s.fusionProblem m).FreeSet answer.chosen) :
    (fused m s engine answer).labeling = fusedLabeling s.labeling s.proposal answer.chosen := by
  refine labeling_fused h.toReady engine answer fun v hv => ?_
  rw [← (loaded_fusionProblem h hg).mirrors.numNodes_eq]
  exact (hfree v hv).1

/-- A member brings its potential if its label is the proposed one: by choice, or as it was before. -/
theorem get_fused (h : Ready m s) (hp : ∀ v, s.proposal v < m.numLabels) (hg : Loaded m s g)
    (engine : Cut.Engine σ) (answer : Cut.Answer) {c : Nat} {clique : Clique}
    (hclique : m.cliques[c]? = some clique) (p : Nat) (hpk : p < clique.size) :
    (fused m s engine answer).certificate.dual.get c p
        (fusedLabeling s.labeling s.proposal answer.chosen (clique.nodes.getD p 0))
      = s.certificate.dual.get c p
          (fusedLabeling s.labeling s.proposal answer.chosen (clique.nodes.getD p 0))
        + if (answer.chosen (clique.nodes.getD p 0) || g.isFixed (clique.nodes.getD p 0))
          then answer.potential c p else 0 := by
  have hlt := fusedLabeling_lt h.labeling_lt hp answer.chosen
  have hvar := h.wellFormed.node_lt hclique hpk
  show (absorb m answer.potential s).certificate.dual.get c p _ = _
  rw [get_absorb h hp answer.potential hclique hpk (hlt _), hg.isFixed_eq _ hvar, fusedLabeling]
  generalize clique.nodes.getD p 0 = v
  cases answer.chosen v with
  | true => simp
  | false => simp [eq_comm]

/-- Taking an answer over, a clique costs above its duals at the chosen labels what the potentials
    fall short by. -/
theorem excess_fused (h : Certified m s) (hp : ∀ v, s.proposal v < m.numLabels)
    (hg : Loaded m s g) (engine : Cut.Engine σ) (answer : Cut.Answer) {c : Nat} {clique : Clique}
    (hclique : m.cliques[c]? = some clique) :
    clique.energyAt (fusedLabeling s.labeling s.proposal answer.chosen)
      - (fused m s engine answer).certificate.dualSum c
          (clique.labelsAt (fusedLabeling s.labeling s.proposal answer.chosen))
      = answer.shortfall g c := by
  have hw := h.wellFormed
  obtain ⟨fac, hfac, hmembers, -⟩ := hg.mirrors.exists_factor hclique
  have hchosen := hg.factor_energy h.toReady answer.chosen hclique hfac
  -- before the move the duals were tight, so the table starts at zero
  have hempty : fac.entry 0 = 0 := by
    have hnone := hg.factor_energy h.toReady (fun _ => false) hclique hfac
    rw [Cut.Factor.energy, fac.maskOf_none, fusedLabeling_none,
      Certificate.tight_iff.mp h.tight c clique hclique] at hnone
    omega
  have hsize : fac.size = clique.size := by rw [Cut.Factor.size, hmembers]; rfl
  rw [Certificate.dualSum_labelsAt hw hclique, sumTo_congr (get_fused h.toReady hp hg engine answer hclique), sumTo_add,
    ← Certificate.dualSum_labelsAt hw hclique, Cut.Answer.shortfall, hfac, Option.map_some,
    Option.getD_some, fac.sum_maskOf, hmembers, hsize]
  rw [Cut.Factor.energy] at hchosen
  omega

/-- The same at the labels after the move. -/
theorem excess_freeSet (h : Certified m s) (hp : ∀ v, s.proposal v < m.numLabels)
    (hg : s.graph.Mirrors m) (engine : Cut.Engine σ) {answer : Cut.Answer}
    (hfree : (s.fusionProblem m).FreeSet answer.chosen) {c : Nat} {clique : Clique}
    (hclique : m.cliques[c]? = some clique) :
    clique.energyAt (fused m s engine answer).labeling
      - (fused m s engine answer).certificate.dualSum c
          (clique.labelsAt (fused m s engine answer).labeling)
      = answer.shortfall (s.fusionProblem m) c := by
  rw [labeling_freeSet h hg engine hfree]
  exact excess_fused h hp (loaded_fusionProblem h hg) engine answer hclique

/-- The answer that completes a move covers what it has chosen: the repair has found all cliques
    feasible. -/
theorem Moved.covers {o : Cut.Oracle σ} {answer : Cut.Answer} {engine : Cut.Engine σ}
    {t : Certificate} (hm : Moved m o s answer engine t) (h : Certified m s)
    (hp : ∀ v, s.proposal v < m.numLabels) (hg : s.graph.Mirrors m)
    (hfree : (s.fusionProblem m).FreeSet answer.chosen) : answer.Covers (s.fusionProblem m) := by
  intro c hc
  rw [(loaded_fusionProblem h hg).mirrors.length_factors] at hc
  have hclique : m.cliques[c]? = some m.cliques[c] := List.getElem?_eq_getElem hc
  have hexcess := excess_freeSet h hp hg engine hfree hclique
  have hfeasible := hm.feasible c _ hclique
  omega

section

variable {s : Solver Unit τ} {answer : Cut.Answer} {engine : Cut.Engine Unit} {t : Certificate}

/-! ### Moves over the minimum cut -/

/-- What a move is answered is the minimum cut of its fusion problem. -/
theorem answer_eq_minimumCut (h : Certified m s) (hg : s.graph.Mirrors m)
    (hsolved : (Cut.maxFlow.solve (s.fusionProblem m) s.engine.memory).result = .ok answer) :
    answer = Cut.minimumCut (s.fusionProblem m) :=
  Except.ok.inj (hsolved.symm.trans
    (Cut.maxFlow_solve (loaded_fusionProblem h hg).mirrors.wellFormed))

/-- The labels after such an answer. -/
theorem labeling_minimumCut (h : Certified m s) (hg : s.graph.Mirrors m)
    (engine : Cut.Engine Unit) :
    (fused m s engine (Cut.minimumCut (s.fusionProblem m))).labeling
      = fusedLabeling s.labeling s.proposal (Cut.minimumCut (s.fusionProblem m)).chosen :=
  labeling_freeSet h hg engine
    (Cut.minimumCut_freeSet (loaded_fusionProblem h hg).mirrors.wellFormed)

/-- A completed move changes the energy by what the fusion problem gives to the chosen nodes. -/
theorem Moved.energy_sub (hm : Moved m Cut.maxFlow s answer engine t) (h : Certified m s)
    (hp : ∀ v, s.proposal v < m.numLabels) (hg : s.graph.Mirrors m) :
    m.energy (fused m s engine answer).labeling - m.energy s.labeling
      = (s.fusionProblem m).energy answer.chosen - (s.fusionProblem m).energy fun _ => false := by
  obtain ⟨g, hloaded, hproblem⟩ := exists_loaded h hg
  obtain rfl := answer_eq_minimumCut h hg hm.solved
  rw [labeling_minimumCut h hg, ← hproblem, hloaded.energy_sub h.toReady hp]

/-- A completed move does not raise the energy, unless its run has given up on a path. -/
theorem Moved.energy_le (hm : Moved m Cut.maxFlow s answer engine t) (h : Certified m s)
    (hp : ∀ v, s.proposal v < m.numLabels) (hg : s.graph.Mirrors m)
    (hquiet : ∀ sink flow, Event.noCapacity sink flow
      ∉ (Cut.Network.ofGraph (s.fusionProblem m)).saturated.events) :
    m.energy (fused m s engine answer).labeling ≤ m.energy s.labeling := by
  have hgw := (loaded_fusionProblem h hg).mirrors.wellFormed
  have hsub := hm.energy_sub h hp hg
  obtain rfl := answer_eq_minimumCut h hg hm.solved
  have hcovers := hm.covers h hp hg (Cut.minimumCut_freeSet hgw)
  have hle := Cut.minimumCut_energy_le hgw hquiet fun c hc => by
    rw [← Cut.minimumCut_shortfall hgw c]
    exact hcovers c hc
  omega

/-! ### Rounds and runs -/

/-- A completed round does not raise the energy, unless its run has given up on a path. -/
theorem round_energy_le (h : Certified m s) (hg : s.graph.Mirrors m) :
    Quietly (round m Cut.maxFlow) s fun _ s' => m.energy s'.labeling ≤ m.energy s.labeling := by
  obtain ⟨f, strategy, hpropose, hcert, hp, hround⟩ := round_rounds Cut.maxFlow h
  intro fused hok hquiet
  have hrounded := hround.of_ok hok
  generalize (round m Cut.maxFlow s).state = s' at hrounded ⊢
  cases hrounded with
  | stop _ => exact Int.le_refl _
  | move answer engine t hne hm =>
    have hg' : (proposing f strategy s).graph.Mirrors m := hg
    have hgw := (loaded_fusionProblem hcert hg').mirrors.wellFormed
    -- a search that gives up reports it, and the round passes that on
    have hsolve := quiet_of_fusionMove (loadTables_ok hcert hg')
      (quiet_of_round hpropose hne hquiet)
    exact hm.energy_le hcert hp hg' (Cut.not_mem_saturated_events hgw hsolve)

/-- Neither do rounds in a row. -/
theorem rounds_energy_le (patience budget : Nat) (h : Certified m s) (hg : s.graph.Mirrors m) :
    Quietly (rounds m Cut.maxFlow patience budget) s
      fun _ s' => m.energy s'.labeling ≤ m.energy s.labeling := by
  induction budget generalizing s with
  | zero => exact quietly_pure (Int.le_refl _)
  | succ budget ih =>
    unfold rounds
    refine quietly_bind (((round_energy_le h hg).and (round_ends _ h).quietly).mono
      fun fused s₁ h₁ => ?_)
    obtain ⟨hle, hcert, hmirrors⟩ := h₁
    refine quietly_bind (quietly_get ?_)
    split
    · exact quietly_bind (quietly_modify (quietly_pure hle))
    · split
      · exact quietly_bind (quietly_modify (quietly_pure hle))
      · refine quietly_bind ((ih hcert (hmirrors hg)).mono fun more s₂ hle₂ => ?_)
        exact quietly_pure (Int.le_trans hle₂ hle)

/-- Neither does a run, once the solver has started. -/
theorem iterate_energy_le (h : Sound m s) (hg : OnMirror m s) (budget : Nat) :
    Quietly (iterate m Cut.maxFlow budget) s
      fun _ s' => m.energy s'.labeling ≤ m.energy (ensureStarted m s).state.labeling := by
  unfold iterate
  refine quietly_bind ((ensureStarted_ends h).with_outcome.quietly.mono fun _ s₁ h₁ => ?_)
  obtain ⟨⟨-, hcert, hmirrors⟩, -, rfl⟩ := h₁
  refine quietly_bind (quietly_get ?_)
  split
  · exact quietly_pure (Int.le_refl _)
  · have hcert₁ : Certified m { (ensureStarted m s).state with phase := .iterating } :=
      hcert.of_eq rfl rfl rfl rfl
    unfold run
    refine quietly_bind (quietly_modify (quietly_bind (quietly_get (quietly_bind
      ((rounds_energy_le _ budget hcert₁ (hmirrors hg)).mono fun done s₂ hle => ?_)))))
    -- what ends a run leaves the labels alone
    refine quietly_bind ((conclude_ends s₂).quietly.mono fun _ s₃ h₃ => ?_)
    subst h₃
    exact quietly_bind (quietly_get (quietly_pure hle))

/-! ### Reached states -/

/-- From every state that a new solver reaches over the minimum cut, whatever the fusion tables, a
    completed round does not raise the energy, and neither does a completed run, unless a search
    has given up on a path. -/
theorem reached_energy_le {engine : Cut.Engine Unit} (hfits : engine.graph.Fits m)
    {config : Config} (hr : Reached m Cut.maxFlow (Solver.new engine config) s) :
    (s.phase ≠ .uninitialized → Quietly (round m Cut.maxFlow) s
      fun _ s' => m.energy s'.labeling ≤ m.energy s.labeling) ∧
    ∀ budget, Quietly (iterate m Cut.maxFlow budget) s
      fun _ s' => m.energy s'.labeling ≤ m.energy (ensureStarted m s).state.labeling := by
  obtain ⟨hsound, hg⟩ := hr.sound_onMirror hfits
  exact ⟨fun hphase => round_energy_le (hsound hphase) (hg.2 hphase),
    iterate_energy_le hsound hg⟩

/-- Four variables in cliques whose fusions are not submodular. -/
def tangled : Model :=
  .ofRows 2 #[#[0, 0], #[0, 0], #[0, 3], #[0, 0]]
    [.lookup [0, 1, 2, 3] 2 #[0, 0, 1, 0, 0, 0, 1, 0, 1, 1, 1, 1, 0, 0, 1, 0],
      .lookup [3, 0] 2 #[0, 0, 1, 0], .lookup [1] 2 #[1, 0]]

/-- The second iteration finds all its paths, and takes back what the first one has cost. -/
theorem reached_energy_le_tangled :
    let s₀ : Solver Unit Unit := Solver.new ⟨Cut.Graph.empty, ()⟩ .standard
    s₀.graph.Fits tangled ∧ ∃ s, Reached tangled Cut.maxFlow s₀ s ∧ s.phase ≠ .uninitialized ∧
      (round tangled Cut.maxFlow s).result = .ok true ∧ Quiet (round tangled Cut.maxFlow s) ∧
      tangled.energy (round tangled Cut.maxFlow s).state.labeling ≤ tangled.energy s.labeling := by
  intro s₀
  have hfits : s₀.graph.Fits tangled := Cut.Graph.fits_empty tangled
  have hok : (iterate tangled Cut.maxFlow 1 s₀).result = .ok ⟨1, .exhausted⟩ := by decide +kernel
  have hphase : (iterate tangled Cut.maxFlow 1 s₀).state.phase = .exhausted := by decide +kernel
  have hround : (round tangled Cut.maxFlow (iterate tangled Cut.maxFlow 1 s₀).state).result
      = .ok true := by decide +kernel
  have hquiet : Quiet (round tangled Cut.maxFlow (iterate tangled Cut.maxFlow 1 s₀).state) := by
    decide +kernel
  have hr : Reached tangled Cut.maxFlow s₀ (iterate tangled Cut.maxFlow 1 s₀).state :=
    Reached.here.iterate 1 hok
  generalize (iterate tangled Cut.maxFlow 1 s₀).state = s at hr hphase hround hquiet
  have hstarted : s.phase ≠ .uninitialized := by
    rw [hphase]
    simp
  exact ⟨hfits, s, hr, hstarted, hround, hquiet,
    (reached_energy_le hfits hr).1 hstarted true hround hquiet⟩

/-- The first iteration gives up on a path, completes all the same, and raises the energy. -/
theorem round_raises_energy :
    let s₀ : Solver Unit Unit := Solver.new ⟨Cut.Graph.empty, ()⟩ .standard
    tangled.Valid ∧ tangled.NonNegative ∧ s₀.graph.Fits tangled ∧
      ∃ s, Reached tangled Cut.maxFlow s₀ s ∧ s.phase ≠ .uninitialized ∧
        (round tangled Cut.maxFlow s).result = .ok true ∧ tangled.energy s.labeling = 1 ∧
        tangled.energy (round tangled Cut.maxFlow s).state.labeling = 3 := by
  intro s₀
  have hvalid : tangled.Valid := ⟨Model.fault?_eq_none_iff.mp (by decide), by decide, by decide⟩
  have hnonneg : tangled.NonNegative := by
    intro clique hclique x _
    simp only [tangled, Model.ofRows, List.mem_cons, List.not_mem_nil, or_false] at hclique
    obtain rfl | rfl | rfl := hclique <;> exact Model.energyAt_lookup_nonneg _ _ (by decide) x
  have hok : (iterate tangled Cut.maxFlow 0 s₀).result = .ok ⟨0, .exhausted⟩ := by decide +kernel
  have hphase : (iterate tangled Cut.maxFlow 0 s₀).state.phase = .exhausted := by decide +kernel
  have hround : (round tangled Cut.maxFlow (iterate tangled Cut.maxFlow 0 s₀).state).result
      = .ok true := by decide +kernel
  have hbefore : tangled.energy (iterate tangled Cut.maxFlow 0 s₀).state.labeling = 1 := by
    decide +kernel
  have hafter : tangled.energy
      (round tangled Cut.maxFlow (iterate tangled Cut.maxFlow 0 s₀).state).state.labeling = 3 := by
    decide +kernel
  exact ⟨hvalid, hnonneg, Cut.Graph.fits_empty tangled, _, Reached.here.iterate 0 hok,
    by rw [hphase]; simp, hround, hbefore, hafter⟩

end

end Solver

end FusionMove
