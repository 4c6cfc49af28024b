import FusionMove.Proofs.Solver.Load

namespace FusionMove

/-!
# Fusion moves over any oracle

Whatever an oracle chooses and whatever potentials it reports, an iteration that does not fault
leaves the duals tight at the new labeling: potentials enter the duals together with the heights,
and the repair makes the clique sums exact again.

* `Solver.get_absorb` — where the potentials of an answer stand, `Solver.ready_fused` — any answer
  leaves a solver ready;
* `Solver.repair_ends` — a repair makes all duals tight, or refuses a clique;
* `Solver.fusionMove_moves`, `Solver.round_rounds` — what a move and a round do, and why they fault;
* `Solver.ends_rounds_succ`, `Solver.ends_iterate` — how rounds and runs are made up;
* `Solver.round_ends`, `Solver.rounds_ends` — rounds keep a solver certified, and blame the duals only
  if the oracle does.
-/

open FusionMove.Action
open scoped CoreArithmetic

namespace Cut

/-- Some call of the oracle faults in this way. -/
def Oracle.Raises {σ : Type} (o : Oracle σ) (fault : Fault) : Prop :=
  ∃ g memory, (o.solve g memory).result = .error fault

/-- A recorded answer keeps a graph a mirror of the model. -/
theorem Graph.Mirrors.record {m : Model} {g : Graph} (h : g.Mirrors m) (a : Answer) :
    (g.record a).Mirrors m := by
  have hmembers : (g.record a).factors.map (·.members) = g.factors.map (·.members) := by
    apply List.ext_getElem?
    intro c
    simp [Graph.record, List.getElem?_zipIdx, Option.map_map, Function.comp_def]
  exact ⟨(numNodes_record g a).trans h.numNodes_eq, hmembers.trans h.members_eq,
    wellFormed_record h.wellFormed a⟩

/-- Asking an oracle records its answer in the graph. -/
theorem Oracle.run_ends {σ : Type} (o : Oracle σ) (e : Engine σ) :
    Ends o.run e
      (fun answer e' => (o.solve e.graph e.memory).result = .ok answer ∧
        e'.graph = e.graph.record answer)
      (fun fault _ => (o.solve e.graph e.memory).result = .error fault) := by
  unfold Oracle.run
  refine ends_bind (ends_get (ends_bind (ends_zoom (ends_iff.mpr ⟨fun answer hanswer => ?_,
    fun fault hfault => hfault⟩))))
  exact ends_bind (ends_modify (ends_pure ⟨hanswer, rfl⟩))

end Cut

namespace Solver

variable {σ τ : Type} {m : Model} {s : Solver σ τ}

/-! ### Taking an answer over -/

/-- Spreads over several cliques, at labels in range. -/
private theorem absorb_list (hw : m.WellFormed) {x : Nat → Nat} (hx : ∀ v, x v < m.numLabels)
    (potential : Nat → Nat → Int) (ps : List (Clique × Nat))
    (hps : ∀ p ∈ ps, m.cliques[p.2]? = some p.1) {t : Certificate} (hs : t.Shaped m)
    (hc : t.Consistent m) :
    (ps.foldl (fun t p => t.spread p.2 p.1.nodes x (potential p.2)) t).Shaped m ∧
      (ps.foldl (fun t p => t.spread p.2 p.1.nodes x (potential p.2)) t).Consistent m ∧
      ∀ c i l, m.HasCell c i l →
        (ps.foldl (fun t p => t.spread p.2 p.1.nodes x (potential p.2)) t).dual.get c i l
          = t.dual.get c i l + (ps.map fun p =>
              if p.2 = c ∧ x (p.1.nodes.getD i 0) = l then potential p.2 i else 0).sum := by
  induction ps generalizing t with
  | nil => exact ⟨hs, hc, fun c i l _ => by simp⟩
  | cons p ps ih =>
    have hp := hps p (by simp)
    obtain ⟨h1, h2, h3⟩ := ih (fun q hq => hps q (by simp [hq])) (hs.spread hp hx (potential p.2))
      (hs.consistent_spread hc hw hp hx (potential p.2))
    refine ⟨h1, h2, fun c i l hcell => ?_⟩
    rw [List.foldl_cons, h3 c i l hcell, hs.get_spread hp hx _ hcell, List.map_cons, List.sum_cons,
      Int.add_assoc]

/-- The duals after taking an answer over: the potentials stand at the proposed labels. -/
theorem get_absorb (h : Ready m s) (hp : ∀ v, s.proposal v < m.numLabels)
    (potential : Nat → Nat → Int) {c i l : Nat} {clique : Clique}
    (hclique : m.cliques[c]? = some clique) (hi : i < clique.size) (hl : l < m.numLabels) :
    (absorb m potential s).certificate.dual.get c i l = s.certificate.dual.get c i l
      + if s.proposal (clique.nodes.getD i 0) = l then potential c i else 0 := by
  obtain ⟨-, -, hget⟩ := absorb_list h.wellFormed hp potential m.cliques.zipIdx
    (fun p hp => List.mem_zipIdx_iff_getElem?.mp hp) h.shaped h.consistent
  -- of all spreads only the one over clique `c` touches its duals
  have hterm : ∀ d < m.cliques.length, ((m.cliques[d]?.map fun k =>
      if d = c ∧ s.proposal (k.nodes.getD i 0) = l then potential d i else 0).getD 0)
      = if c = d then (if s.proposal (clique.nodes.getD i 0) = l then potential d i else 0)
        else 0 := by
    intro d hd
    by_cases hcd : c = d
    · subst hcd
      rw [hclique]
      simp
    · have hdc : ¬ d = c := fun heq => hcd heq.symm
      rw [List.getElem?_eq_getElem hd]
      simp [hcd, hdc]
  have hlt : c < m.cliques.length := (List.getElem?_eq_some_iff.mp hclique).1
  show (m.cliques.zipIdx.foldl (fun t p => t.spread p.2 p.1.nodes s.proposal (potential p.2))
    s.certificate).dual.get c i l = _
  rw [hget c i l ⟨clique, hclique, hi, hl⟩, sum_map_zipIdx m.cliques fun k d =>
    if d = c ∧ s.proposal (k.nodes.getD i 0) = l then potential d i else 0, sumTo_congr hterm,
    sumTo_single _ _ fun d => if s.proposal (clique.nodes.getD i 0) = l then potential d i else 0,
    if_pos hlt]

/-- The solver after the answer of an oracle with the memory it ends in. -/
def fused (m : Model) (s : Solver σ τ) (engine : Cut.Engine σ) (answer : Cut.Answer) :
    Solver σ τ :=
  absorb m answer.potential (switch answer.chosen { s.loadCosts with engine := engine })

/-- Any answer leaves a ready solver ready. -/
theorem ready_fused (h : Ready m s) (hp : ∀ v, s.proposal v < m.numLabels)
    (engine : Cut.Engine σ) (answer : Cut.Answer) : Ready m (fused m s engine answer) := by
  obtain ⟨hshaped, hconsistent, -⟩ := absorb_list h.wellFormed hp answer.potential
    m.cliques.zipIdx (fun p hp => List.mem_zipIdx_iff_getElem?.mp hp) h.shaped h.consistent
  refine ⟨h.wellFormed, h.numLabels_pos, h.numLabels_eq, ?_, h.proposed_size,
    getD_lt_of_forall_mem h.numLabels_pos fun l hl => ?_, hshaped, hconsistent⟩
  · show (Array.ofFn fun v : Fin s.labels.size => _).size = m.numVars
    rw [Array.size_ofFn, h.labels_size]
  · -- a label is the proposed one or the one before
    obtain ⟨v, rfl⟩ := Array.mem_ofFn.mp hl
    show (if answer.chosen v then s.proposal v else s.labeling v) < m.numLabels
    split
    · exact hp v
    · exact h.labeling_lt v

theorem fuse_ends (m : Model) (o : Cut.Oracle σ) (s : Solver σ τ) :
    Ends (fuse m o) s
      (fun switched s' => ∃ answer engine, s' = fused m s engine answer ∧
        switched = s.switches answer.chosen ∧
        (o.solve s.loadCosts.graph s.engine.memory).result = .ok answer ∧
        engine.graph = s.loadCosts.graph.record answer)
      (fun fault s' => (o.solve s.loadCosts.graph s.engine.memory).result = .error fault ∧
        ∃ engine, s' = { s.loadCosts with engine := engine }) := by
  unfold fuse
  refine ends_bind (ends_modify (ends_bind ?_))
  refine ends_zoom ((o.run_ends s.loadCosts.engine).mono (fun answer engine hanswer => ?_)
    fun fault engine hfault => ⟨hfault, engine, rfl⟩)
  refine ends_bind (ends_get (ends_bind (ends_record (ends_bind (ends_modify (ends_bind
    (ends_modify (ends_pure ?_))))))))
  exact ⟨answer, engine, rfl, rfl, hanswer.1, hanswer.2⟩

/-! ### Repairing the duals -/

theorem checkFeasible_ends (c : Nat) (clique : Clique) (energy dualSum : Int)
    (s : Solver σ τ) :
    Ends (checkFeasible c clique energy dualSum) s (fun _ s' => s' = s ∧ energy ≤ dualSum)
      (fun fault _ => (∃ table, fault = .dualInfeasible c energy dualSum (energy - dualSum) table) ∧
        dualSum < energy) := by
  unfold checkFeasible
  refine ends_bind (ends_get ?_)
  split
  · rename_i hlt
    exact ends_bind (ends_record (ends_fail ⟨⟨_, rfl⟩, hlt⟩))
  · rename_i hle
    exact ends_pure ⟨rfl, Int.not_lt.mp hle⟩

/-- How a clique with this energy and this sum of its duals is refused. -/
inductive CliqueRefused (c : Nat) (energy dualSum : Int) : Fault → Prop
  | negative : energy < 0 → CliqueRefused c energy dualSum (.negativeEnergy c energy)
  | infeasible (table : List Int) : dualSum < energy →
      CliqueRefused c energy dualSum (.dualInfeasible c energy dualSum (energy - dualSum) table)

theorem CliqueRefused.blames {c : Nat} {energy dualSum : Int} {fault : Fault}
    (h : CliqueRefused c energy dualSum fault) : fault.blamesTightness = false := by
  cases h <;> rfl

/-- Repairing the duals of a clique splits what they exceed its energy by. -/
theorem repairClique_ends (c : Nat) (clique : Clique) (s : Solver σ τ) :
    Ends (repairClique c clique) s
      (fun _ s' => s' = spreadEvenly c clique (clique.energyAt s.labeling
          - s.certificate.dualSum c (clique.labelsAt s.labeling)) s ∧
        clique.energyAt s.labeling ≤ s.certificate.dualSum c (clique.labelsAt s.labeling))
      (fun fault _ => CliqueRefused c (clique.energyAt s.labeling)
        (s.certificate.dualSum c (clique.labelsAt s.labeling)) fault) := by
  unfold repairClique
  refine ends_bind (ends_get (ends_bind ((checkEnergy_ends c _ _ s).mono (fun _ s₁ h₁ => ?_)
    fun fault _ hf => ?_)))
  · obtain ⟨rfl, -⟩ := h₁
    refine ends_bind ((checkFeasible_ends c clique _ _ _).mono (fun _ s₂ h₂ => ?_)
      fun fault _ hf => ?_)
    · obtain ⟨rfl, hle⟩ := h₂
      exact ends_modify ⟨rfl, hle⟩
    · obtain ⟨⟨table, rfl⟩, hlt⟩ := hf
      exact .infeasible table hlt
  · obtain ⟨-, rfl, hneg⟩ := hf
    exact .negative hneg

/-- A repair makes all duals tight.  It faults only if a clique has an energy below zero or above its
    duals. -/
theorem repair_ends (h : Ready m s) :
    Ends (repair m) s
      (fun _ s' => ∃ t, s' = { s with certificate := t } ∧
        Certificate.TightUpTo m s.labeling s.certificate m.numCliques t ∧
        ∀ c clique, m.cliques[c]? = some clique →
          clique.energyAt s.labeling ≤ s.certificate.dualSum c (clique.labelsAt s.labeling))
      (fun fault _ => ∃ c clique, m.cliques[c]? = some clique ∧
        CliqueRefused c (clique.energyAt s.labeling)
          (s.certificate.dualSum c (clique.labelsAt s.labeling)) fault) := by
  unfold repair
  refine (ends_forEach_zipIdx (I := fun n s' => ∃ t, s' = { s with certificate := t } ∧
    Certificate.TightUpTo m s.labeling s.certificate n t ∧
    ∀ c < n, ∀ clique, m.cliques[c]? = some clique →
      clique.energyAt s.labeling ≤ s.certificate.dualSum c (clique.labelsAt s.labeling))
    (fun n clique hclique s₁ h₁ => ?_)
    ⟨s.certificate, rfl, .zero h.shaped h.consistent _, fun c hc => absurd hc (Nat.not_lt_zero c)⟩
    ).mono_ok fun _ s' h' => ?_
  · obtain ⟨t, rfl, ht, hbelow⟩ := h₁
    -- clique `n` has not been repaired yet, so its dual sum is the one from before the loop
    have hsum := ht.dualSum_eq n clique hclique
    rw [if_neg (Nat.lt_irrefl n)] at hsum
    refine (repairClique_ends n clique _).mono (fun _ s₂ h₂ => ?_) fun fault _ hf => ?_
    · obtain ⟨rfl, hle⟩ := h₂
      refine ⟨_, rfl, ht.succ h.wellFormed h.labeling_lt hclique, fun c hc clique' hclique' => ?_⟩
      rcases Nat.lt_succ_iff_lt_or_eq.mp hc with hlt | rfl
      · exact hbelow c hlt clique' hclique'
      · rw [hclique, Option.some.injEq] at hclique'
        rw [← hclique', ← hsum]
        exact hle
    · refine ⟨n, clique, hclique, ?_⟩
      rw [← hsum]
      exact hf
  · obtain ⟨t, rfl, ht, hall⟩ := h'
    exact ⟨t, rfl, ht, fun c clique hclique =>
      hall c (List.getElem?_eq_some_iff.mp hclique).1 clique hclique⟩

/-! ### Moves -/

/-- What a move has gone through when it is complete: the oracle has given this answer, and the
    repair of the duals has ended in the certificate `t`. -/
structure Moved (m : Model) (o : Cut.Oracle σ) (s : Solver σ τ) (answer : Cut.Answer)
    (engine : Cut.Engine σ) (t : Certificate) : Prop where
  solved : (o.solve (s.fusionProblem m) s.engine.memory).result = .ok answer
  graph_eq : engine.graph = (s.fusionProblem m).record answer
  repaired : Certificate.TightUpTo m (fused m s engine answer).labeling
    (fused m s engine answer).certificate m.numCliques t
  feasible : ∀ c clique, m.cliques[c]? = some clique →
    clique.energyAt (fused m s engine answer).labeling
      ≤ (fused m s engine answer).certificate.dualSum c
          (clique.labelsAt (fused m s engine answer).labeling)

/-- Why a move over tight duals faults. -/
inductive MoveFaults (m : Model) (o : Cut.Oracle σ) (s : Solver σ τ) (fault : Fault) : Prop
  /-- The graph has no room for a table. -/
  | noRoom : fault.blamesTightness = false → ¬ s.graph.Mirrors m → MoveFaults m o s fault
  | oracle : (o.solve (s.fusionProblem m) s.engine.memory).result = .error fault →
      MoveFaults m o s fault
  /-- A clique has an energy below zero, or above its duals. -/
  | clique (answer : Cut.Answer) (engine : Cut.Engine σ) (c : Nat) (clique : Clique) :
      (o.solve (s.fusionProblem m) s.engine.memory).result = .ok answer →
      m.cliques[c]? = some clique →
      CliqueRefused c (clique.energyAt (fused m s engine answer).labeling)
        ((fused m s engine answer).certificate.dualSum c
          (clique.labelsAt (fused m s engine answer).labeling)) fault → MoveFaults m o s fault

/-- What a move does, and why it faults. -/
theorem fusionMove_moves (o : Cut.Oracle σ) (h : Certified m s)
    (hp : ∀ v, s.proposal v < m.numLabels) :
    Ends (fusionMove m o) s
      (fun switched s' => ∃ answer engine t, Moved m o s answer engine t ∧
        switched = s.switches answer.chosen ∧ s' = { fused m s engine answer with certificate := t })
      (fun fault _ => MoveFaults m o s fault) := by
  unfold fusionMove
  refine ends_bind ((loadTables_problem h).mono (fun _ s₁ h₁ => ?_)
    fun fault _ hf => .noRoom hf.1 hf.2)
  obtain ⟨g, rfl, hproblem, -⟩ := h₁
  -- the cut makes the duals loose for a moment, so from here on the solver is ready only
  have hready : Ready m (s.withGraph g) := h.toReady.of_eq rfl rfl rfl rfl
  refine ends_bind ((fuse_ends m o _).mono (fun switched s₂ h₂ => ?_) fun fault _ hf =>
    .oracle (by rw [← hproblem]; exact hf.1))
  obtain ⟨answer, engine, rfl, hswitched, hsolved, hengine⟩ := h₂
  rw [hproblem] at hsolved hengine
  refine ends_bind ((repair_ends (ready_fused hready hp engine answer)).mono (fun _ s₃ h₃ => ?_)
    fun fault _ hf => ?_)
  · obtain ⟨t, rfl, ht, hfeasible⟩ := h₃
    exact ends_pure ⟨answer, engine, t, ⟨hsolved, hengine, ht, hfeasible⟩, hswitched, rfl⟩
  · obtain ⟨c, clique, hclique, hrefused⟩ := hf
    exact .clique answer engine c clique hsolved hclique hrefused

/-- Only the oracle makes a move blame the duals. -/
theorem MoveFaults.raises {o : Cut.Oracle σ} {fault : Fault} (hf : MoveFaults m o s fault)
    (htrue : fault.blamesTightness = true) : o.Raises fault := by
  cases hf with
  | noRoom hfalse _ => exact absurd (hfalse.symm.trans htrue) (by simp)
  | oracle hf => exact ⟨_, _, hf⟩
  | clique _ _ _ _ _ _ hf => exact absurd (hf.blames.symm.trans htrue) (by simp)

/-- A completed move leaves a certified solver. -/
theorem Moved.certified {o : Cut.Oracle σ} {answer : Cut.Answer} {engine : Cut.Engine σ}
    {t : Certificate} (hm : Moved m o s answer engine t) (h : Certified m s)
    (hp : ∀ v, s.proposal v < m.numLabels) :
    Certified m { fused m s engine answer with certificate := t } :=
  ⟨(ready_fused h.toReady hp engine answer).withCertificate hm.repaired.shaped
    hm.repaired.consistent, hm.repaired.tight⟩

/-- A completed move keeps the graph a mirror of the model. -/
theorem Moved.mirrors {o : Cut.Oracle σ} {answer : Cut.Answer} {engine : Cut.Engine σ}
    {t : Certificate} (hm : Moved m o s answer engine t) (h : Certified m s)
    (hg : s.graph.Mirrors m) : engine.graph.Mirrors m := by
  rw [hm.graph_eq]
  exact (loaded_fusionProblem h hg).mirrors.record answer

/-! ### Rounds -/

/-- The solver with a proposal and the strategy that has made it. -/
def proposing (f : Array Nat) (strategy : Strategy τ) (s : Solver σ τ) : Solver σ τ :=
  { s with proposed := f, strategy := strategy }

/-- What a round does: it stops at a proposal that is the labeling itself, or else makes a move and
    counts it. -/
inductive Rounded (m : Model) (o : Cut.Oracle σ) (s : Solver σ τ) (f : Array Nat)
    (strategy : Strategy τ) : Bool → Solver σ τ → Prop
  | stop : f = s.labels → Rounded m o s f strategy false (proposing f strategy s)
  | move (answer : Cut.Answer) (engine : Cut.Engine σ) (t : Certificate) : f ≠ s.labels →
      Moved m o (proposing f strategy s) answer engine t →
      Rounded m o s f strategy true (tally ((proposing f strategy s).switches answer.chosen)
        { fused m (proposing f strategy s) engine answer with certificate := t })

/-- A strategy that has an answer proposes it. -/
theorem propose_apply {f : Array Nat} {strategy : Strategy τ}
    (h : s.strategy.propose s.iteration s.certificate.heights s.labels s.proposed
      = .ok (f, strategy)) : propose s = ⟨.ok (), proposing f strategy s, []⟩ := by
  unfold propose
  rw [bind_apply_ok (get_apply s), h]
  rfl

/-- Counting and reporting an iteration does not fault. -/
theorem ends_complete {switched : Nat} {Q : Unit → Solver σ τ → Prop} {E : Fault → Solver σ τ → Prop}
    (h : Q () (tally switched s)) : Ends (complete m switched) s Q E := by
  unfold complete
  exact ends_bind (ends_modify (ends_bind (ends_get (ends_record h))))

/-- A round whose strategy has an answer ends where the move to it does. -/
theorem ends_round {o : Cut.Oracle σ} {f : Array Nat} {strategy : Strategy τ}
    {Q : Bool → Solver σ τ → Prop} {E : Fault → Solver σ τ → Prop}
    (hpropose : s.strategy.propose s.iteration s.certificate.heights s.labels s.proposed
      = .ok (f, strategy)) (hstop : f = s.labels → Q false (proposing f strategy s))
    (hmove : f ≠ s.labels → Ends (fusionMove m o) (proposing f strategy s)
      (fun switched s' => Q true (tally switched s')) E) : Ends (round m o) s Q E := by
  have happly := propose_apply hpropose
  unfold round
  refine ends_bind ((ends_of_ok (congrArg Outcome.result happly)).mono_ok fun _ s₁ h₁ => ?_)
  obtain ⟨-, rfl⟩ := h₁
  rw [happly]
  refine ends_bind (ends_get ?_)
  show Ends (if f = s.labels then _ else _) _ _ _
  split
  · rename_i heq
    exact ends_pure (hstop heq)
  · rename_i hne
    exact ends_bind ((hmove hne).mono_ok fun switched s₂ h₂ =>
      ends_bind (ends_complete (ends_pure h₂)))

/-- What a round does, and why it faults. -/
theorem round_rounds (o : Cut.Oracle σ) (h : Certified m s) :
    ∃ f strategy,
      s.strategy.propose s.iteration s.certificate.heights s.labels s.proposed = .ok (f, strategy) ∧
      Certified m (proposing f strategy s) ∧ (∀ v, (proposing f strategy s).proposal v < m.numLabels) ∧
      Ends (round m o) s (Rounded m o s f strategy)
        (fun fault _ => f ≠ s.labels ∧ MoveFaults m o (proposing f strategy s) fault) := by
  obtain ⟨⟨⟩, -, f, strategy, hpropose, hstate, hready, hp⟩ := (propose_ends h.toReady).exists_ok
  rw [hstate] at hready hp
  have hcert : Certified m (proposing f strategy s) := ⟨hready, h.tight⟩
  refine ⟨f, strategy, hpropose, hcert, hp, ends_round hpropose .stop fun hne => ?_⟩
  refine (fusionMove_moves o hcert hp).mono (fun switched s₂ h₂ => ?_) fun fault _ hf => ⟨hne, hf⟩
  obtain ⟨answer, engine, t, hm, rfl, rfl⟩ := h₂
  exact .move answer engine t hne hm

/-- A round keeps a solver certified. -/
theorem round_ends (o : Cut.Oracle σ) (h : Certified m s) :
    Ends (round m o) s
      (fun _ s' => Certified m s' ∧ (s.graph.Mirrors m → s'.graph.Mirrors m))
      (fun fault _ => fault.blamesTightness = true → o.Raises fault) := by
  obtain ⟨f, strategy, -, hcert, hp, hround⟩ := round_rounds o h
  refine hround.mono (fun fused s' h' => ?_) fun fault _ hf => hf.2.raises
  cases h' with
  | stop _ => exact ⟨hcert, id⟩
  | move answer engine t _ hm =>
    exact ⟨(hm.certified hcert hp).of_eq rfl rfl rfl rfl, fun hg => hm.mirrors hcert hg⟩

/-- The phase in which a run ends, given the one that its last round has left. -/
def endPhase (phase : Phase) : Phase :=
  if phase = .converged then .converged else .exhausted

theorem endPhase_ne (phase : Phase) : endPhase phase ≠ .uninitialized := by
  unfold endPhase
  split <;> simp

/-- What ends a run changes nothing but the phase. -/
theorem conclude_ends (s : Solver σ τ) :
    Ends conclude s (fun _ s' => s' = { s with phase := endPhase s.phase })
      (fun _ _ => False) := by
  unfold conclude endPhase
  refine ends_bind (ends_get ?_)
  split
  · rename_i hphase
    refine ends_record ?_
    rw [← hphase]
  · exact ends_bind (ends_modify (ends_record rfl))

/-- A run is a start, and rounds unless the solver has converged. -/
theorem ends_iterate {o : Cut.Oracle σ} {budget : Nat} {Q : Report → Solver σ τ → Prop}
    {E : Fault → Solver σ τ → Prop}
    (h : Ends (ensureStarted m) s (fun _ s₁ => (s₁.phase = .converged → Q ⟨0, .converged⟩ s₁) ∧
      (s₁.phase ≠ .converged → Ends (rounds m o (s₁.strategy.patience s₁.numLabels) budget)
        { s₁ with phase := .iterating } (fun done s₂ => Q ⟨done, endPhase s₂.phase⟩
          { s₂ with phase := endPhase s₂.phase }) E)) E) :
    Ends (iterate m o budget) s Q E := by
  unfold iterate
  refine ends_bind (h.mono_ok fun _ s₁ h₁ => ends_bind (ends_get ?_))
  split
  · rename_i hphase
    exact ends_pure (h₁.1 hphase)
  · rename_i hphase
    unfold run
    refine ends_bind (ends_modify (ends_bind (ends_get (ends_bind
      ((h₁.2 hphase).mono_ok fun done s₂ h₂ => ?_)))))
    refine ends_bind ((conclude_ends s₂).mono (fun _ s₃ h₃ => ?_) fun _ _ hf => hf.elim)
    subst h₃
    exact ends_bind (ends_get (ends_pure h₂))

/-- Rounds are a round, after which they stop converged or go on. -/
theorem ends_rounds_succ {o : Cut.Oracle σ} {patience budget : Nat} {Q : Nat → Solver σ τ → Prop}
    {E : Fault → Solver σ τ → Prop}
    (h : Ends (round m o) s (fun fused s₁ =>
      (fused = false → Q 0 { s₁ with phase := .converged }) ∧
      (fused = true → patience ≤ s₁.idle → Q 1 { s₁ with phase := .converged }) ∧
      (fused = true → s₁.idle < patience →
        Ends (rounds m o patience budget) s₁ (fun more s₂ => Q (more + 1) s₂) E)) E) :
    Ends (rounds m o patience (budget + 1)) s Q E := by
  unfold rounds
  refine ends_bind (h.mono_ok fun fused s₁ h₁ => ends_bind (ends_get ?_))
  obtain ⟨hstop, hgiveUp, hgoOn⟩ := h₁
  cases fused with
  | false => exact ends_bind (ends_modify (ends_pure (hstop rfl)))
  | true =>
    rw [if_neg (by decide)]
    split
    · rename_i hidle
      exact ends_bind (ends_modify (ends_pure (hgiveUp rfl hidle)))
    · rename_i hidle
      exact ends_bind ((hgoOn rfl (Nat.not_le.mp hidle)).mono_ok fun more s₂ h₂ => ends_pure h₂)

/-- Rounds keep a solver certified. -/
theorem rounds_ends (o : Cut.Oracle σ) (patience budget : Nat) (h : Certified m s) :
    Ends (rounds m o patience budget) s
      (fun _ s' => Certified m s' ∧ (s.graph.Mirrors m → s'.graph.Mirrors m))
      (fun fault _ => fault.blamesTightness = true → o.Raises fault) := by
  induction budget generalizing s with
  | zero => exact ends_pure ⟨h, id⟩
  | succ budget ih =>
    refine ends_rounds_succ ((round_ends o h).mono_ok fun fused s₁ h₁ => ?_)
    obtain ⟨hcert, hmirrors⟩ := h₁
    have hconverged : Certified m { s₁ with phase := Phase.converged } :=
      hcert.of_eq rfl rfl rfl rfl
    exact ⟨fun _ => ⟨hconverged, hmirrors⟩, fun _ _ => ⟨hconverged, hmirrors⟩, fun _ _ =>
      (ih hcert).mono_ok fun more s₂ h₂ => ⟨h₂.1, fun hg => h₂.2 (hmirrors hg)⟩⟩

/-- A run reports the phase in which it leaves the solver. -/
theorem iterate_phase (o : Cut.Oracle σ) (budget : Nat) (s : Solver σ τ) :
    Ends (iterate m o budget) s (fun report s' => s'.phase = report.phase) fun _ _ => True := by
  exact ends_iterate ((ends_true _ s).mono_ok fun _ s₁ _ => ⟨id, fun _ =>
    (ends_true _ _).mono_ok fun _ _ _ => rfl⟩)

/-- Rounds in a row end with the budget, if they do not converge before. -/
theorem rounds_spend (m : Model) (o : Cut.Oracle σ) (patience budget : Nat) (s : Solver σ τ) :
    Ends (rounds m o patience budget) s (fun done s' => s'.phase = .converged ∨ done = budget)
      fun _ _ => True := by
  induction budget generalizing s with
  | zero => exact ends_pure (.inr rfl)
  | succ budget ih =>
    exact ends_rounds_succ ((ends_true _ s).mono_ok fun _ s₁ _ => ⟨fun _ => .inl rfl,
      fun _ _ => .inl rfl, fun _ _ => (ih s₁).mono_ok fun more s₂ h₂ =>
        h₂.imp_right fun heq => by rw [heq]⟩)

/-- So does a run. -/
theorem iterate_spends (m : Model) (o : Cut.Oracle σ) (budget : Nat) (s : Solver σ τ) :
    Ends (iterate m o budget) s
      (fun report _ => report.phase = .converged ∨ report.iterations = budget) fun _ _ => True :=
  ends_iterate ((ends_true _ s).mono_ok fun _ _ _ => ⟨fun _ => .inl rfl, fun _ =>
    (rounds_spend m o _ budget _).mono_ok fun _ _ h => h.imp_left fun heq => if_pos heq⟩)

end Solver

end FusionMove
