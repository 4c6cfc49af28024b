import FusionMove.Proofs.Agreement
import FusionMove.Proofs.Cut.Unsolved
import FusionMove.Proofs.Solver.Reached

namespace FusionMove

/-!
# Twins

Two solvers that have started are twins if they differ in nothing but the engine, the proposal of
the last iteration and the configuration.  Twins do the same: every run and every lower bound has
the same result on both, a fault included, and leaves twins.  What they differ in is overwritten
before it is read: the proposal by the next one, the flags, tables and costs of the graph when a
fusion is loaded, and what the last cut has left in the graph by the next cut.

* `Strategy.IgnoresPrevious` — strategies that do not look at the previous proposal, as all but
  callbacks are sure to do;
* `Solver.Twin` — the relation, and `Solver.Loading` — what is added to it while a fusion is loaded;
* `Solver.loadTable_agrees`, `Solver.fuse_agrees`, `Solver.repair_agrees` — the steps of a move;
* `Solver.iterate_agrees`, `Solver.lowerBound_agrees` — runs and lower bounds, each from the agreement of
  what its start leaves (`iterate_agrees_of_start`, `lowerBound_agrees_of_start`).
-/

open FusionMove.Action
open scoped CoreArithmetic

/-! ### Proposals -/

namespace Strategy

variable {τ : Type}

/-- The answer does not depend on the previous proposal. -/
def IgnoresPrevious : Strategy τ → Prop
  | cyclic | steepest => True
  | custom callback _ => ∀ memory iteration current previous previous',
      callback memory iteration current previous = callback memory iteration current previous'

theorem ignoresPrevious_toStrategy (e : Expansion) :
    (e.toStrategy : Strategy τ).IgnoresPrevious := by
  cases e <;> trivial

/-- Previous proposals of one size get one answer from a strategy that ignores them. -/
theorem propose_congr {s : Strategy τ} {previous previous' : Array Nat}
    (hsize : previous'.size = previous.size) (h : previous' = previous ∨ s.IgnoresPrevious)
    (iteration : Nat) (heights : Heights) (current : Array Nat) :
    s.propose iteration heights current previous'
      = s.propose iteration heights current previous := by
  rcases h with rfl | hignores
  · rfl
  · unfold propose
    rw [hsize]
    cases s with
    | cyclic => rfl
    | steepest => rfl
    | custom callback memory =>
      dsimp only
      rw [hignores memory iteration current previous' previous]

end Strategy

namespace Solver

variable {τ : Type} {m : Model} {s t : Solver Unit τ}

/-! ### Twins -/

/-- The solver with another engine, last proposal and configuration. -/
def exchange (s : Solver Unit τ) (engine : Cut.Engine Unit) (proposed : Array Nat)
    (config : Config) : Solver Unit τ :=
  { s with engine := engine, proposed := proposed, config := config }

/-- A solver that differs from `s`, which has started, in the engine, the last proposal and the
    configuration.  Both graphs mirror the model, and a strategy that would read the last proposal
    finds the same one. -/
inductive Twin (m : Model) (s : Solver Unit τ) : Solver Unit τ → Prop
  | intro (engine : Cut.Engine Unit) (proposed : Array Nat) (config : Config)
      (started : s.phase ≠ .uninitialized) (left : s.graph.Mirrors m)
      (right : engine.graph.Mirrors m) (size_eq : proposed.size = s.proposed.size)
      (informed : proposed = s.proposed ∨ s.strategy.IgnoresPrevious) :
      Twin m s (s.exchange engine proposed config)

namespace Twin

/-- A solver is its own twin. -/
theorem refl (hphase : s.phase ≠ .uninitialized) (hg : s.graph.Mirrors m) : Twin m s s :=
  .intro s.engine s.proposed s.config hphase hg hg rfl (.inl rfl)

theorem started (h : Twin m s t) : s.phase ≠ .uninitialized := by
  cases h with
  | intro _ _ _ hstarted => exact hstarted

theorem left (h : Twin m s t) : s.graph.Mirrors m := by
  cases h with
  | intro _ _ _ _ hleft => exact hleft

theorem right (h : Twin m s t) : t.graph.Mirrors m := by
  cases h with
  | intro _ _ _ _ _ hright => exact hright

theorem labels_eq (h : Twin m s t) : t.labels = s.labels := by
  cases h; rfl

theorem labeling_eq (h : Twin m s t) : t.labeling = s.labeling :=
  labeling_congr h.labels_eq

theorem certificate_eq (h : Twin m s t) : t.certificate = s.certificate := by
  cases h; rfl

theorem numLabels_eq (h : Twin m s t) : t.numLabels = s.numLabels := by
  cases h; rfl

theorem idle_eq (h : Twin m s t) : t.idle = s.idle := by
  cases h; rfl

theorem phase_eq (h : Twin m s t) : t.phase = s.phase := by
  cases h; rfl

theorem strategy_eq (h : Twin m s t) : t.strategy = s.strategy := by
  cases h; rfl

/-- Twins have one snapshot. -/
theorem capture_eq (h : Twin m s t) : Snapshot.capture t = Snapshot.capture s := by
  cases h; rfl

/-- A change that neither reads nor writes what twins differ in leaves twins. -/
theorem map (h : Twin m s t) {f : Solver Unit τ → Solver Unit τ}
    (hf : ∀ engine config,
      f (s.exchange engine t.proposed config) = (f s).exchange engine t.proposed config)
    (hself : f s = (f s).exchange s.engine s.proposed s.config)
    (hstrategy : (f s).strategy = s.strategy) (hphase : (f s).phase ≠ .uninitialized) :
    Twin m (f s) (f t) := by
  have hengine : (f s).engine = s.engine := by
    rw [hself]
    rfl
  have hproposed : (f s).proposed = s.proposed := by
    rw [hself]
    rfl
  cases h with
  | intro engine proposed config _ hleft hright hsize hinformed =>
    rw [show f (s.exchange engine proposed config) = _ from hf engine config]
    refine .intro engine proposed config hphase ?_ hright ?_ ?_
    · rw [graph, hengine]
      exact hleft
    · rw [hproposed]
      exact hsize
    · rw [hproposed, hstrategy]
      exact hinformed

/-- Other graphs that mirror the model leave twins. -/
theorem withGraph (h : Twin m s t) {g g' : Cut.Graph} (hg : g.Mirrors m) (hg' : g'.Mirrors m) :
    Twin m (s.withGraph g) (t.withGraph g') := by
  cases h with
  | intro engine proposed config hphase hleft hright hsize hinformed =>
    exact .intro { engine with graph := g' } proposed config hphase hg hg' hsize hinformed

end Twin

/-- The same proposed labels are the same proposal. -/
theorem proposal_congr (h : t.proposed = s.proposed) : t.proposal = s.proposal := by
  ext v
  rw [proposal, proposal, h]

/-- A change that neither reads nor writes what twins differ in, made in both. -/
theorem modify_agrees (h : Twin m s t) {f : Solver Unit τ → Solver Unit τ}
    (hf : ∀ engine config,
      f (s.exchange engine t.proposed config) = (f s).exchange engine t.proposed config)
    (hself : f s = (f s).exchange s.engine s.proposed s.config)
    (hstrategy : (f s).strategy = s.strategy) (hphase : (f s).phase ≠ .uninitialized) :
    Agree (modify f) (modify f) s t (fun _ => Twin m) (Twin m) :=
  agree_modify (h.map hf hself hstrategy hphase)

/-! ### Loading a fusion -/

/-- Twins propose the same. -/
theorem propose_agrees (h : Twin m s t) :
    Agree propose propose s t (fun _ s' t' => Twin m s' t' ∧ t'.proposed = s'.proposed)
      (Twin m) := by
  unfold propose
  refine agree_get_bind ?_
  have heq : t.strategy.propose t.iteration t.certificate.heights t.labels t.proposed
      = s.strategy.propose s.iteration s.certificate.heights s.labels s.proposed := by
    cases h with
    | intro _ _ _ _ _ _ hsize hinformed => exact Strategy.propose_congr hsize hinformed _ _ _
  rw [heq]
  refine agree_bind (agree_ofExcept (fun answer _ => ?_) fun _ _ => h)
  refine agree_modify ⟨?_, rfl⟩
  cases h with
  | intro engine _ config hphase hleft hright _ _ =>
    exact .intro engine answer.1 config hphase hleft hright rfl (.inl rfl)

/-- Twins with one proposal, whose graphs have the same flags and the same first `n` tables. -/
structure Loading (m : Model) (n : Nat) (s t : Solver Unit τ) : Prop where
  twin : Twin m s t
  proposed_eq : t.proposed = s.proposed
  fixed_eq : t.graph.fixed = s.graph.fixed
  table_eq : ∀ c < n, t.graph.factors[c]?.map (·.table) = s.graph.factors[c]?.map (·.table)

/-- The residual table does not depend on what the room for it holds. -/
theorem residualTable_congr (hw : m.WellFormed) {c : Nat} {clique : Clique}
    (hclique : m.cliques[c]? = some clique) (cert : Certificate) (x f : Nat → Nat)
    {room room' : Array Int} (hroom : room.size = 2 ^ clique.size)
    (hroom' : room'.size = 2 ^ clique.size) :
    residualTable cert c clique x f room' = residualTable cert c clique x f room := by
  obtain ⟨table, hok, hsize, hentry⟩ :=
    residualTable_eq_ok hw hclique cert x f (Nat.le_of_eq hroom.symm)
  obtain ⟨table', hok', hsize', hentry'⟩ :=
    residualTable_eq_ok hw hclique cert x f (Nat.le_of_eq hroom'.symm)
  rw [hok, hok', Except.ok.injEq]
  refine Array.ext (by omega) fun mask hmask' hmask => ?_
  have h := hentry mask (by omega)
  rw [← hentry' mask (by omega)] at h
  simpa [Array.getD_eq_getD_getElem?, hmask, hmask'] using h.symm

/-- Loading one more table. -/
theorem loadTable_agrees (hw : m.WellFormed) {n : Nat} {clique : Clique}
    (hclique : m.cliques[n]? = some clique) (h : Loading m n s t) :
    Agree (loadTable n clique) (loadTable n clique) s t (fun _ => Loading m (n + 1)) (Twin m) := by
  obtain ⟨f, hf, -, hfsize⟩ := h.twin.left.exists_factor hclique
  obtain ⟨f', hf', -, hfsize'⟩ := h.twin.right.exists_factor hclique
  have hproposal : t.proposal = s.proposal := proposal_congr h.proposed_eq
  unfold loadTable
  refine agree_get_bind ?_
  dsimp only
  rw [hf, hf', h.twin.certificate_eq, h.twin.labeling_eq, hproposal, Option.map_some,
    Option.map_some, Option.getD_some, Option.getD_some,
    residualTable_congr hw hclique _ _ _ hfsize hfsize']
  refine agree_bind (agree_ofExcept (fun table htable => ?_) fun _ _ => h.twin)
  have htsize : table.size = 2 ^ clique.size := by
    obtain ⟨table', hok, hsize, -⟩ := residualTable_eq_ok hw hclique s.certificate s.labeling
      s.proposal (Nat.le_of_eq hfsize.symm)
    rw [← Except.ok.inj (hok.symm.trans htable), hsize, hfsize]
  -- both graphs have the new table, and no other one has changed
  have hnext : Loading m (n + 1) (s.withGraph (s.graph.setTable n table))
      (t.withGraph (t.graph.setTable n table)) := by
    refine ⟨h.twin.withGraph (mirrors_setTable h.twin.left hclique htsize)
      (mirrors_setTable h.twin.right hclique htsize), h.proposed_eq, h.fixed_eq, fun c hc => ?_⟩
    show (t.graph.setTable n table).factors[c]?.map _
      = (s.graph.setTable n table).factors[c]?.map _
    rw [factors_setTable, factors_setTable]
    by_cases hcn : n = c
    · subst hcn
      rw [if_pos rfl, if_pos rfl, hf, hf']
      rfl
    · rw [if_neg hcn, if_neg hcn]
      exact h.table_eq c (by omega)
  refine agree_bind (agree_modify ?_)
  unfold checkResidual
  refine agree_get_bind (agree_ite Iff.rfl (fun _ => ?_) fun _ => agree_pure hnext)
  exact agree_bind (agree_record (agree_fail hnext.twin))

/-- Loading all tables. -/
theorem loadTables_agrees (hw : m.WellFormed) (h : Twin m s t) (hp : t.proposed = s.proposed) :
    Agree (loadTables m) (loadTables m) s t (fun _ => Loading m m.numCliques) (Twin m) := by
  unfold loadTables
  refine agree_bind (agree_modify (agree_forEach_zipIdx
    (fun n clique hclique s' t' h' => loadTable_agrees hw hclique h') ?_))
  refine ⟨h.withGraph (mirrors_fixAgreeing h.left) (mirrors_fixAgreeing h.right), hp, ?_,
    fun c hc => absurd hc (Nat.not_lt_zero c)⟩
  show (Array.ofFn fun v : Fin t.labels.size => decide (t.labeling v = t.proposal v))
    = Array.ofFn fun v : Fin s.labels.size => decide (s.labeling v = s.proposal v)
  rw [h.labels_eq, h.labeling_eq, proposal_congr hp]

/-- Once all tables and the costs are loaded, the graphs of twins differ in the last cut only. -/
theorem Loading.unsolved_eq (h : Loading m m.numCliques s t) :
    t.loadCosts.graph.unsolved = s.loadCosts.graph.unsolved := by
  have hdrop : t.drop = s.drop := by
    ext v
    rw [drop, drop, h.twin.certificate_eq, h.twin.labeling_eq, proposal_congr h.proposed_eq]
  have hnodes : t.loadCosts.graph.unsolved.nodes = s.loadCosts.graph.unsolved.nodes := by
    have hsize : t.graph.numNodes = s.graph.numNodes :=
      h.twin.right.numNodes_eq.trans h.twin.left.numNodes_eq.symm
    simp only [loadCosts, withGraph, graph, Cut.Graph.unsolved, hdrop] at hsize ⊢
    refine Array.ext (by simpa using hsize) fun v _ _ => by simp
  have hfactors : t.loadCosts.graph.unsolved.factors = s.loadCosts.graph.unsolved.factors := by
    show t.graph.factors.map (·.unsolved) = s.graph.factors.map (·.unsolved)
    apply List.ext_getElem?
    intro c
    rw [List.getElem?_map, List.getElem?_map]
    by_cases hc : c < m.numCliques
    · have hclique : m.cliques[c]? = some m.cliques[c] := List.getElem?_eq_getElem hc
      obtain ⟨f, hf, hmembers, -⟩ := h.twin.left.exists_factor hclique
      obtain ⟨f', hf', hmembers', -⟩ := h.twin.right.exists_factor hclique
      have htable := h.table_eq c hc
      rw [hf, hf', Option.map_some, Option.map_some, Option.some.injEq] at htable
      rw [hf, hf', Option.map_some, Option.map_some, Cut.Factor.unsolved, Cut.Factor.unsolved,
        hmembers, hmembers', htable]
    · rw [List.getElem?_eq_none (by rw [h.twin.right.length_factors]; omega),
        List.getElem?_eq_none (by rw [h.twin.left.length_factors]; omega)]
  show Cut.Graph.mk t.loadCosts.graph.unsolved.nodes t.loadCosts.graph.unsolved.factors 0 _
    = Cut.Graph.mk s.loadCosts.graph.unsolved.nodes s.loadCosts.graph.unsolved.factors 0 _
  have hfixed : t.loadCosts.graph.fixed = s.loadCosts.graph.fixed := h.fixed_eq
  rw [hnodes, hfactors]
  exact congrArg _ hfixed

/-! ### Taking the answer over -/

/-- Twins with one proposal and one graph. -/
structure Merged (m : Model) (s t : Solver Unit τ) : Prop where
  twin : Twin m s t
  proposed_eq : t.proposed = s.proposed
  graph_eq : t.graph = s.graph

/-- A change that neither reads nor writes engine and configuration keeps twins merged.  It may read
    the proposal, which they share. -/
theorem Merged.map (h : Merged m s t) {f : Solver Unit τ → Solver Unit τ}
    (hf : ∀ engine config,
      f (s.exchange engine s.proposed config) = (f s).exchange engine s.proposed config)
    (hstrategy : (f s).strategy = s.strategy) (hphase : (f s).phase ≠ .uninitialized) :
    Merged m (f s) (f t) := by
  have hself : f s = (f s).exchange s.engine s.proposed s.config := hf s.engine s.config
  obtain ⟨htwin, hproposed, hgraph⟩ := h
  rw [← hproposed] at hf
  have hnext := htwin.map hf hself hstrategy hphase
  have ht : f t = (f s).exchange t.engine t.proposed t.config := by
    cases htwin with
    | intro engine proposed config => exact hf engine config
  refine ⟨hnext, ?_, ?_⟩
  · rw [ht, hself]
    exact hproposed
  · rw [ht, hself]
    exact hgraph

/-- The minimum cut is the same, and so is the graph that it leaves. -/
theorem maxFlow_agrees (h : Loading m m.numCliques s t) :
    Agree (onEngine Cut.maxFlow.run) (onEngine Cut.maxFlow.run) s.loadCosts t.loadCosts
      (fun _ => Merged m) (Twin m) := by
  have hleft := mirrors_loadCosts h.twin.left
  have hright := mirrors_loadCosts h.twin.right
  obtain ⟨hcut, hrecord⟩ := Cut.minimumCut_congr h.unsolved_eq
  obtain ⟨hresult, hstate⟩ := Cut.maxFlow_run hleft.wellFormed
  obtain ⟨hresult', hstate'⟩ := Cut.maxFlow_run hright.wellFormed
  rw [hcut] at hresult'
  rw [hrecord] at hstate'
  generalize Cut.minimumCut s.loadCosts.graph = answer at *
  refine agree_zoom (agree_of_ok hresult hresult' ?_)
  show Merged m { s.loadCosts with engine := (Cut.maxFlow.run ⟨s.loadCosts.graph, ()⟩).state }
    { t.loadCosts with engine := (Cut.maxFlow.run ⟨t.loadCosts.graph, ()⟩).state }
  rw [hstate, hstate']
  exact ⟨h.twin.withGraph (hleft.record answer) (hleft.record answer), h.proposed_eq, rfl⟩

/-- The answer is taken over alike. -/
theorem fuse_agrees (h : Loading m m.numCliques s t) :
    Agree (fuse m Cut.maxFlow) (fuse m Cut.maxFlow) s t (fun _ => Merged m) (Twin m) := by
  unfold fuse
  refine agree_bind (agree_modify (agree_bind ((maxFlow_agrees h).mono_ok
    fun answer s₁ t₁ h₁ => ?_)))
  have hswitched : Merged m (switch answer.chosen s₁) (switch answer.chosen t₁) :=
    h₁.map (fun _ _ => rfl) rfl h₁.twin.started
  have habsorbed : Merged m (absorb m answer.potential (switch answer.chosen s₁))
      (absorb m answer.potential (switch answer.chosen t₁)) :=
    hswitched.map (fun _ _ => rfl) rfl h₁.twin.started
  have hcount : t₁.switches answer.chosen = s₁.switches answer.chosen := by
    rw [switches, switches, h₁.twin.labels_eq, h₁.twin.labeling_eq, proposal_congr h₁.proposed_eq]
  refine agree_get_bind (agree_bind (agree_record (agree_bind (agree_modify
    (agree_bind (agree_modify ?_))))))
  exact agree_of_ok rfl (congrArg Except.ok hcount) habsorbed

/-- Refusing an energy below zero leaves the solvers as they are, whatever relates them. -/
theorem checkEnergy_agrees {Q : Unit → Solver Unit τ → Solver Unit τ → Prop}
    {E : Solver Unit τ → Solver Unit τ → Prop} (hok : Q () s t) (herror : E s t) (c : Nat)
    (labels : List Nat) (energy : Int) :
    Agree (checkEnergy c labels energy) (checkEnergy c labels energy) s t Q E := by
  unfold checkEnergy
  exact agree_ite Iff.rfl (fun _ => agree_bind (agree_record (agree_fail herror)))
    fun _ => agree_pure hok

/-- The fault shows a table, which both graphs have. -/
theorem checkFeasible_agrees (h : Merged m s t) (c : Nat) (clique : Clique)
    (energy dualSum : Int) :
    Agree (checkFeasible c clique energy dualSum) (checkFeasible c clique energy dualSum) s t
      (fun _ => Merged m) (Twin m) := by
  unfold checkFeasible
  refine agree_get_bind (agree_ite Iff.rfl (fun _ => ?_) fun _ => agree_pure h)
  rw [h.graph_eq]
  exact agree_bind (agree_record (agree_fail h.twin))

/-- The duals are repaired alike. -/
theorem repair_agrees (h : Merged m s t) :
    Agree (repair m) (repair m) s t (fun _ => Merged m) (Twin m) := by
  unfold repair
  refine agree_forEach_zipIdx (I := fun _ => Merged m) (fun c clique _ s₁ t₁ h₁ => ?_) h
  unfold repairClique
  refine agree_get_bind ?_
  dsimp only
  rw [h₁.twin.certificate_eq, h₁.twin.labeling_eq]
  refine agree_bind (checkEnergy_agrees ?_ h₁.twin _ _ _)
  refine agree_bind ((checkFeasible_agrees h₁ _ _ _ _).mono_ok fun _ s₃ t₃ h₃ => ?_)
  exact agree_modify (h₃.map (fun _ _ => rfl) rfl h₃.twin.started)

/-! ### Runs -/

theorem fusionMove_agrees (hw : m.WellFormed) (h : Twin m s t) (hp : t.proposed = s.proposed) :
    Agree (fusionMove m Cut.maxFlow) (fusionMove m Cut.maxFlow) s t (fun _ => Twin m)
      (Twin m) := by
  unfold fusionMove
  refine agree_bind ((loadTables_agrees hw h hp).mono_ok fun _ s₁ t₁ h₁ => ?_)
  refine agree_bind ((fuse_agrees h₁).mono_ok fun switched s₂ t₂ h₂ => ?_)
  exact agree_bind ((repair_agrees h₂).mono_ok fun _ s₃ t₃ h₃ => agree_pure h₃.twin)

/-- One round. -/
theorem round_agrees (hw : m.WellFormed) (h : Twin m s t) :
    Agree (round m Cut.maxFlow) (round m Cut.maxFlow) s t (fun _ => Twin m) (Twin m) := by
  unfold round
  refine agree_bind ((propose_agrees h).mono_ok fun _ s₁ t₁ h₁ => ?_)
  obtain ⟨h₁, hp⟩ := h₁
  refine agree_get_bind (agree_ite (by rw [hp, h₁.labels_eq]) (fun _ => agree_pure h₁) fun _ => ?_)
  refine agree_bind ((fusionMove_agrees hw h₁ hp).mono_ok fun switched s₂ t₂ h₂ => ?_)
  -- the energy is traced in one of them perhaps, which is a report
  unfold complete
  refine agree_bind (agree_bind ((modify_agrees h₂ (fun _ _ => rfl) rfl rfl
    h₂.started).mono_ok fun _ s₃ t₃ h₃ => ?_))
  exact agree_get_bind (agree_record (agree_pure h₃))

/-- Entering a phase in both. -/
theorem enter_agrees (h : Twin m s t) {phase : Phase} (hphase : phase ≠ .uninitialized) :
    Agree (enter phase) (enter phase) s t (fun _ => Twin m) (Twin m) :=
  modify_agrees h (fun _ _ => rfl) rfl rfl hphase

/-- Rounds in a row. -/
theorem rounds_agree (hw : m.WellFormed) (patience budget : Nat) (h : Twin m s t) :
    Agree (rounds m Cut.maxFlow patience budget) (rounds m Cut.maxFlow patience budget) s t
      (fun _ => Twin m) (Twin m) := by
  induction budget generalizing s t with
  | zero => exact agree_pure h
  | succ budget ih =>
    unfold rounds
    refine agree_bind ((round_agrees hw h).mono_ok fun fused s₁ t₁ h₁ => ?_)
    have hstop : ∀ done : Nat, Agree (enter .converged >>= fun _ => pure done)
        (enter .converged >>= fun _ => pure done) s₁ t₁ (fun _ => Twin m) (Twin m) :=
      fun done => agree_bind ((enter_agrees h₁ (by simp)).mono_ok fun _ _ _ h₂ => agree_pure h₂)
    refine agree_get_bind (agree_ite Iff.rfl (fun _ => hstop 0) fun _ => ?_)
    refine agree_ite (by rw [h₁.idle_eq]) (fun _ => hstop 1) fun _ => ?_
    exact agree_bind ((ih h₁).mono_ok fun more s₂ t₂ h₂ => agree_pure h₂)

theorem ensureStarted_agrees (h : Twin m s t) :
    Agree (ensureStarted m) (ensureStarted m) s t (fun _ => Twin m) (Twin m) := by
  unfold ensureStarted
  exact agree_get_bind (agree_ite (by rw [h.phase_eq]) (fun hphase => absurd hphase h.started)
    fun _ => agree_pure h)

theorem conclude_agrees (h : Twin m s t) :
    Agree conclude conclude s t (fun _ => Twin m) (Twin m) := by
  unfold conclude
  exact agree_get_bind (agree_ite (by rw [h.phase_eq]) (fun _ => agree_record h) fun _ =>
    agree_bind ((enter_agrees h (by simp)).mono_ok fun _ _ _ h₁ => agree_record h₁))

/-- A run after the start. -/
theorem run_agrees (hw : m.WellFormed) (h : Twin m s t) (budget : Nat) :
    Agree (run m Cut.maxFlow budget) (run m Cut.maxFlow budget) s t (fun _ => Twin m) (Twin m) := by
  unfold run
  refine agree_bind ((enter_agrees h (by simp)).mono_ok fun _ s₁ t₁ h₁ => agree_get_bind ?_)
  rw [h₁.strategy_eq, h₁.numLabels_eq]
  refine agree_bind ((rounds_agree hw _ budget h₁).mono_ok fun done s₂ t₂ h₂ => ?_)
  refine agree_bind ((conclude_agrees h₂).mono_ok fun _ s₃ t₃ h₃ => agree_get_bind ?_)
  rw [h₃.phase_eq]
  exact agree_pure h₃

/-- If two solvers start alike, to become twins, their runs have one result and leave twins. -/
theorem iterate_agrees_of_start {E : Solver Unit τ → Solver Unit τ → Prop}
    (hstart : Agree (ensureStarted m) (ensureStarted m) s t
      (fun _ s' t' => m.WellFormed ∧ Twin m s' t') E)
    (htwin : ∀ s' t', m.WellFormed → Twin m s' t' → E s' t') (budget : Nat) :
    Agree (iterate m Cut.maxFlow budget) (iterate m Cut.maxFlow budget) s t
      (fun _ s' t' => m.WellFormed ∧ Twin m s' t') E := by
  unfold iterate
  refine agree_bind (hstart.mono_ok fun _ s₁ t₁ h₁ => agree_get_bind ?_)
  obtain ⟨hw, h₁⟩ := h₁
  refine agree_ite (by rw [h₁.phase_eq]) (fun _ => agree_pure ⟨hw, h₁⟩) fun _ => ?_
  exact (run_agrees hw h₁ budget).mono (fun _ _ _ h => ⟨hw, h⟩) fun s' t' h => htwin s' t' hw h

/-- Runs of twins have one result, and leave twins. -/
theorem iterate_agrees (hw : m.WellFormed) (h : Twin m s t) (budget : Nat) :
    Agree (iterate m Cut.maxFlow budget) (iterate m Cut.maxFlow budget) s t (fun _ => Twin m)
      (Twin m) :=
  (iterate_agrees_of_start ((ensureStarted_agrees h).mono_ok fun _ _ _ h => ⟨hw, h⟩)
    (fun _ _ _ h => h) budget).mono_ok fun _ _ _ h => h.2

/-! ### Lower bounds -/

theorem settle_agrees (h : Twin m s t) (c : Nat) (clique : Clique) (triple : List Nat)
    (dualSum : Int) :
    Agree (settle c clique triple dualSum) (settle c clique triple dualSum) s t (fun _ => Twin m)
      (Twin m) := by
  unfold settle
  refine agree_get_bind ?_
  dsimp only
  rw [h.certificate_eq, h.labeling_eq]
  split
  · exact modify_agrees h (fun _ _ => rfl) rfl rfl h.started
  · exact agree_ite Iff.rfl (fun _ => agree_bind (agree_record (agree_fail h)))
      fun _ => agree_pure h

section

variable {α : Type} [IntCast α] [Div α] [LE α] [DecidableLE α]

theorem visitTriple_agrees (h : Twin m s t) (c : Nat) (clique : Clique) (ratio : α)
    (triple : List Nat) :
    Agree (visitTriple c clique ratio triple) (visitTriple c clique ratio triple) s t
      (fun _ => Twin m) (Twin m) := by
  unfold visitTriple
  refine agree_get_bind ?_
  dsimp only
  rw [h.certificate_eq]
  refine agree_ite Iff.rfl (fun _ => agree_fail h) fun _ =>
    agree_ite Iff.rfl (fun _ => ?_) fun _ => agree_pure h
  exact agree_bind ((settle_agrees h c clique triple _).mono_ok fun _ s₁ t₁ h₁ => agree_pure h₁)

theorem visitClique_agrees (h : Twin m s t) (ratio : α) (p : Clique × Nat) :
    Agree (visitClique ratio p) (visitClique ratio p) s t (fun _ => Twin m) (Twin m) := by
  unfold visitClique
  refine agree_get_bind ?_
  rw [h.numLabels_eq]
  exact agree_foldlM (fun triple _ ratio s₁ t₁ h₁ => visitTriple_agrees h₁ _ _ ratio triple) h

theorem visits_agree (h : Twin m s t) (ratio : α) :
    Agree (m.cliques.zipIdx.foldlM visitClique ratio) (m.cliques.zipIdx.foldlM visitClique ratio)
      s t (fun _ => Twin m) (Twin m) :=
  agree_foldlM (fun p _ ratio _ _ h₁ => visitClique_agrees h₁ ratio p) h

/-- Refusing a clique leaves the solvers as they are. -/
theorem checkTriples_agrees {E : Solver Unit τ → Solver Unit τ → Prop} (h : E s t) :
    Agree (checkTriples m) (checkTriples m) s t (fun _ s' t' => s' = s ∧ t' = t) E := by
  unfold checkTriples
  split
  · exact agree_pure ⟨rfl, rfl⟩
  · exact agree_fail h

/-- If two solvers start alike, to become twins, what a lower bound is made of is the same. -/
theorem measure_agrees_of_start {E : Solver Unit τ → Solver Unit τ → Prop} (h : E s t)
    (hstart : Agree (ensureStarted m) (ensureStarted m) s t
      (fun _ s' t' => m.WellFormed ∧ Twin m s' t') E)
    (htwin : ∀ s' t', m.WellFormed → Twin m s' t' → E s' t') :
    Agree (measure (α := α) m) (measure m) s t (fun _ s' t' => m.WellFormed ∧ Twin m s' t') E := by
  unfold measure
  refine agree_bind ((checkTriples_agrees h).mono_ok fun _ s₁ t₁ h₁ => ?_)
  obtain ⟨rfl, rfl⟩ := h₁
  refine agree_bind (hstart.mono_ok fun _ s₂ t₂ h₂ => ?_)
  obtain ⟨hw, h₂⟩ := h₂
  refine agree_bind ((visits_agree h₂ _).mono (fun ratio s₃ t₃ h₃ => agree_get_bind ?_)
    fun s' t' h => htwin s' t' hw h)
  rw [h₃.certificate_eq]
  exact agree_pure ⟨hw, h₃⟩

end

/-- So are lower bounds. -/
theorem lowerBound_agrees_of_start {E : Solver Unit τ → Solver Unit τ → Prop} (h : E s t)
    (hstart : Agree (ensureStarted m) (ensureStarted m) s t
      (fun _ s' t' => m.WellFormed ∧ Twin m s' t') E)
    (htwin : ∀ s' t', m.WellFormed → Twin m s' t' → E s' t') :
    Agree (lowerBound m) (lowerBound m) s t (fun _ s' t' => m.WellFormed ∧ Twin m s' t') E := by
  unfold lowerBound
  refine agree_bind ((measure_agrees_of_start h hstart htwin).mono_ok fun b s₁ t₁ h₁ => ?_)
  exact agree_ite Iff.rfl (fun _ => agree_bind (agree_record (agree_pure h₁)))
    fun _ => agree_bind (agree_record (agree_pure h₁))

/-- Lower bounds of twins are the same, and leave twins. -/
theorem lowerBound_agrees (hw : m.WellFormed) (h : Twin m s t) :
    Agree (lowerBound m) (lowerBound m) s t (fun _ => Twin m) (Twin m) :=
  (lowerBound_agrees_of_start h ((ensureStarted_agrees h).mono_ok fun _ _ _ h => ⟨hw, h⟩)
    fun _ _ _ h => h).mono_ok fun _ _ _ h => h.2

end Solver

end FusionMove
