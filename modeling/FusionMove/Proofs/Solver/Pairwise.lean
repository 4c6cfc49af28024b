import FusionMove.Proofs.Solver.Termination

namespace FusionMove

/-!
# Pairwise models

Over cliques of one or two members nothing goes wrong, whatever their energies as long as none is
below zero: every fusion problem has factors of one or two members, so its minimum cut goes down
(`Cut.descending_of_pairwise`).  The cut need not be the cheapest one, but no path is given up, no
clique is left above its duals, and every switch takes the energy down.

* `Solver.round_quiet`, `Solver.iterate_quiet` — rounds over minimum cuts that go down give no
  warning: only the search for a path could, and no other step warns at all;
* `Model.unaryFloor` — the sum of the cheapest unary costs, below which no energy goes;
* `Solver.reached_pairwise` — what a pairwise model is sure of.
-/

open FusionMove.Action
open scoped CoreArithmetic

/-! ### Steps that give no warning -/

/-- Finding a minimum cut that goes down gives no warning. -/
theorem Cut.quiet_maxFlow {g : Graph} (hcut : g.Descending) : Quiet (maxFlow.solve g ()) := by
  refine quiet_bind (silent_require _ _ ()) fun _ _ => quiet_bind hcut.quiet fun _ _ => ?_
  exact silent_bind (silent_record (by simp [Event.level])) (fun _ => silent_pure _) _

namespace Solver

variable {σ τ : Type} {m : Model} {s : Solver σ τ}

theorem silent_checkEnergy (c : Nat) (labels : List Nat) (energy : Int) :
    Silent (checkEnergy c labels energy : Action (Solver σ τ) Unit) := by
  unfold checkEnergy
  split
  · exact silent_bind (silent_record (by simp [Event.level])) fun _ => silent_fail _
  · exact silent_pure ()

theorem silent_checkModel (m : Model) : Silent (checkModel m : Action (Solver σ τ) Unit) := by
  unfold checkModel
  split
  · exact silent_pure ()
  · exact silent_bind (silent_record (by simp [Event.level])) fun _ => silent_fail _

theorem silent_checkCounts (m : Model) (g : Cut.Graph) : Silent (Cut.checkCounts m g) := by
  unfold Cut.checkCounts
  split
  · exact silent_pure ()
  · exact silent_bind (silent_record (by simp [Event.level])) fun _ => silent_fail _

theorem silent_addBlankFactor (members : List Nat) : Silent (Cut.addBlankFactor members) := by
  unfold Cut.addBlankFactor
  exact silent_bind silent_get fun _ => silent_bind (silent_ofExcept _) fun _ => silent_modify _

theorem silent_fit (m : Model) : Silent (Cut.fit m) := by
  unfold Cut.fit
  have hrest : Silent (do let g ← Action.get; Cut.checkCounts m g) :=
    silent_bind silent_get (silent_checkCounts m)
  refine silent_bind silent_get fun g => ?_
  dsimp only
  split
  · unfold Cut.grow
    exact silent_bind (silent_bind (silent_modify _) fun _ =>
      silent_forEach fun c => silent_addBlankFactor c.nodes) fun _ => hrest
  · exact hrest

theorem silent_buildTables (m : Model) : Silent (buildTables m : Action (Solver σ τ) Unit) := by
  unfold buildTables
  exact silent_bind (silent_require _ _) fun _ => silent_bind (silent_checkModel m) fun _ =>
    silent_bind (silent_zoom (silent_fit m)) fun _ => silent_bind (silent_require _ _) fun _ =>
      silent_modify _

theorem silent_seed (c : Nat) (clique : Clique) :
    Silent (seed c clique : Action (Solver σ τ) Unit) := by
  unfold seed
  exact silent_bind silent_get fun _ => silent_bind (silent_checkEnergy _ _ _) fun _ =>
    silent_modify _

theorem silent_ensureStarted (m : Model) :
    Silent (ensureStarted m : Action (Solver σ τ) Unit) := by
  unfold ensureStarted
  refine silent_bind silent_get fun s => ?_
  split
  · unfold start
    exact silent_bind (silent_buildTables m) fun _ => silent_bind (silent_modify _) fun _ =>
      silent_bind (silent_forEach fun p => silent_seed _ _) fun _ =>
        silent_bind (silent_modify _) fun _ => silent_bind silent_get fun _ =>
          silent_record (by simp [Event.level])
  · exact silent_pure ()

theorem silent_loadTables (m : Model) : Silent (loadTables m : Action (Solver σ τ) Unit) := by
  unfold loadTables
  refine silent_bind (silent_modify _) fun _ => silent_forEach fun p => ?_
  unfold loadTable checkResidual
  refine silent_bind silent_get fun _ => silent_bind (silent_ofExcept _) fun table =>
    silent_bind (silent_modify _) fun _ => silent_bind silent_get fun _ => ?_
  dsimp only
  split
  · exact silent_bind (silent_record (by simp [Event.level])) fun _ => silent_fail _
  · exact silent_pure ()

theorem silent_repair (m : Model) : Silent (repair m : Action (Solver σ τ) Unit) := by
  unfold repair
  refine silent_forEach fun p => ?_
  unfold repairClique checkFeasible
  refine silent_bind silent_get fun _ => silent_bind (silent_checkEnergy _ _ _) fun _ =>
    silent_bind (silent_bind silent_get fun _ => ?_) fun _ => silent_modify _
  split
  · exact silent_bind (silent_record (by simp [Event.level])) fun _ => silent_fail _
  · exact silent_pure ()

theorem silent_complete (m : Model) (switched : Nat) :
    Silent (complete m switched : Action (Solver σ τ) Unit) := by
  unfold complete
  exact silent_bind (silent_modify _) fun _ => silent_bind silent_get fun _ =>
    silent_record (by simp [Event.level])

theorem silent_conclude : Silent (conclude : Action (Solver σ τ) Unit) := by
  unfold conclude
  refine silent_bind silent_get fun _ => ?_
  split
  · exact silent_record (by simp [Event.level])
  · exact silent_bind (silent_modify _) fun _ => silent_record (by simp [Event.level])

/-- A move is quiet if the oracle is. -/
theorem fuse_quiet {o : Cut.Oracle σ} (h : Quiet (o.solve s.loadCosts.graph s.engine.memory)) :
    Quiet (fuse m o s) := by
  have hrun : Quiet (o.run s.loadCosts.engine) := by
    unfold Cut.Oracle.run
    exact quiet_bind (silent_get _) fun engine hengine => quiet_bind
      (by obtain rfl := Except.ok.inj hengine; exact h) fun _ _ =>
        silent_bind (silent_modify _) (fun _ => silent_pure _) _
  unfold fuse
  refine quiet_bind (silent_modify _ s) fun _ _ => quiet_bind hrun fun _ _ => ?_
  exact silent_bind silent_get (fun _ => silent_bind (silent_record (by simp [Event.level]))
    fun _ => silent_bind (silent_modify _) fun _ => silent_bind (silent_modify _) fun _ =>
      silent_pure _) _

/-! ### Rounds and runs -/

section

variable {s : Solver Unit τ}

/-- A round over a minimum cut that goes down gives no warning. -/
theorem round_quiet (h : Certified m s) (hmeets : s.MeetsDescending m) :
    Quiet (round m Cut.maxFlow s) := by
  obtain ⟨f, strategy, hpropose, -, -, -⟩ := round_rounds Cut.maxFlow h
  have happly := propose_apply hpropose
  refine quiet_bind (by rw [happly]; exact silent_pure () s) fun _ _ => ?_
  rw [happly]
  refine quiet_bind (silent_get _) fun s₁ hs₁ => ?_
  obtain rfl := Except.ok.inj hs₁
  show Quiet ((if f = s.labels then _ else _ : Action (Solver Unit τ) Bool) _)
  split
  · exact silent_pure _ _
  · rename_i hne
    have hcut := hmeets f strategy hpropose hne
    -- of the steps of a move, only the oracle could warn
    have hmove : Quiet (fusionMove m Cut.maxFlow (proposing f strategy s)) :=
      quiet_bind (silent_loadTables m _) fun _ _ => quiet_bind
        (fuse_quiet (Cut.quiet_maxFlow hcut)) fun _ _ =>
          silent_bind (silent_repair m) (fun _ => silent_pure _) _
    exact quiet_bind hmove fun switched _ =>
      silent_bind (silent_complete m switched) (fun _ => silent_pure _) _

/-- So do rounds in a row. -/
theorem rounds_quiet {patience : Nat} (budget : Nat) (h : Certified m s) (hg : s.graph.Mirrors m)
    (hmeets : ∀ s', Met m Cut.maxFlow patience s s' → s'.MeetsDescending m) :
    Quiet (rounds m Cut.maxFlow patience budget s) := by
  induction budget generalizing s with
  | zero => exact silent_pure 0 s
  | succ budget ih =>
    unfold rounds
    refine quiet_bind (round_quiet h (hmeets s (.here s))) fun fused hfused => ?_
    obtain ⟨hcert, hmirrors⟩ := (round_ends Cut.maxFlow h).of_ok hfused
    refine quiet_bind (silent_get _) fun s₁ hs₁ => ?_
    obtain rfl := Except.ok.inj hs₁
    cases fused with
    | false => exact silent_bind (silent_modify _) (fun _ => silent_pure _) _
    | true =>
      rw [if_neg (by decide)]
      split
      · exact silent_bind (silent_modify _) (fun _ => silent_pure _) _
      · rename_i hidle
        refine quiet_bind (ih hcert (hmirrors hg) fun s' hmet => ?_) fun _ _ => silent_pure _ _
        exact hmeets s' (.next hfused (Nat.not_le.mp hidle) hmet)

/-- So does a run, once the solver has started. -/
theorem iterate_quiet (budget : Nat) (h : Certified m (ensureStarted m s).state)
    (hg : (ensureStarted m s).state.graph.Mirrors m)
    (hmeets : ∀ s', MetByRun m Cut.maxFlow s s' → s'.MeetsDescending m) :
    Quiet (iterate m Cut.maxFlow budget s) := by
  unfold iterate
  refine quiet_bind (silent_ensureStarted m s) fun _ _ => quiet_bind (silent_get _) fun s₁ hs₁ => ?_
  obtain rfl := Except.ok.inj hs₁
  split
  · exact silent_pure _ _
  · rename_i hphase
    unfold run
    refine quiet_bind (silent_modify _ _) fun _ _ => quiet_bind (silent_get _) fun s₂ hs₂ => ?_
    obtain rfl := Except.ok.inj hs₂
    have hcert : Certified m (enter .iterating (ensureStarted m s).state).state :=
      h.of_eq rfl rfl rfl rfl
    refine quiet_bind (rounds_quiet budget hcert hg fun s' hmet => hmeets s' ⟨hphase, hmet⟩)
      fun _ _ => ?_
    exact silent_bind silent_conclude
      (fun _ => silent_bind silent_get fun _ => silent_pure _) _

end

/-! ### A bound below all energies -/

/-- The cheapest label costs no more than any other one. -/
theorem unary_cheapest_le (m : Model) (v : Nat) {l : Nat} (hl : l < m.numLabels) :
    m.unary v (cheapest m v) ≤ m.unary v l := by
  have key : ∀ (ls : List Nat) (best : Nat), ∀ k ∈ best :: ls,
      m.unary v (ls.foldl (fun best l => if m.unary v l < m.unary v best then l else best) best)
        ≤ m.unary v k := by
    intro ls
    induction ls with
    | nil =>
      intro best k hk
      obtain rfl := List.mem_singleton.mp hk
      exact Int.le_refl _
    | cons l ls ih =>
      intro best k hk
      rw [List.foldl_cons]
      -- the better of the two stands for both
      have hhead := ih (if m.unary v l < m.unary v best then l else best) _ List.mem_cons_self
      rcases List.mem_cons.mp hk with rfl | hk
      · exact Int.le_trans hhead (by split <;> omega)
      · rcases List.mem_cons.mp hk with rfl | hk
        · exact Int.le_trans hhead (by split <;> omega)
        · exact ih _ k (List.mem_cons_of_mem _ hk)
  exact key _ 0 l (List.mem_cons_of_mem _ (List.mem_range.mpr hl))

end Solver

namespace Model

variable {m : Model}

/-- The sum of the cheapest unary costs. -/
def unaryFloor (m : Model) : Int :=
  sumTo m.numVars fun v => m.unary v (Solver.cheapest m v)

/-- No energy is below it. -/
theorem unaryFloor_le_energy (hnonneg : m.NonNegative) {y : Nat → Nat}
    (hy : ∀ v, y v < m.numLabels) : m.unaryFloor ≤ m.energy y := by
  have hunary : m.unaryFloor ≤ sumTo m.numVars fun v => m.unary v (y v) :=
    sumTo_le_sumTo fun v _ => Solver.unary_cheapest_le m v (hy v)
  have hcliques : 0 ≤ (m.cliques.map (·.energyAt y)).sum := by
    refine List.sum_nonneg fun e he => ?_
    obtain ⟨clique, hclique, rfl⟩ := List.mem_map.mp he
    exact hnonneg clique hclique y hy
  rw [energy]
  omega

/-- No clique has more than two members. -/
def Pairwise (m : Model) : Prop :=
  ∀ clique ∈ m.cliques, clique.size ≤ 2

instance (m : Model) : Decidable m.Pairwise :=
  inferInstanceAs (Decidable (∀ clique ∈ m.cliques, clique.size ≤ 2))

end Model

/-- The graph of a pairwise model has factors of one or two members. -/
theorem Cut.Graph.Mirrors.pairwise {m : Model} {g : Graph} (h : g.Mirrors m)
    (hpair : m.Pairwise) : g.Pairwise := by
  intro f hf
  have hmem := List.mem_map_of_mem (f := (·.members)) hf
  rw [h.members_eq] at hmem
  obtain ⟨clique, hclique, hnodes⟩ := List.mem_map.mp hmem
  rw [Factor.size, ← hnodes]
  exact hpair clique hclique

namespace Solver

variable {τ : Type} {m : Model} {s : Solver Unit τ}

/-! ### Cliques of one or two members -/

/-- All minimum cuts that a pairwise model meets go down. -/
theorem meetsDescending_of_pairwise (hpair : m.Pairwise) (h : Certified m s)
    (hg : s.graph.Mirrors m) : s.MeetsDescending m := by
  intro f strategy hpropose _
  obtain ⟨f', strategy', hpropose', hcert, -, -⟩ := round_rounds Cut.maxFlow h
  obtain ⟨rfl, rfl⟩ := Prod.mk.inj (Except.ok.inj (hpropose.symm.trans hpropose'))
  have hmirrors := (loaded_fusionProblem hcert hg).mirrors
  exact Cut.descending_of_pairwise hmirrors.wellFormed (hmirrors.pairwise hpair)

/-- Over cliques of one or two members without negative energies, whatever the strategies and the
    snapshots: from every state that a new solver reaches over the minimum cut, a round does not
    fault, gives up on no path, and takes the energy down if it changes a label.  A run does not
    fault either, gives up on no path, and ends converged or with its budget.  Within the budget of
    `solve` it converges, unless the energy has a longer way down than that. -/
theorem reached_pairwise (hvalid : m.Valid) (hnonneg : m.NonNegative) (hpair : m.Pairwise)
    {engine : Cut.Engine Unit} (hfits : engine.graph.Fits m) {config : Config}
    (hr : Reached m Cut.maxFlow (Solver.new engine config) s) :
    (s.phase ≠ .uninitialized →
      (∃ fused, (round m Cut.maxFlow s).result = .ok fused) ∧
      (∀ sink flow, Event.noCapacity sink flow ∉ (round m Cut.maxFlow s).events) ∧
      ((round m Cut.maxFlow s).state.labels ≠ s.labels →
        m.energy (round m Cut.maxFlow s).state.labeling < m.energy s.labeling)) ∧
    (∀ budget, ∃ report, (iterate m Cut.maxFlow budget s).result = .ok report ∧
      (∀ sink flow, Event.noCapacity sink flow ∉ (iterate m Cut.maxFlow budget s).events) ∧
      (report.phase = .converged ∨ report.iterations = budget) ∧
      report.iterations ≤ (ensureStarted m s).state.iterationBound m m.unaryFloor ∧
      ((ensureStarted m s).state.iterationBound m m.unaryFloor ≤ budget →
        report.phase = .converged)) ∧
    ((ensureStarted m s).state.iterationBound m m.unaryFloor ≤ maxBudget →
      (solve m Cut.maxFlow s).state.phase = .converged) := by
  obtain ⟨hstart, hcert, hg⟩ := hr.started hvalid hnonneg hfits
  have hwarns : ∀ {α : Type} {r : Outcome (Solver Unit τ) α}, Quiet r →
      ∀ sink flow, Event.noCapacity sink flow ∉ r.events :=
    fun hquiet sink flow he => hquiet _ he rfl
  have hmeets : ∀ s', MetByRun m Cut.maxFlow s s' → s'.MeetsDescending m := by
    intro s' hmet
    have hentered : Certified m (enter .iterating (ensureStarted m s).state).state :=
      hcert.of_eq rfl rfl rfl rfl
    obtain ⟨hcert', hg'⟩ := hmet.2.certified hentered hg
    exact meetsDescending_of_pairwise hpair hcert' hg'
  have hrun : ∀ budget, Ends (iterate m Cut.maxFlow budget) s
      (fun report _ => report.iterations ≤ (ensureStarted m s).state.iterationBound m m.unaryFloor ∧
        ((ensureStarted m s).state.iterationBound m m.unaryFloor ≤ budget →
          report.phase = .converged)) (fun _ _ => False) := fun budget =>
    iterate_converges_of_cuts budget hnonneg hstart hcert hg hmeets
      fun _ hy => Model.unaryFloor_le_energy hnonneg hy
  refine ⟨fun hphase => ?_, fun budget => ?_, fun hbound => ?_⟩
  · obtain ⟨hsound, hmirror⟩ := hr.sound_onMirror hfits
    have hmeets' := meetsDescending_of_pairwise hpair (hsound hphase) (hmirror.2 hphase)
    obtain ⟨fused, hok, -, -, hdescends⟩ :=
      (round_descends_of_cut (hsound hphase) hnonneg (hmirror.2 hphase) hmeets').exists_ok
    refine ⟨⟨fused, hok⟩, hwarns (round_quiet (hsound hphase) hmeets'), fun hne => ?_⟩
    cases fused with
    | true => exact Int.lt_of_add_one_le (Descends.energy_lt hdescends hne)
    | false => exact absurd hdescends hne
  · obtain ⟨report, hok, hle, hconverged⟩ := (hrun budget).exists_ok
    exact ⟨report, hok, hwarns (iterate_quiet budget hcert hg hmeets),
      (iterate_spends m _ budget s).of_ok hok, hle, hconverged⟩
  · obtain ⟨report, hok, -, hconverged⟩ := (hrun maxBudget).exists_ok
    exact ((iterate_phase _ _ s).of_ok hok).trans (hconverged hbound)

/-- Two variables that cost 3 with the same label and nothing with two, so that no fusion of them is
    submodular, and a callback that proposes different labels for them. -/
theorem reached_pairwise_frustrated :
    let m : Model := .ofRows 2 #[#[0, 1], #[0, 0]]
      [.lookup [0, 1] 2 #[3, 0, 0, 3], .lookup [1] 2 #[1, 0]]
    let s₀ : Solver Unit Unit := Solver.new ⟨Cut.Graph.empty, ()⟩ .standard
    let s := (setStrategy (.custom (fun _ i _ _ => (fun v => v + i, ())) ()) s₀).state
    m.Valid ∧ m.NonNegative ∧ m.Pairwise ∧ s₀.graph.Fits m ∧ Reached m Cut.maxFlow s₀ s ∧
      ¬ m.FusionSubmodular (fun _ => 0) (fun _ => 1) ∧
      (ensureStarted m s).state.iterationBound m m.unaryFloor = 5 ∧
      (solve m Cut.maxFlow s).state.phase = .converged := by
  intro m s₀ s
  have hvalid : m.Valid := ⟨Model.fault?_eq_none_iff.mp (by decide), by decide, by decide⟩
  have hnonneg : m.NonNegative := by
    intro clique hclique x _
    rcases List.mem_cons.mp hclique with rfl | hclique
    · exact Model.energyAt_lookup_nonneg _ _ (by decide) x
    · obtain rfl := List.mem_singleton.mp hclique
      exact Model.energyAt_lookup_nonneg _ _ (by decide) x
  have hpair : m.Pairwise := by decide
  have hfits : s₀.graph.Fits m := Cut.Graph.fits_empty m
  have hr : Reached m Cut.maxFlow s₀ s := Reached.here.setStrategy _
  have hbound : (ensureStarted m s).state.iterationBound m m.unaryFloor = 5 := by decide +kernel
  refine ⟨hvalid, hnonneg, hpair, hfits, hr, by decide, hbound, ?_⟩
  refine (reached_pairwise hvalid hnonneg hpair hfits hr).2.2 ?_
  rw [hbound]
  decide

end Solver

end FusionMove
