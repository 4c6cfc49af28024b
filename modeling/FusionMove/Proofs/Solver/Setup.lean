import FusionMove.Solver.Iterate
import FusionMove.Proofs.Solver.Measure
import FusionMove.Proofs.Solver.Restore

namespace FusionMove

/-!
# Setting up a graph

The first operation of a solver takes over the graph that it was made with.  A graph without factors
is grown; of any other one the numbers of nodes and factors are compared with the model, but not
the members.  So what passes has the right counts, and it mirrors the model iff it fitted before.

* `Cut.Graph.Counts`, `Cut.Graph.Refusal` — which graphs pass, and how the others are refused;
* `Solver.buildTables_counts` — the graph after the tables are built;
* `Solver.iterate_of_refused`, `Solver.lowerBound_of_refused`, `Solver.restore_of_refused` — every
  operation fails with the refusal;
* `Solver.setup_counts` — a new solver gets past its setup iff the counts fit, and then on a graph of
  the model iff the members fit too;
* `Solver.setup_takes_reversed` — a graph with other members that passes.
-/

open FusionMove.Action

namespace Solver

variable {σ τ : Type} {m : Model} {s : Solver σ τ} {fault : Fault}

/-- Tables are built on a graph with the counts of the model.  One without factors is made to mirror
    the model before, and any other one is taken as it is. -/
theorem buildTables_counts (m : Model) (s : Solver σ τ) :
    Ends (buildTables m) s
      (fun _ s' => s.graph.Counts m ∧ (s.graph.factors = [] → s'.graph.Mirrors m) ∧
        (s.graph.factors ≠ [] → s'.graph = s.graph))
      (fun fault _ => m.Valid → ¬ s.graph.Counts m ∧ s.graph.Refusal m fault) := by
  unfold buildTables
  refine ends_bind (ends_require (fun hlabels => ?_) fun hlabels hv => ?_)
  · refine ends_bind ((checkModel_ends m s).mono (fun _ s₁ h₁ => ?_) fun fault s₁ h₁ hv => ?_)
    · obtain ⟨rfl, hw⟩ := h₁
      refine ends_bind (ends_zoom ((Cut.fit_counts hw s₁.graph).mono (fun _ g hg => ?_)
        fun _ _ hfault _ => hfault))
      exact ends_bind (ends_require (fun _ => ends_modify hg)
        fun hcomplete hv => absurd hv.complete hcomplete)
    · exact absurd hv.wellFormed h₁.2.2
  · exact absurd (Nat.pos_iff_ne_zero.mp hv.numLabels_pos) hlabels

/-! ### Refused graphs -/

theorem ensureStarted_of_refused (hphase : s.phase = .uninitialized)
    (h : (buildTables m s).result = .error fault) : (ensureStarted m s).result = .error fault := by
  unfold ensureStarted
  rw [get_bind_apply, if_pos hphase]
  exact bind_result_of_error h _

theorem iterate_of_refused (hphase : s.phase = .uninitialized)
    (h : (buildTables m s).result = .error fault) (o : Cut.Oracle σ) (budget : Nat) :
    (iterate m o budget s).result = .error fault :=
  bind_result_of_error (ensureStarted_of_refused hphase h) _

/-- A lower bound looks at the sizes of the cliques before. -/
theorem lowerBound_of_refused (hphase : s.phase = .uninitialized)
    (h : (buildTables m s).result = .error fault) (hsizes : ∀ clique ∈ m.cliques, clique.size = 3) :
    (lowerBound m s).result = .error fault := by
  have hcheck : checkTriples m s = ⟨.ok (), s, []⟩ := by
    have hnone : (m.cliques.zipIdx.find? fun p => p.1.size ≠ 3) = none :=
      List.find?_eq_none.mpr fun p hp => by simpa using hsizes p.1 (List.fst_mem_of_mem_zipIdx hp)
    rw [checkTriples, hnone]
    rfl
  unfold lowerBound measure
  apply bind_result_of_error
  rw [bind_apply_ok hcheck]
  exact bind_result_of_error (ensureStarted_of_refused hphase h) _

/-- A snapshot is checked for its shape before. -/
theorem restore_of_refused (hphase : s.phase = .uninitialized)
    (h : (buildTables m s).result = .error fault) {p : Snapshot} (hshape : p.shapeFault? m = none) :
    (restore m p s).result = .error fault := by
  have hpass : refuse (p.shapeFault? m) s = ⟨.ok (), s, []⟩ := by
    rw [hshape]
    rfl
  unfold restore
  rw [bind_apply_ok hpass, get_bind_apply]
  dsimp only
  rw [if_pos hphase]
  exact bind_result_of_error h _

/-! ### New solvers -/

/-- What setting up asks of the graph that a new solver is made with.  Over a valid model it succeeds iff
    the graph has no factors and no nodes or one a variable, or has as many nodes and factors as the
    model has variables and cliques.  If it succeeds, the graph has these counts, and it has the members
    of the model in their order iff it had no factors or had them before.  Any other graph is refused
    with one fault by whichever operation comes first, once its own checks are through: by runs and
    `solve`, by lower bounds and by snapshots. -/
theorem setup_counts (m : Model) (o : Cut.Oracle σ) (engine : Cut.Engine σ) (config : Config) :
    let s : Solver σ τ := Solver.new engine config
    (m.Valid → ((buildTables m s).result = .ok () ↔ engine.graph.Counts m)) ∧
    ((buildTables m s).result = .ok () →
      (buildTables m s).state.graph.numNodes = m.numVars ∧
      (buildTables m s).state.graph.factors.length = m.numCliques ∧
      ((buildTables m s).state.graph.Mirrors m ↔ engine.graph.Fits m)) ∧
    (¬ engine.graph.Counts m → ∃ fault, (m.Valid → engine.graph.Refusal m fault) ∧
      (buildTables m s).result = .error fault ∧
      (∀ budget, (iterate m o budget s).result = .error fault) ∧
      ((∀ clique ∈ m.cliques, clique.size = 3) → (lowerBound m s).result = .error fault) ∧
      ∀ p : Snapshot, p.shapeFault? m = none → (restore m p s).result = .error fault) := by
  intro s
  have hbuild := buildTables_counts m s
  refine ⟨fun hv => ⟨fun hok => (hbuild.of_ok hok).1, fun hcounts => ?_⟩, fun hok => ?_,
    fun hnot => ?_⟩
  · obtain ⟨⟨⟩, hok, -⟩ := (hbuild.mono_ok fun _ _ _ => trivial).exists_ok_of
      (Q := fun _ _ => True) fun _ _ hfault => (hfault hv).1 hcounts
    exact hok
  · obtain ⟨hcounts, hgrown, hkept⟩ := hbuild.of_ok hok
    by_cases hempty : engine.graph.factors = []
    · have hmirrors := hgrown hempty
      have hfits : engine.graph.Fits m :=
        .inl ⟨hempty, hcounts.elim (fun h => h.2) fun h => .inr h.2⟩
      exact ⟨hmirrors.numNodes_eq, hmirrors.length_factors, fun _ => hfits, fun _ => hmirrors⟩
    · have hcounts := hcounts.resolve_left fun h => hempty h.1
      rw [hkept hempty]
      exact ⟨hcounts.2, hcounts.1, Cut.Graph.Mirrors.fits,
        fun hfits => hfits.resolve_left fun h => hempty h.1⟩
  · cases hresult : (buildTables m s).result with
    | ok _ => exact absurd (hbuild.of_ok hresult).1 hnot
    | error fault =>
      exact ⟨fault, fun hv => (hbuild.of_error hresult hv).2, rfl,
        iterate_of_refused rfl hresult o, lowerBound_of_refused rfl hresult,
        fun _ => restore_of_refused rfl hresult⟩

/-- Of two graphs with two nodes for a pair of variables, the one with the members in the other order
    passes, and the one that has a node too many is refused. -/
theorem setup_counts_pair :
    let m : Model := .ofRows 2 #[#[1, 0], #[0, 0]] [.lookup [0, 1] 2 #[0, 3, 0, 0]]
    let factor := Cut.Factor.ofTable [1, 0] #[0, 0, 0, 0]
    let reversed : Solver Unit Unit :=
      Solver.new ⟨⟨#[.blank, .blank], [factor], 0, #[]⟩, ()⟩ .standard
    let larger : Solver Unit Unit :=
      Solver.new ⟨⟨#[.blank, .blank, .blank], [factor], 0, #[]⟩, ()⟩ .standard
    m.Valid ∧ (buildTables m reversed).result = .ok () ∧
      (buildTables m reversed).state.graph.numNodes = 2 ∧
      (buildTables m reversed).state.graph.factors.length = 1 ∧
      ∃ fault, larger.graph.Refusal m fault ∧
        ∀ budget, (iterate m Cut.maxFlow budget larger).result = .error fault := by
  intro m factor reversed larger
  have hvalid : m.Valid := ⟨Model.fault?_eq_none_iff.mp (by decide), by decide, by decide⟩
  obtain ⟨hpasses, hsetup, -⟩ := setup_counts m Cut.maxFlow reversed.engine .standard
  obtain ⟨-, -, hrefused⟩ := setup_counts m Cut.maxFlow larger.engine .standard
  have hok : (buildTables m reversed).result = .ok () := (hpasses hvalid).mpr (by decide)
  obtain ⟨hnodes, hfactors, -⟩ := hsetup hok
  obtain ⟨fault, hrefusal, -, hruns, -⟩ := hrefused (by decide)
  exact ⟨hvalid, hok, hnodes, hfactors, fault, hrefusal hvalid, hruns⟩

/-- The members in the other order pass, and the run goes wrong.  Every table is written for the pair
    and read for the reversed pair.  So the run stops at labels of energy 1 in the first iteration, where a
    run on a graph of its own comes to those of energy 0. -/
theorem setup_takes_reversed :
    let m : Model := .ofRows 2 #[#[1, 0], #[0, 0]] [.lookup [0, 1] 2 #[0, 3, 0, 0]]
    let g : Cut.Graph :=
      ⟨#[.blank, .blank], [Cut.Factor.ofTable [1, 0] #[0, 0, 0, 0]], 0, #[]⟩
    let s : Solver Unit Unit := Solver.new ⟨g, ()⟩ .standard
    let s₀ : Solver Unit Unit := Solver.new ⟨Cut.Graph.empty, ()⟩ .standard
    m.Valid ∧ g.WellFormed ∧
      (solve m Cut.maxFlow s).result = .ok ⟨1, .converged⟩ ∧
      (solve m Cut.maxFlow s).state.graph.factors.map (·.members) = [[1, 0]] ∧
      m.cliques.map (·.nodes) = [[0, 1]] ∧
      (solve m Cut.maxFlow s).state.labels = #[0, 0] ∧ m.energy (#[0, 0].getD · 0) = 1 ∧
      (solve m Cut.maxFlow s₀).state.labels = #[1, 1] ∧ m.energy (#[1, 1].getD · 0) = 0 :=
  ⟨⟨Model.fault?_eq_none_iff.mp (by decide), by decide, by decide⟩, by decide, by decide +kernel,
    by decide +kernel, rfl, by decide +kernel, by decide, by decide +kernel, by decide⟩

end Solver

end FusionMove
