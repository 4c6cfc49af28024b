import FusionMove.Proofs.Solver.Move
import FusionMove.Proofs.Solver.Measure
import FusionMove.Proofs.Solver.Restore

namespace FusionMove

/-!
# Reached states

The states that a solver comes to when every run and every lower bound succeeds, whatever the
oracle answers and whatever snapshots it is given.

* `Solver.Reached` — these states, those between two rounds of a run included;
* `Solver.Sound` — a solver that has started is certified; every operation keeps this;
* `Solver.OnMirror` — the graph fits the model, and mirrors it once the solver has started;
* `Reached.started` — a valid model without negative energies starts from every reached state;
* `Solver.reached_tight` — at every reached state the duals are tight, the energy is the sum of
  the heights, and no operation blames the duals.
-/

open FusionMove.Action

namespace Solver

variable {σ τ : Type} {m : Model} {s : Solver σ τ}

/-- A solver that has started is certified. -/
def Sound (m : Model) (s : Solver σ τ) : Prop :=
  s.phase ≠ .uninitialized → Certified m s

/-- The graph fits the model, and mirrors it once the solver has started. -/
def OnMirror (m : Model) (s : Solver σ τ) : Prop :=
  s.graph.Fits m ∧ (s.phase ≠ .uninitialized → s.graph.Mirrors m)

/-! ### Operations -/

/-- A sound solver has its tables built if it has none, or is as it was. -/
theorem ensureStarted_ends (h : Sound m s) :
    Ends (ensureStarted m) s
      (fun _ s' => s'.phase ≠ .uninitialized ∧ Certified m s' ∧ (OnMirror m s → s'.graph.Mirrors m))
      (fun fault _ => fault.blamesTightness = false ∧
        ¬ (m.Valid ∧ m.NonNegative ∧ OnMirror m s)) := by
  unfold ensureStarted
  refine ends_bind (ends_get ?_)
  split
  · refine (start_ends m s).mono (fun _ s' h' => ?_) fun fault s' h' =>
      ⟨h'.1, fun hall => h'.2.2.2 ⟨hall.1, hall.2.1, hall.2.2.1⟩⟩
    obtain ⟨hphase, hcert, hmirrors⟩ := h'
    exact ⟨by rw [hphase]; simp, hcert, fun hg => hmirrors hg.1⟩
  · rename_i hphase
    exact ends_pure ⟨hphase, h hphase, fun hg => hg.2 hphase⟩

/-- A solver whose graph fits has a graph for the model once it has started, also one whose duals
    are not tight. -/
theorem ensureStarted_mirrors (hg : OnMirror m s) :
    Ends (ensureStarted m) s (fun _ s' => s'.phase ≠ .uninitialized ∧ s'.graph.Mirrors m)
      (fun _ s' => OnMirror m s') := by
  unfold ensureStarted
  refine ends_bind (ends_get ?_)
  split
  · rename_i hphase
    refine (start_ends m s).mono (fun _ s' h' => ⟨by rw [h'.1]; simp, h'.2.2 hg.1⟩)
      fun fault s' h' => ⟨h'.2.2.1 hg.1, fun hne => absurd (h'.2.1.trans hphase) hne⟩
  · rename_i hphase
    exact ends_pure ⟨hphase, hg.2 hphase⟩

/-- Only a valid model is started on. -/
theorem ensureStarted_valid (hv : s.phase ≠ .uninitialized → m.Valid) :
    Ends (ensureStarted m) s (fun _ _ => m.Valid) fun _ _ => True := by
  unfold ensureStarted
  refine ends_bind (ends_get ?_)
  split
  · unfold start
    exact ends_bind ((buildTables_ends m s).mono (fun _ _ h₁ => (ends_true _ _).mono_ok
      fun _ _ _ => h₁.1) fun _ _ _ => trivial)
  · rename_i hphase
    exact ends_pure (hv hphase)

/-- A run keeps a solver sound, and blames the duals only if the oracle does. -/
theorem iterate_ends (o : Cut.Oracle σ) (h : Sound m s) (budget : Nat) :
    Ends (iterate m o budget) s
      (fun _ s' => s'.phase ≠ .uninitialized ∧ Certified m s' ∧ (OnMirror m s → s'.graph.Mirrors m))
      (fun fault _ => fault.blamesTightness = true → o.Raises fault) := by
  refine ends_iterate ((ensureStarted_ends h).mono (fun _ s₁ h₁ => ?_) fun fault _ hf htrue => ?_)
  · obtain ⟨hphase, hcert, hmirrors⟩ := h₁
    refine ⟨fun _ => ⟨hphase, hcert, hmirrors⟩, fun _ => ?_⟩
    have hcert₁ : Certified m { s₁ with phase := Phase.iterating } := hcert.of_eq rfl rfl rfl rfl
    refine (rounds_ends o _ budget hcert₁).mono_ok fun done s₂ h₂ => ?_
    obtain ⟨hcert₂, hmirrors₂⟩ := h₂
    exact ⟨endPhase_ne _, hcert₂.of_eq rfl rfl rfl rfl, fun hg => hmirrors₂ (hmirrors hg)⟩
  · rw [hf.1] at htrue
    exact absurd htrue (by simp)

section

variable {α : Type} [IntCast α] [Div α] [LE α] [DecidableLE α]

/-- Measuring keeps a solver sound, and never blames the duals. -/
theorem measure_ends (h : Sound m s) :
    Ends (measure m) s
      (fun (b : Bound α) s' => s'.phase ≠ .uninitialized ∧ Certified m s' ∧
        (OnMirror m s → s'.graph.Mirrors m) ∧ (∀ clique ∈ m.cliques, clique.size = 3) ∧
        b.objective = s'.certificate.heights.objective)
      (fun fault _ => fault.blamesTightness = false) := by
  unfold measure
  refine ends_bind ((checkTriples_ends m s).mono (fun _ s₁ h₁ => ?_) fun fault _ hf => hf.2)
  obtain ⟨rfl, hsizes⟩ := h₁
  refine ends_bind ((ensureStarted_ends h).mono (fun _ s₂ h₂ => ?_) fun fault _ hf => hf.1)
  obtain ⟨hphase, hcert, hmirrors⟩ := h₂
  refine ends_bind ((ends_foldlM (I := fun _ s' => Revised m s₂ s')
    (fun p hp ratio s₃ h₃ => ?_) hcert.revised).mono_ok fun ratio s₃ h₃ => ?_)
  · obtain ⟨t, rfl, hcert₃⟩ := h₃
    obtain ⟨clique, c⟩ := p
    have hclique := List.mem_zipIdx_iff_getElem?.mp hp
    refine (visitClique_ends hcert₃ hclique (hsizes clique (List.mem_of_getElem? hclique))
      ratio).mono_ok fun _ s₄ h₄ => ?_
    obtain ⟨t', rfl, hcert₄⟩ := h₄
    exact ⟨t', rfl, hcert₄⟩
  · obtain ⟨t, rfl, hcert₃⟩ := h₃
    exact ends_bind (ends_get (ends_pure ⟨hphase, hcert₃, hmirrors, hsizes, rfl⟩))

end

/-- A lower bound keeps a solver sound, and never blames the duals. -/
theorem lowerBound_ends (h : Sound m s) :
    Ends (lowerBound m) s
      (fun _ s' => s'.phase ≠ .uninitialized ∧ Certified m s' ∧ (OnMirror m s → s'.graph.Mirrors m))
      (fun fault _ => fault.blamesTightness = false) := by
  unfold lowerBound
  refine ends_bind ((measure_ends h).mono_ok fun b s' h' => ?_)
  split
  · exact ends_bind (ends_record (ends_pure ⟨h'.1, h'.2.1, h'.2.2.1⟩))
  · exact ends_bind (ends_record (ends_pure ⟨h'.1, h'.2.1, h'.2.2.1⟩))

/-- A snapshot that is accepted leaves a certified solver. -/
theorem certified_load (h : Ready m s) {p : Snapshot} (hfits : p.Fits m)
    (hcontent : (p.certificate m).Tight m p.labeling ∧ (p.certificate m).Consistent m) :
    Certified m (load m p s) :=
  ⟨⟨h.wellFormed, h.numLabels_pos, h.numLabels_eq, hfits.labels_size, h.proposed_size,
    hfits.labeling_lt h.numLabels_pos, hfits.shaped, hcontent.2⟩, hcontent.1⟩

/-- What a snapshot is loaded into is ready, and its graph one for the model. -/
theorem Prepared.ready {s₁ : Solver σ τ} (hp : Prepared m s s₁) (h : Sound m s) : Ready m s₁ := by
  cases hp with
  | started hphase => exact (h hphase).toReady
  | fresh g _ hv _ => exact ready_allocate hv _

theorem Prepared.mirrors {s₁ : Solver σ τ} (hp : Prepared m s s₁) (hg : OnMirror m s) :
    s₁.graph.Mirrors m := by
  cases hp with
  | started hphase => exact hg.2 hphase
  | fresh g _ _ hmirrors => exact hmirrors hg.1

/-- A snapshot is loaded for a valid model only. -/
theorem Prepared.valid {s₁ : Solver σ τ} (hp : Prepared m s s₁)
    (hv : s.phase ≠ .uninitialized → m.Valid) : m.Valid := by
  cases hp with
  | started hphase => exact hv hphase
  | fresh _ _ hvalid _ => exact hvalid

/-- A refused snapshot changes nothing in a solver that has started, and no other one starts. -/
theorem Refused.eq_or_unstarted {p : Snapshot} {fault : Fault} {s' : Solver σ τ}
    (hr : Refused m p s fault s') : s' = s ∨ s'.phase = .uninitialized := by
  cases hr with
  | shape => exact .inl rfl
  | tables g hphase => exact .inr hphase
  | content s₁ _ hp =>
    cases hp with
    | started => exact .inl rfl
    | fresh g hphase => exact .inr hphase

/-- The graph still fits. -/
theorem Refused.onMirror {p : Snapshot} {fault : Fault} {s' : Solver σ τ}
    (hr : Refused m p s fault s') (hg : OnMirror m s) : OnMirror m s' := by
  cases hr with
  | shape => exact hg
  | tables g hphase hfits => exact ⟨hfits hg.1, fun hne => absurd hphase hne⟩
  | content s₁ _ hp => exact ⟨(hp.mirrors hg).fits, fun _ => hp.mirrors hg⟩

/-- A restored solver is sound, and so is one that refused a snapshot. -/
theorem restore_ends (p : Snapshot) (h : Sound m s) :
    Ends (restore m p) s
      (fun _ s' => s'.phase ≠ .uninitialized ∧ Certified m s' ∧ (OnMirror m s → s'.graph.Mirrors m))
      (fun _ s' => Sound m s' ∧ (OnMirror m s → OnMirror m s')) := by
  refine (restore_restores m p s).mono (fun _ s' h' => ?_) fun fault s' hr => ⟨?_, hr.onMirror⟩
  · obtain ⟨hshape, hcontent, s₁, hp, rfl⟩ := h'
    have hfits := Snapshot.shapeFault?_eq_none_iff.mp hshape
    exact ⟨hfits.phase_ne, certified_load (hp.ready h) hfits
      (Snapshot.contentFault?_eq_none_iff.mp hcontent), hp.mirrors⟩
  · rcases hr.eq_or_unstarted with rfl | hphase
    · exact h
    · exact fun hne => absurd hphase hne

/-- A converged solver becomes exhausted, but a solver without tables stays so. -/
theorem phase_ne_of_setStrategy {strategy : Strategy τ}
    (h : (setStrategy strategy s).state.phase ≠ .uninitialized) : s.phase ≠ .uninitialized := by
  intro heq
  refine h ?_
  show (if s.phase = .converged then Phase.exhausted else s.phase) = .uninitialized
  rw [heq, if_neg (by simp)]

theorem setStrategy_onMirror (strategy : Strategy τ) (hg : OnMirror m s) :
    OnMirror m (setStrategy strategy s).state :=
  ⟨hg.1, fun hne => hg.2 (phase_ne_of_setStrategy hne)⟩

/-! ### Reached states -/

/-- The states that a solver comes to from `s₀` when its runs and lower bounds succeed. -/
inductive Reached (m : Model) (o : Cut.Oracle σ) (s₀ : Solver σ τ) : Solver σ τ → Prop
  | here : Reached m o s₀ s₀
  | iterate {s : Solver σ τ} (budget : Nat) {report : Report} : Reached m o s₀ s →
      (Solver.iterate m o budget s).result = .ok report →
      Reached m o s₀ (Solver.iterate m o budget s).state
  | lowerBound {s : Solver σ τ} {bound : Float} : Reached m o s₀ s →
      (Solver.lowerBound m s).result = .ok bound → Reached m o s₀ (Solver.lowerBound m s).state
  /-- A snapshot may be refused. -/
  | restore {s : Solver σ τ} (p : Snapshot) : Reached m o s₀ s →
      Reached m o s₀ (Solver.restore m p s).state
  | setStrategy {s : Solver σ τ} (strategy : Strategy τ) : Reached m o s₀ s →
      Reached m o s₀ (Solver.setStrategy strategy s).state
  /-- A run begins. -/
  | enter {s : Solver σ τ} : Reached m o s₀ s → (ensureStarted m s).result = .ok () →
      Reached m o s₀ (Solver.enter .iterating (ensureStarted m s).state).state
  /-- A run goes on. -/
  | round {s : Solver σ τ} {fused : Bool} : Reached m o s₀ s → s.phase = .iterating →
      (Solver.round m o s).result = .ok fused → Reached m o s₀ (Solver.round m o s).state

variable {o : Cut.Oracle σ} {s₀ : Solver σ τ}

/-- Every operation keeps a solver sound and its graph with the model. -/
theorem Reached.sound (hr : Reached m o s₀ s) (h₀ : Sound m s₀) :
    Sound m s ∧ (OnMirror m s₀ → OnMirror m s) := by
  have hgraph : ∀ {s s' : Solver σ τ}, (OnMirror m s₀ → OnMirror m s) →
      (OnMirror m s → s'.graph.Mirrors m) → OnMirror m s₀ → OnMirror m s' :=
    fun h₁ h₂ hg => ⟨(h₂ (h₁ hg)).fits, fun _ => h₂ (h₁ hg)⟩
  induction hr with
  | here => exact ⟨h₀, id⟩
  | iterate budget _ hok ih =>
    obtain ⟨-, hcert, hmirrors⟩ := (iterate_ends o ih.1 budget).of_ok hok
    exact ⟨fun _ => hcert, hgraph ih.2 hmirrors⟩
  | lowerBound _ hok ih =>
    obtain ⟨-, hcert, hmirrors⟩ := (lowerBound_ends ih.1).of_ok hok
    exact ⟨fun _ => hcert, hgraph ih.2 hmirrors⟩
  | restore p _ ih =>
    have hends := restore_ends p ih.1
    cases hresult : (Solver.restore m p _).result with
    | ok _ =>
      obtain ⟨-, hcert, hmirrors⟩ := hends.of_ok hresult
      exact ⟨fun _ => hcert, hgraph ih.2 hmirrors⟩
    | error fault =>
      obtain ⟨hsound, hmirrors⟩ := hends.of_error hresult
      exact ⟨hsound, fun hg => hmirrors (ih.2 hg)⟩
  | setStrategy strategy _ ih =>
    exact ⟨fun hne => (ih.1 (phase_ne_of_setStrategy hne)).of_eq rfl rfl rfl rfl,
      fun hg => setStrategy_onMirror strategy (ih.2 hg)⟩
  | enter _ hok ih =>
    obtain ⟨-, hcert, hmirrors⟩ := (ensureStarted_ends ih.1).of_ok hok
    exact ⟨fun _ => hcert.of_eq rfl rfl rfl rfl, hgraph ih.2 hmirrors⟩
  | round _ hphase hok ih =>
    rename_i s _ _
    have hne : s.phase ≠ .uninitialized := by
      rw [hphase]
      simp
    obtain ⟨hcert, hmirrors⟩ := (round_ends o (ih.1 hne)).of_ok hok
    exact ⟨fun _ => hcert, hgraph ih.2 fun hg => hmirrors (hg.2 hne)⟩

/-- A solver that has started has a valid model. -/
theorem Reached.valid (hr : Reached m o s₀ s) (h₀ : s₀.phase ≠ .uninitialized → m.Valid) :
    s.phase ≠ .uninitialized → m.Valid := by
  -- what follows a start that succeeds does not matter
  have hstarted : ∀ {α : Type} {s : Solver σ τ} (rest : Unit → Action (Solver σ τ) α),
      (s.phase ≠ .uninitialized → m.Valid) →
      Ends (ensureStarted m >>= rest) s (fun _ _ => m.Valid) fun _ _ => True :=
    fun rest hv => ends_bind ((ensureStarted_valid hv).mono_ok fun _ s₁ hvalid =>
      (ends_true (rest ()) s₁).mono_ok fun _ _ _ => hvalid)
  induction hr with
  | here => exact h₀
  | iterate budget _ hok ih => exact fun _ => (hstarted _ ih).of_ok hok
  | lowerBound _ hok ih =>
    refine fun _ => Ends.of_ok (Q := fun _ _ => m.Valid) (E := fun _ _ => True) ?_ hok
    unfold Solver.lowerBound measure
    refine ends_bind (ends_bind ((checkTriples_ends m _).mono (fun _ s₁ h₁ => ?_)
      fun _ _ _ => trivial))
    obtain ⟨rfl, -⟩ := h₁
    exact (hstarted _ ih).mono_ok fun _ _ hvalid => (ends_true _ _).mono_ok fun _ _ _ => hvalid
  | restore p _ ih =>
    rename_i s _
    have hends := restore_restores m p s
    cases hresult : (Solver.restore m p s).result with
    | ok _ =>
      obtain ⟨-, -, s₁, hp, -⟩ := hends.of_ok hresult
      exact fun _ => hp.valid ih
    | error fault =>
      rcases (hends.of_error hresult).eq_or_unstarted with heq | hphase
      · rw [heq]
        exact ih
      · exact fun hne => absurd hphase hne
  | setStrategy strategy _ ih => exact fun hne => ih (phase_ne_of_setStrategy hne)
  | enter _ hok ih => exact fun _ => (ensureStarted_valid ih).of_ok hok
  | round _ hphase hok ih => exact fun _ => ih (by rw [hphase]; simp)

/-- A solver without tables is sound. -/
theorem sound_new (engine : Cut.Engine σ) (config : Config) :
    Sound m (Solver.new engine config : Solver σ τ) :=
  fun hne => absurd rfl hne

/-- What a new solver reaches on a graph that fits is sound, and on a graph of the model. -/
theorem Reached.sound_onMirror {engine : Cut.Engine σ} (hfits : engine.graph.Fits m)
    {config : Config} (hr : Reached m o (Solver.new engine config) s) :
    Sound m s ∧ OnMirror m s := by
  obtain ⟨hsound, hmirror⟩ := hr.sound (sound_new engine config)
  exact ⟨hsound, hmirror ⟨hfits, fun hne => absurd rfl hne⟩⟩

/-- From there a solver starts, or has started, without a fault. -/
theorem Reached.started (hvalid : m.Valid) (hnonneg : m.NonNegative) {engine : Cut.Engine σ}
    (hfits : engine.graph.Fits m) {config : Config}
    (hr : Reached m o (Solver.new engine config) s) :
    (ensureStarted m s).result = .ok () ∧ Certified m (ensureStarted m s).state ∧
      (ensureStarted m s).state.graph.Mirrors m := by
  obtain ⟨hsound, hg⟩ := hr.sound_onMirror hfits
  obtain ⟨⟨⟩, hok, -, hcert, hmirrors⟩ :=
    (ensureStarted_ends hsound).exists_ok_of fun _ _ hf => hf.2 ⟨hvalid, hnonneg, hg⟩
  exact ⟨hok, hcert, hmirrors hg⟩

/-! ### Tightness over whole runs -/

/-- Over tight duals, the energy is the sum of the heights of the labels. -/
theorem Certified.energy_eq (h : Certified m s) :
    m.energy s.labeling = sumTo m.numVars fun v => s.certificate.heights.get v (s.labeling v) := by
  rw [Certificate.energy_eq h.wellFormed h.consistent h.labeling_lt, h.tight.excess_eq_zero,
    Int.add_zero]

/-- What a solver with tight duals shows: at the current labels the duals of every clique sum to its
    energy, and the heights sum to the energy of the labeling. -/
structure ShowsTight (m : Model) (s : Solver σ τ) : Prop where
  duals : ∀ c clique, m.cliques[c]? = some clique → ∃ dual : Nat → Int,
    (∀ i < clique.size, s.dual? m c i (s.labeling (clique.nodes.getD i 0)) = some (dual i)) ∧
    sumTo clique.size dual = clique.energyAt s.labeling
  heights : ∃ height : Nat → Int,
    (∀ v < m.numVars, s.height? v (s.labeling v) = some (height v)) ∧
    s.currentEnergy? m = some (sumTo m.numVars height)

/-- A certified solver that has started shows tight duals. -/
theorem Certified.showsTight (h : Certified m s) (hphase : s.phase ≠ .uninitialized) :
    s.ShowsTight m where
  duals c clique hclique := by
    refine ⟨fun i => s.certificate.dual.get c i (s.labeling (clique.nodes.getD i 0)),
      fun i hi => h.dual?_eq hclique hi (h.labeling_lt _), ?_⟩
    -- the sum over the members is the dual sum that tightness speaks of
    rw [← Certificate.tight_iff.mp h.tight c clique hclique,
      Certificate.dualSum_labelsAt h.wellFormed hclique]
  heights := by
    refine ⟨fun v => s.certificate.heights.get v (s.labeling v),
      fun v hv => h.height?_eq hv (h.labeling_lt v), ?_⟩
    unfold currentEnergy?
    rw [if_neg hphase, h.energy_eq]

/-- A new solver shows tight duals at every state that it reaches after its start, over any oracle
    and on any graph.  No run from there blames the duals unless the oracle does, and no lower
    bound. -/
theorem reached_tight {engine : Cut.Engine σ} {config : Config}
    (hr : Reached m o (Solver.new engine config) s) :
    (s.phase ≠ .uninitialized → s.ShowsTight m) ∧
    (∀ budget c residual table,
      (iterate m o budget s).result = .error (.tightnessViolated c residual table) →
        o.Raises (.tightnessViolated c residual table)) ∧
    ∀ c residual table,
      (lowerBound m s).result ≠ .error (.tightnessViolated c residual table) := by
  have hsound : Sound m s := (hr.sound (sound_new engine config)).1
  refine ⟨fun hphase => (hsound hphase).showsTight hphase, ?_, ?_⟩
  · intro budget c residual table hfault
    exact (iterate_ends o hsound budget).of_error hfault rfl
  · intro c residual table hfault
    have hblame : (Fault.tightnessViolated c residual table).blamesTightness = false :=
      (lowerBound_ends hsound).of_error hfault
    exact absurd hblame (by simp [Fault.blamesTightness])

/-- Two variables that start apart and come together, over potentials that are all one too
    large. -/
theorem reached_tight_pair :
    let m : Model := .ofRows 2 #[#[0, 3], #[4, 1]] [.potts [0, 1] 6]
    let s₀ : Solver Cut.Skew Unit := Solver.new ⟨Cut.Graph.empty, ⟨1, 0⟩⟩ .standard
    ∃ s, Reached m Cut.skewed s₀ s ∧ s.labels = #[0, 0] ∧ s.ShowsTight m := by
  intro m s₀
  -- one move fuses both variables, and the second round finds nothing better
  have hok : (iterate m Cut.skewed 2 s₀).result = .ok ⟨1, .converged⟩ := by decide +kernel
  have hphase : (iterate m Cut.skewed 2 s₀).state.phase = .converged := by decide +kernel
  have hlabels : (iterate m Cut.skewed 2 s₀).state.labels = #[0, 0] := by decide +kernel
  have hr : Reached m Cut.skewed s₀ (iterate m Cut.skewed 2 s₀).state := Reached.here.iterate 2 hok
  refine ⟨_, hr, hlabels, (reached_tight hr).1 ?_⟩
  rw [hphase]
  simp

end Solver

end FusionMove
