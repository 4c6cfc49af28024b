import FusionMove.Proofs.Solver.Resume

namespace FusionMove.Solver

/-!
# What a refused snapshot leaves

A snapshot is checked for its shape before anything is written.  Its content is checked against
tables, so a solver that has none builds them first; they stay when the content is refused, and show
zero labels, zero duals and unary heights where there was nothing.  No other refusal can be seen.

* `LooksLike` — what a caller reads off two states is the same;
* `ShowsFresh` — what a caller reads off fresh tables;
* `restore_refused` — a refusal leaves counters and phase, and what the caller reads unless the
  tables are fresh;
* `restore_refused_shows_tables` — a new solver that refuses a snapshot and no longer looks new.
-/

variable {σ τ : Type} {m : Model} {s : Solver σ τ} {p : Snapshot} {fault : Fault}

/-- A caller reads the same off both states. -/
structure LooksLike (m : Model) (s s' : Solver σ τ) : Prop where
  labels_eq : s'.labels = s.labels
  dual?_eq : ∀ c i l, s'.dual? m c i l = s.dual? m c i l
  height?_eq : ∀ v l, s'.height? v l = s.height? v l
  iteration_eq : s'.iteration = s.iteration
  idle_eq : s'.idle = s.idle
  phase_eq : s'.phase = s.phase

/-- A caller reads label 0 everywhere, no dual, and unary costs as heights. -/
structure ShowsFresh (m : Model) (s : Solver σ τ) : Prop where
  labels_eq : s.labels = Array.replicate m.numVars 0
  dual?_eq : ∀ c i l, m.HasCell c i l → s.dual? m c i l = some 0
  height?_eq : ∀ v < m.numVars, ∀ l < m.numLabels, s.height? v l = some (m.unary v l)

theorem LooksLike.refl (m : Model) (s : Solver σ τ) : LooksLike m s s :=
  ⟨rfl, fun _ _ _ => rfl, fun _ _ => rfl, rfl, rfl, rfl⟩

/-- The graph cannot be seen. -/
theorem looksLike_withGraph (m : Model) (s : Solver σ τ) (g : Cut.Graph) :
    LooksLike m s (s.withGraph g) :=
  ⟨rfl, fun _ _ _ => rfl, fun _ _ => rfl, rfl, rfl, rfl⟩

theorem showsFresh_allocate (hv : m.Valid) (s : Solver σ τ) : ShowsFresh m (allocate m s) where
  labels_eq := rfl
  dual?_eq c i l := by
    rintro ⟨clique, hclique, hi, hl⟩
    rw [(ready_allocate hv s).dual?_eq hclique hi hl]
    simp [allocate, Certificate.initial]
  height?_eq v hvar l hl := by
    rw [(ready_allocate hv s).height?_eq hvar hl]
    exact congrArg some (Heights.get_ofFn m.unary hvar hl)

/-- Counters and phase are those of the solver, also after fresh tables. -/
theorem Refused.counters_eq {s' : Solver σ τ} (hr : Refused m p s fault s') :
    s'.iteration = s.iteration ∧ s'.idle = s.idle ∧ s'.phase = s.phase := by
  cases hr with
  | shape => exact ⟨rfl, rfl, rfl⟩
  | tables => exact ⟨rfl, rfl, rfl⟩
  | content s₁ _ hp => cases hp <;> exact ⟨rfl, rfl, rfl⟩

/-- A solver that has started is left as it was. -/
theorem Refused.eq_of_started {s' : Solver σ τ} (hr : Refused m p s fault s')
    (hphase : s.phase ≠ .uninitialized) : s' = s := by
  cases hr with
  | shape => rfl
  | tables _ hfresh => exact absurd hfresh hphase
  | content s₁ _ hp =>
    cases hp with
    | started => rfl
    | fresh _ hfresh => exact absurd hfresh hphase

/-- Only a refused content can be seen, and only on a solver that had to build its tables for it. -/
theorem Refused.looksLike_or {s' : Solver σ τ} (hr : Refused m p s fault s') :
    LooksLike m s s' ∨ s.phase = .uninitialized ∧ p.shapeFault? m = none ∧
      p.contentFault? m = some fault ∧ ShowsFresh m s' := by
  cases hr with
  | shape => exact .inl (.refl m s)
  | tables g => exact .inl (looksLike_withGraph m s g)
  | content s₁ hshape hp hcontent =>
    cases hp with
    | started => exact .inl (.refl m s)
    | fresh g hphase hv => exact .inr ⟨hphase, hshape, hcontent, showsFresh_allocate hv _⟩

/-- On a graph that fits, a solver without tables shows fresh ones after it refused the content. -/
theorem Refused.showsFresh {s' : Solver σ τ} (hr : Refused m p s fault s')
    (hphase : s.phase = .uninitialized) (hshape : p.shapeFault? m = none) (hv : m.Valid)
    (hfits : s.graph.Fits m) : ShowsFresh m s' := by
  cases hr with
  | shape hfault =>
    rw [hshape] at hfault
    exact absurd hfault (by simp)
  | tables _ _ _ hnot => exact absurd ⟨hv, hfits⟩ hnot
  | content s₁ _ hp =>
    cases hp with
    | started hstarted => exact absurd hphase hstarted
    | fresh g => exact showsFresh_allocate hv _

/-- A refused snapshot leaves counters and phase, and leaves a solver that has started as it was.
    Any other solver looks as before too, unless the snapshot has the dimensions of the model, its
    content was refused, and the caller now reads fresh tables; on a valid model and a graph that
    fits, this is what becomes of every refused content. -/
theorem restore_refused (h : (restore m p s).result = .error fault) :
    let s' := (restore m p s).state
    (s'.iteration = s.iteration ∧ s'.idle = s.idle ∧ s'.phase = s.phase) ∧
    (s.phase ≠ .uninitialized → s' = s) ∧
    (LooksLike m s s' ∨ s.phase = .uninitialized ∧ p.shapeFault? m = none ∧
      p.contentFault? m = some fault ∧ ShowsFresh m s') ∧
    (s.phase = .uninitialized → p.shapeFault? m = none → m.Valid → s.graph.Fits m →
      ShowsFresh m s') := by
  have hr : Refused m p s fault (restore m p s).state := (restore_restores m p s).of_error h
  exact ⟨hr.counters_eq, hr.eq_of_started, hr.looksLike_or, hr.showsFresh⟩

/-- A start that found a negative energy has left the cheapest labels, and a snapshot with a height
    that its duals do not give overwrites them. -/
theorem restore_refused_negative :
    let m : Model := .ofRows 2 #[#[3, 1]] [.affine [0] 0 [-1]]
    let p : Snapshot := ⟨1, 5, 1, .exhausted, 2, #[1], [#[0, -1]], #[3, 8]⟩
    let s₀ : Solver Unit Unit := Solver.new ⟨Cut.Graph.empty, ()⟩ .standard
    let s := (iterate m Cut.maxFlow 1 s₀).state
    s.phase = .uninitialized ∧ s.labels = #[1] ∧
      (restore m p s).result = .error (.snapshotMismatch .heights) ∧
      (restore m p s).state.iteration = s.iteration ∧ (restore m p s).state.idle = s.idle ∧
      (restore m p s).state.phase = s.phase ∧ ShowsFresh m (restore m p s).state := by
  intro m p s₀ s
  have hvalid : m.Valid := ⟨Model.fault?_eq_none_iff.mp (by decide), by decide, by decide⟩
  have hphase : s.phase = .uninitialized := by decide +kernel
  have hlabels : s.labels = #[1] := by decide +kernel
  have hd : Driven m Cut.maxFlow s₀ s₀ := .here
  have hfits : s.graph.Fits m := ((hd.iterate 1).onMirror hvalid.wellFormed
    ⟨Cut.Graph.fits_empty m, fun hne => absurd rfl hne⟩).1
  have hfault : (restore m p s).result = .error (.snapshotMismatch .heights) := by decide +kernel
  have hshape : p.shapeFault? m = none := by decide +kernel
  obtain ⟨⟨hiteration, hidle, hphase'⟩, -, -, hfresh⟩ := restore_refused hfault
  exact ⟨hphase, hlabels, hfault, hiteration, hidle, hphase', hfresh hphase hshape hvalid hfits⟩

/-- A new solver refuses a snapshot, for a height that its duals do not give.  It had nothing to show,
    and now shows a label, a dual and a height. -/
theorem restore_refused_shows_tables :
    let m : Model := .ofRows 2 #[#[3, 4]] [.affine [0] 2 [1]]
    let p : Snapshot := ⟨1, 5, 1, .exhausted, 2, #[1], [#[0, 3]], #[3, 8]⟩
    let s : Solver Unit Unit := Solver.new ⟨Cut.Graph.empty, ()⟩ .standard
    (restore m p s).result = .error (.snapshotMismatch .heights) ∧
      (s.labels = #[] ∧ s.dual? m 0 0 1 = none ∧ s.height? 0 1 = none) ∧
      (restore m p s).state.labels = #[0] ∧ (restore m p s).state.dual? m 0 0 1 = some 0 ∧
      (restore m p s).state.height? 0 1 = some 4 ∧ ¬ LooksLike m s (restore m p s).state := by
  intro m p s
  have hlabels : (restore m p s).state.labels = #[0] := by decide +kernel
  refine ⟨by decide +kernel, by decide +kernel, hlabels, by decide +kernel, by decide +kernel,
    fun hlook => ?_⟩
  have hempty : (restore m p s).state.labels = #[] := hlook.labels_eq
  rw [hlabels] at hempty
  exact absurd hempty (by decide)

end FusionMove.Solver
