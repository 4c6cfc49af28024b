import FusionMove.Proofs.Solver.Optimal

namespace FusionMove

/-!
# Termination

Why a run over the minimum cut comes to an end, and how soon.

A minimum cut that goes down is empty or strictly better than the empty set, so an iteration either
changes no label or takes the energy down by one at least.  Energies stay above the least one, and
between two changes only so many iterations may be idle: what the energy has left times the
patience, and the idle iterations left, pay for all iterations.

* `Solver.MeetsDescending` — the minimum cut of the next round goes down; it does where the fusions
  are submodular;
* `Solver.Descends` — a round is idle or takes the energy down, `Solver.round_descends` — every
  round over such a cut does one of these;
* `Solver.runway` — what pays for the iterations, `Solver.rounds_converge` — rounds stop in time;
* `Solver.reached_converges` — so does every run over submodular fusions.
-/

open FusionMove.Action

namespace Solver

variable {σ τ : Type} {m : Model} {s : Solver σ τ}

/-! ### What a switch is -/

/-- No label changes iff no chosen variable is proposed another label. -/
theorem switches_eq_zero_iff {chosen : Nat → Bool} :
    s.switches chosen = 0 ↔
      ∀ v < s.labels.size, chosen v = true → s.labeling v = s.proposal v := by
  unfold switches
  simp only [List.countP_eq_zero, List.mem_range, Bool.and_eq_true, not_and, decide_eq_true_eq,
    Decidable.not_not]

/-- An answer that switches no label leaves the labels as they are. -/
theorem labels_fused (m : Model) {answer : Cut.Answer} (h : s.switches answer.chosen = 0)
    (engine : Cut.Engine σ) : (fused m s engine answer).labels = s.labels := by
  show (Array.ofFn fun v : Fin s.labels.size =>
    if answer.chosen v then s.proposal v else s.labeling v) = s.labels
  apply Array.ext (by simp)
  intro v _ hv
  rw [Array.getElem_ofFn]
  have hlabel : s.labeling v = s.labels[v] := by
    rw [labeling, Array.getD_eq_getD_getElem?, Array.getElem?_eq_getElem hv, Option.getD_some]
  split
  · rename_i hchosen
    rw [← switches_eq_zero_iff.mp h v hv hchosen, hlabel]
  · exact hlabel

/-! ### Rounds go down or are idle -/

/-- The proposal of the next round, if it is not the labeling itself, has submodular fusions with
    it. -/
def MeetsSubmodular (m : Model) (s : Solver σ τ) : Prop :=
  ∀ f ∈ (s.strategy.propose s.iteration s.certificate.heights s.labels s.proposed).toOption.map
    (·.1), f ≠ s.labels → m.FusionSubmodular s.labeling (f.getD · 0)

instance (m : Model) (s : Solver σ τ) : Decidable (MeetsSubmodular m s) :=
  inferInstanceAs (Decidable (∀ f ∈ Option.map _ _, _))

/-- An iteration from `s` to `s'` that changes no label and counts as idle, or takes the energy down
    and ends the idle streak. -/
def Descends (m : Model) (s s' : Solver σ τ) : Prop :=
  (s'.labels = s.labels ∧ s'.idle = s.idle + 1) ∨
    (m.energy s'.labeling + 1 ≤ m.energy s.labeling ∧ s'.idle = 0)

/-- An iteration that changes a label takes the energy down. -/
theorem Descends.energy_lt {s' : Solver σ τ} (h : Descends m s s') (hne : s'.labels ≠ s.labels) :
    m.energy s'.labeling + 1 ≤ m.energy s.labeling :=
  (h.resolve_left fun hidle => hne hidle.1).1

section

variable {s : Solver Unit τ}

/-- A proposal that is not the labeling itself makes a fusion problem whose minimum cut goes down. -/
def MeetsDescending (m : Model) (s : Solver Unit τ) : Prop :=
  ∀ f strategy, s.strategy.propose s.iteration s.certificate.heights s.labels s.proposed
    = .ok (f, strategy) → f ≠ s.labels → ((proposing f strategy s).fusionProblem m).Descending

/-- So it does if the fusions are submodular. -/
theorem MeetsSubmodular.descending (hmeets : s.MeetsSubmodular m) (h : Certified m s)
    (hg : s.graph.Mirrors m) : s.MeetsDescending m := by
  intro f strategy hpropose hne
  obtain ⟨f', strategy', hpropose', hcert, -, -⟩ := round_rounds Cut.maxFlow h
  obtain ⟨rfl, rfl⟩ := Prod.mk.inj (Except.ok.inj (hpropose.symm.trans hpropose'))
  refine descending_fusionProblem hcert hg (hmeets f ?_ hne)
  rw [hpropose]
  rfl

/-- A completed move over such a cut goes down if it switches a label. -/
theorem Moved.energy_lt {answer : Cut.Answer} {engine : Cut.Engine Unit} {t : Certificate}
    (hm : Moved m Cut.maxFlow s answer engine t) (h : Certified m s)
    (hp : ∀ v, s.proposal v < m.numLabels) (hg : s.graph.Mirrors m)
    (hcut : (s.fusionProblem m).Descending) (hswitch : s.switches answer.chosen ≠ 0) :
    m.energy (fused m s engine answer).labeling + 1 ≤ m.energy s.labeling := by
  have hdiff := hm.energy_sub h hp hg
  obtain ⟨v, hv⟩ : ∃ v, answer.chosen v = true := by
    by_contra hnone
    exact hswitch (switches_eq_zero_iff.mpr fun v _ hv => absurd ⟨v, hv⟩ hnone)
  obtain rfl := answer_eq_minimumCut h hg hm.solved
  have hlt := hcut.energy_lt v hv
  omega

/-- Where its minimum cut goes down, a round does not fault, and counts as idle or goes down. -/
theorem round_descends_of_cut (h : Certified m s) (hnonneg : m.NonNegative)
    (hg : s.graph.Mirrors m) (hmeets : s.MeetsDescending m) :
    Ends (round m Cut.maxFlow) s
      (fun fused s' => Certified m s' ∧ s'.graph.Mirrors m ∧
        if fused then Descends m s s' else s'.labels = s.labels)
      (fun _ _ => False) := by
  obtain ⟨f, strategy, hpropose, hcert, hp, hround⟩ := round_rounds Cut.maxFlow h
  have hcut := hmeets f strategy hpropose
  refine hround.mono (fun fused s' h' => ?_) fun fault _ hf =>
    not_moveFaults hcert hnonneg hp hg (hcut hf.1) fault hf.2
  cases h' with
  | stop _ => exact ⟨hcert, hg, rfl⟩
  | move answer engine t hne hm =>
    refine ⟨(hm.certified hcert hp).of_eq rfl rfl rfl rfl, hm.mirrors hcert hg, ?_⟩
    rw [if_pos rfl]
    by_cases hswitch : (proposing f strategy s).switches answer.chosen = 0
    · exact .inl ⟨labels_fused m hswitch engine, if_pos hswitch⟩
    · exact .inr ⟨hm.energy_lt hcert hp hg (hcut hne) hswitch, if_neg hswitch⟩

/-- So it is where the proposal has submodular fusions with the labeling. -/
theorem round_descends (h : Certified m s) (hnonneg : m.NonNegative) (hg : s.graph.Mirrors m)
    (hmeets : s.MeetsSubmodular m) :
    Ends (round m Cut.maxFlow) s
      (fun fused s' => Certified m s' ∧ s'.graph.Mirrors m ∧
        if fused then Descends m s s' else s'.labels = s.labels)
      (fun _ _ => False) :=
  round_descends_of_cut h hnonneg hg (hmeets.descending h hg)

end

/-! ### Runs come to an end -/

/-- The states at which rounds from `s` begin, when `patience` idle iterations end them and no
    budget does. -/
inductive Met (m : Model) (o : Cut.Oracle σ) (patience : Nat) : Solver σ τ → Solver σ τ → Prop
  | here (s : Solver σ τ) : Met m o patience s s
  | next {s s' : Solver σ τ} : (round m o s).result = .ok true →
      (round m o s).state.idle < patience → Met m o patience (round m o s).state s' →
      Met m o patience s s'

/-- What is left to pay for iterations: the patience for every unit of energy above `least`, and the
    idle iterations that may come next. -/
def runway (m : Model) (least : Int) (patience : Nat) (s : Solver σ τ) : Nat :=
  (m.energy s.labeling - least).toNat * patience + max (patience - s.idle) 1

theorem one_le_runway (m : Model) (least : Int) (patience : Nat) (s : Solver σ τ) :
    1 ≤ s.runway m least patience := by
  unfold runway
  omega

/-- How many iterations the energy above `least` pays for. -/
def iterationBound (m : Model) (least : Int) (s : Solver σ τ) : Nat :=
  ((m.energy s.labeling - least).toNat + 1) * s.strategy.patience s.numLabels

theorem patience_pos (numLabels : Nat) (strategy : Strategy τ) :
    0 < strategy.patience numLabels := by
  cases strategy <;> simp only [Strategy.patience] <;> omega

/-- At first the runway is at most the patience for every unit of energy, and once more. -/
theorem runway_le (m : Model) (least : Int) (s : Solver σ τ) :
    s.runway m least (s.strategy.patience s.numLabels) ≤ s.iterationBound m least := by
  have hpatience := patience_pos s.numLabels s.strategy
  unfold runway iterationBound
  rw [Nat.add_mul, Nat.one_mul]
  omega

/-- An iteration that leaves patience costs one at least. -/
theorem Descends.runway_lt {least : Int} {patience : Nat} {s' : Solver σ τ} (h : Descends m s s')
    (hleast : least ≤ m.energy s'.labeling) (hidle : s'.idle < patience) :
    s'.runway m least patience < s.runway m least patience := by
  unfold runway
  rcases h with ⟨hlabels, hcount⟩ | ⟨henergy, hzero⟩
  · rw [labeling_congr hlabels, hcount]
    omega
  · -- one unit of energy buys back the whole patience
    have hunit : (m.energy s'.labeling - least).toNat + 1 ≤ (m.energy s.labeling - least).toNat := by
      omega
    have hpay := Nat.mul_le_mul_right patience hunit
    rw [Nat.add_mul, Nat.one_mul] at hpay
    omega

section

variable {s : Solver Unit τ} {least : Int} {patience : Nat}

/-- Rounds over minimum cuts that go down do not fault, complete no more iterations than the runway,
    and converge if the budget is as long. -/
theorem rounds_converge (budget : Nat) (h : Certified m s) (hnonneg : m.NonNegative)
    (hg : s.graph.Mirrors m)
    (hmeets : ∀ s', Met m Cut.maxFlow patience s s' → s'.MeetsDescending m)
    (hleast : ∀ y : Nat → Nat, (∀ v, y v < m.numLabels) → least ≤ m.energy y) :
    Ends (rounds m Cut.maxFlow patience budget) s
      (fun done s' => done ≤ s.runway m least patience ∧
        (s.runway m least patience ≤ budget → s'.phase = .converged))
      (fun _ _ => False) := by
  have hpos := one_le_runway m least patience s
  induction budget generalizing s with
  | zero => exact ends_pure ⟨Nat.zero_le _, fun hle => by omega⟩
  | succ budget ih =>
    have hround := (round_descends_of_cut h hnonneg hg (hmeets s (.here s))).with_outcome
    refine ends_rounds_succ (hround.mono_ok fun fused s₁ h₁ => ?_)
    obtain ⟨⟨hcert, hg₁, hdescends⟩, hok, rfl⟩ := h₁
    refine ⟨fun _ => ⟨Nat.zero_le _, fun _ => rfl⟩, fun _ _ => ⟨hpos, fun _ => rfl⟩,
      fun hfused hidle => ?_⟩
    subst hfused
    rw [if_pos rfl] at hdescends
    have hlt := hdescends.runway_lt (hleast _ hcert.labeling_lt) hidle
    refine (ih hcert hg₁ (fun s' hmet => hmeets s' (.next hok hidle hmet))
      (one_le_runway m least patience _)).mono_ok fun more s₂ h₂ => ?_
    exact ⟨by omega, fun hle => h₂.2 (by omega)⟩

end

/-- Over any oracle the states that rounds meet are certified. -/
theorem Met.certified {o : Cut.Oracle σ} {patience : Nat} {s' : Solver σ τ}
    (hmet : Met m o patience s s') (h : Certified m s) (hg : s.graph.Mirrors m) :
    Certified m s' ∧ s'.graph.Mirrors m := by
  induction hmet with
  | here s => exact ⟨h, hg⟩
  | next hok _ _ ih =>
    obtain ⟨hcert, hmirrors⟩ := (round_ends o h).of_ok hok
    exact ih hcert (hmirrors hg)

/-- The states at which the rounds of a run begin that no budget ends. -/
def MetByRun (m : Model) (o : Cut.Oracle σ) (s s' : Solver σ τ) : Prop :=
  (ensureStarted m s).state.phase ≠ .converged ∧
    Met m o ((ensureStarted m s).state.strategy.patience (ensureStarted m s).state.numLabels)
      (enter .iterating (ensureStarted m s).state).state s'

section

variable {s : Solver Unit τ} {least : Int}

/-- A started solver runs within the bound over minimum cuts that go down, and converges if the
    budget reaches it. -/
theorem iterate_converges_of_cuts (budget : Nat) (hnonneg : m.NonNegative)
    (hstart : (ensureStarted m s).result = .ok ()) (h : Certified m (ensureStarted m s).state)
    (hg : (ensureStarted m s).state.graph.Mirrors m)
    (hmeets : ∀ s', MetByRun m Cut.maxFlow s s' → s'.MeetsDescending m)
    (hleast : ∀ y : Nat → Nat, (∀ v, y v < m.numLabels) → least ≤ m.energy y) :
    Ends (iterate m Cut.maxFlow budget) s
      (fun report _ => report.iterations ≤ (ensureStarted m s).state.iterationBound m least ∧
        ((ensureStarted m s).state.iterationBound m least ≤ budget → report.phase = .converged))
      (fun _ _ => False) := by
  refine ends_iterate ((ends_of_ok hstart).mono_ok fun _ s₁ h₁ => ?_)
  obtain ⟨-, rfl⟩ := h₁
  refine ⟨fun _ => ⟨Nat.zero_le _, fun _ => rfl⟩, fun hphase => ?_⟩
  have hcert : Certified m (enter .iterating (ensureStarted m s).state).state :=
    h.of_eq rfl rfl rfl rfl
  refine (rounds_converge budget hcert hnonneg hg (fun s' hmet => hmeets s' ⟨hphase, hmet⟩)
    hleast).mono_ok fun done s₂ h₂ => ?_
  have hle := runway_le m least (enter .iterating (ensureStarted m s).state).state
  exact ⟨Nat.le_trans h₂.1 hle, fun hbudget => if_pos (h₂.2 (Nat.le_trans hle hbudget))⟩

/-- So it does over submodular fusions. -/
theorem iterate_converges (budget : Nat) (hnonneg : m.NonNegative)
    (hstart : (ensureStarted m s).result = .ok ()) (h : Certified m (ensureStarted m s).state)
    (hg : (ensureStarted m s).state.graph.Mirrors m)
    (hmeets : ∀ s', MetByRun m Cut.maxFlow s s' → s'.MeetsSubmodular m)
    (hleast : ∀ y : Nat → Nat, (∀ v, y v < m.numLabels) → least ≤ m.energy y) :
    Ends (iterate m Cut.maxFlow budget) s
      (fun report _ => report.iterations ≤ (ensureStarted m s).state.iterationBound m least ∧
        ((ensureStarted m s).state.iterationBound m least ≤ budget → report.phase = .converged))
      (fun _ _ => False) := by
  have hcert : Certified m (enter .iterating (ensureStarted m s).state).state :=
    h.of_eq rfl rfl rfl rfl
  refine iterate_converges_of_cuts budget hnonneg hstart h hg (fun s' hmet => ?_) hleast
  obtain ⟨hcert', hg'⟩ := hmet.2.certified hcert hg
  exact (hmeets s' hmet).descending hcert' hg'

/-- From every state that a new solver reaches over the minimum cut, if all fusions that its run
    meets are submodular: an iteration that changes a label takes the energy down by one at least,
    and the run makes no more iterations than the bound says and, given as many, converges.  The
    bound is best for the least energy of all labelings, and `solve` is the run with the largest
    budget. -/
theorem reached_converges (hvalid : m.Valid) (hnonneg : m.NonNegative)
    {engine : Cut.Engine Unit} (hfits : engine.graph.Fits m) {config : Config}
    (hr : Reached m Cut.maxFlow (Solver.new engine config) s)
    (hmeets : ∀ s', MetByRun m Cut.maxFlow s s' → s'.MeetsSubmodular m)
    (hleast : ∀ y : Nat → Nat, (∀ v, y v < m.numLabels) → least ≤ m.energy y) :
    (∀ s', MetByRun m Cut.maxFlow s s' → ∃ fused,
      (round m Cut.maxFlow s').result = .ok fused ∧
        ((round m Cut.maxFlow s').state.labels ≠ s'.labels →
          m.energy (round m Cut.maxFlow s').state.labeling + 1 ≤ m.energy s'.labeling)) ∧
    ∀ budget, ∃ report, (iterate m Cut.maxFlow budget s).result = .ok report ∧
      report.iterations ≤ (ensureStarted m s).state.iterationBound m least ∧
      ((ensureStarted m s).state.iterationBound m least ≤ budget →
        report.phase = .converged) := by
  obtain ⟨hstart, hcert, hg⟩ := hr.started hvalid hnonneg hfits
  refine ⟨fun s' hmet => ?_, fun budget => ?_⟩
  · have hcert₁ : Certified m (enter .iterating (ensureStarted m s).state).state :=
      hcert.of_eq rfl rfl rfl rfl
    obtain ⟨hcert', hg'⟩ := hmet.2.certified hcert₁ hg
    obtain ⟨fused, hok, -, -, hdescends⟩ :=
      (round_descends hcert' hnonneg hg' (hmeets s' hmet)).exists_ok
    refine ⟨fused, hok, fun hne => ?_⟩
    cases fused with
    | true => exact Descends.energy_lt hdescends hne
    | false => exact absurd hdescends hne
  · obtain ⟨report, hok, hbound⟩ :=
      (iterate_converges budget hnonneg hstart hcert hg hmeets hleast).exists_ok
    exact ⟨report, hok, hbound⟩

end

/-- A state that is met is the first one, or met from the next one. -/
theorem Met.eq_or_next {o : Cut.Oracle σ} {patience : Nat} {s' : Solver σ τ}
    (h : Met m o patience s s') : s' = s ∨ ((round m o s).result = .ok true ∧
      (round m o s).state.idle < patience ∧ Met m o patience (round m o s).state s') := by
  cases h with
  | here => exact .inl rfl
  | next hok hidle hmet => exact .inr ⟨hok, hidle, hmet⟩

/-- Two variables that start apart and come together in the second iteration.  The third one is idle,
    and the fourth proposes the labels that they have: three iterations where six are allowed. -/
theorem reached_converges_pair :
    let m : Model := .ofRows 2 #[#[0, 1], #[5, 0]] [.potts [0, 1] 3]
    let s₀ : Solver Unit Unit := Solver.new ⟨Cut.Graph.empty, ()⟩ ⟨.cyclic, false⟩
    m.Valid ∧ m.NonNegative ∧ s₀.graph.Fits m ∧
      (∀ s, MetByRun m Cut.maxFlow s₀ s → s.MeetsSubmodular m) ∧
      (∀ y : Nat → Nat, (∀ v, y v < m.numLabels) → 1 ≤ m.energy y) ∧
      ∃ report, (iterate m Cut.maxFlow 6 s₀).result = .ok report ∧ report.iterations ≤ 6 ∧
        report.phase = .converged := by
  intro m s₀
  have hvalid : m.Valid := ⟨Model.fault?_eq_none_iff.mp (by decide), by decide, by decide⟩
  have hnonneg : m.NonNegative := by
    intro clique hclique x _
    obtain rfl := List.mem_singleton.mp hclique
    exact Model.energyAt_potts_nonneg _ (by decide) x
  have hfits : s₀.graph.Fits m := Cut.Graph.fits_empty m
  have hmeets : ∀ s, MetByRun m Cut.maxFlow s₀ s → s.MeetsSubmodular m := by
    intro s hmet
    rcases hmet.2.eq_or_next with heq | ⟨-, -, hmet⟩
    · rw [heq]
      decide +kernel
    rcases hmet.eq_or_next with heq | ⟨-, -, hmet⟩
    · rw [heq]
      decide +kernel
    rcases hmet.eq_or_next with heq | ⟨-, -, hmet⟩
    · rw [heq]
      decide +kernel
    rcases hmet.eq_or_next with heq | ⟨hok, -, -⟩
    · rw [heq]
      decide +kernel
    · -- the fourth round stops the run
      exact absurd hok (by decide +kernel)
  have hleast : ∀ y : Nat → Nat, (∀ v, y v < m.numLabels) → 1 ≤ m.energy y := by
    intro y hy
    have hall : ∀ a < 2, ∀ b < 2, 1 ≤ m.energy (#[a, b].getD · 0) := by decide
    have hsame : m.energy y = m.energy (#[y 0, y 1].getD · 0) := by
      refine Model.energy_congr (fun c hc => (hvalid.wellFormed c hc).2.2) fun v hv => ?_
      obtain rfl | rfl : v = 0 ∨ v = 1 := by
        have : v < 2 := hv
        omega
      · rfl
      · rfl
    rw [hsame]
    exact hall (y 0) (hy 0) (y 1) (hy 1)
  have hbound : (ensureStarted m s₀).state.iterationBound m 1 = 6 := by decide +kernel
  have hr : Reached m Cut.maxFlow s₀ s₀ := .here
  obtain ⟨-, hrun⟩ := reached_converges hvalid hnonneg hfits hr hmeets hleast
  rw [hbound] at hrun
  obtain ⟨report, hok, hle, hphase⟩ := hrun 6
  exact ⟨hvalid, hnonneg, hfits, hmeets, hleast, report, hok, hle, hphase (Nat.le_refl 6)⟩

end Solver

end FusionMove
