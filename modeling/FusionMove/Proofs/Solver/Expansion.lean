import Mathlib.Data.List.Sections
import FusionMove.Proofs.Solver.Heights
import FusionMove.Proofs.Solver.Termination

namespace FusionMove

/-!
# Expansions

An expansion of a label lets any set of variables move to this label.  Where the fusions with the
constant labelings are submodular, an iteration that proposes one label to all variables and changes
nothing has proved that no expansion of this label is better than the labeling.

A cyclic sweep proposes the labels in turn, one an iteration.  Idle iterations in a row leave the
labeling alone, so what each of them has proved adds up, over calls with any budgets and over lower
bounds, which rewrite duals but no label.  A change of strategy starts the count anew.

* `Model.Withstands` — no expansion of a label is better than the labeling;
* `Solver.Swept` — an idle cyclic streak has met labels that the labeling withstands,
  `Solver.round_tried` — a round carries it on;
* `Solver.Streak` — what the counters and the phase of a solver say, whatever was called before;
* `Solver.Continued` — the states that runs, lower bounds and changes of strategy lead to;
* `Solver.continued_withstands` — the streak in such a state;
* `Solver.continued_converged` — what a run has proved that converges, and
  `Solver.converged_improvable` — what it has not.
-/

open FusionMove.Action

namespace Model

/-- The fusions of every labeling with every constant labeling are submodular. -/
def ExpansionSubmodular (m : Model) : Prop :=
  ∀ x : Nat → Nat, (∀ v, x v < m.numLabels) → ∀ label < m.numLabels,
    m.FusionSubmodular x fun _ => label

/-- No expansion of `label` is better than the labeling `x`. -/
def Withstands (m : Model) (x : Nat → Nat) (label : Nat) : Prop :=
  ∀ S : Nat → Bool, m.energy x ≤ m.energy (fusedLabeling x (fun _ => label) S)

variable {m : Model} {x f : Nat → Nat} {label : Nat}

/-- Only the labels of variables matter to the fusions. -/
theorem FusionSubmodular.congr {x' f' : Nat → Nat} (h : m.FusionSubmodular x f)
    (hw : m.WellFormed) (hx : ∀ v < m.numVars, x v = x' v) (hf : ∀ v < m.numVars, f v = f' v) :
    m.FusionSubmodular x' f' := by
  intro clique hclique
  have hlt := (hw clique hclique).2.2
  have hlabels : ∀ {y y' : Nat → Nat}, (∀ v < m.numVars, y v = y' v) →
      clique.labelsAt y = clique.labelsAt y' :=
    fun hy => List.map_congr_left fun v hv => hy v (hlt v (List.mem_of_mem_take hv))
  have hmask : (clique.nodes.map fun v => decide (x v ≠ f v))
      = clique.nodes.map fun v => decide (x' v ≠ f' v) :=
    List.map_congr_left fun v hv => by rw [hx v (hlt v hv), hf v (hlt v hv)]
  have hclique' := h clique hclique
  rwa [hmask, hlabels hx, hlabels hf] at hclique'

/-- Expansions are submodular if they are for every list of labels, one a variable. -/
theorem expansionSubmodular_of_sections (hw : m.WellFormed)
    (h : ∀ xs ∈ (List.replicate m.numVars (List.range m.numLabels)).sections,
      ∀ label < m.numLabels, m.FusionSubmodular (xs.getD · 0) fun _ => label) :
    m.ExpansionSubmodular := by
  intro x hx label hlabel
  have hmem : (List.range m.numVars).map x
      ∈ (List.replicate m.numVars (List.range m.numLabels)).sections := by
    rw [List.mem_sections, List.forall₂_iff_get]
    exact ⟨by simp, fun i _ _ => by simp [hx]⟩
  exact (h _ hmem label hlabel).congr hw (fun v hv => by simp [hv]) fun _ _ => rfl

/-- A labeling that is the best fusion of itself with one label everywhere withstands this label. -/
theorem BestFusion.withstands (h : m.BestFusion x f x) (hf : ∀ v < m.numVars, f v = label) :
    m.Withstands x label := by
  refine fun S => h.energy_le _ fun v hv => ?_
  show (if S v then label else x v) = x v ∨ (if S v then label else x v) = f v
  rw [hf v hv]
  split
  · exact .inr rfl
  · exact .inl rfl

/-- A labeling with one label everywhere withstands this label. -/
theorem withstands_of_eq (hw : m.WellFormed) (h : ∀ v < m.numVars, x v = label) :
    m.Withstands x label := by
  intro S
  refine Int.le_of_eq (energy_congr (fun c hc => (hw c hc).2.2) fun v hv => ?_)
  show x v = if S v then label else x v
  rw [h v hv, ite_self]

end Model

namespace Strategy

variable {τ : Type} {s : Strategy τ} {iteration : Nat} {heights : Heights}
  {current previous f : Array Nat} {e : Expansion}

/-- What leaves a strategy of expansions is one, and has proposed one label to all variables. -/
theorem expansion_of_propose (hL : 0 < heights.numLabels)
    (h : s.propose iteration heights current previous = .ok (f, e.toStrategy)) :
    s = e.toStrategy ∧ ∃ label < heights.numLabels, (∀ v < previous.size, f.getD v 0 = label) ∧
      (e = .cyclic → label = iteration % heights.numLabels) := by
  have hclamp : ∀ choice v, v < previous.size →
      (clamp heights.numLabels previous.size fun _ => choice).getD v 0
        = min choice (heights.numLabels - 1) :=
    fun choice v hv => by simp [clamp, hv]
  cases s with
  | cyclic =>
    obtain ⟨rfl, hnext⟩ := Prod.mk.inj (Except.ok.inj h)
    have hturn := Nat.mod_lt iteration hL
    refine ⟨hnext, iteration % heights.numLabels, hturn, fun v hv => ?_, fun _ => rfl⟩
    rw [hclamp _ v hv, labelInTurn, if_neg (by omega)]
    omega
  | steepest =>
    unfold propose at h
    dsimp only at h
    split at h
    · obtain ⟨rfl, hnext⟩ := Prod.mk.inj (Except.ok.inj h)
      refine ⟨hnext, min (heights.steepest current) (heights.numLabels - 1), by omega,
        hclamp _, fun he => ?_⟩
      rw [he] at hnext
      exact absurd hnext (by simp [Expansion.toStrategy])
    · exact absurd h (by simp)
  | custom callback memory =>
    obtain ⟨-, hnext⟩ := Prod.mk.inj (Except.ok.inj h)
    cases e <;> exact absurd hnext (by simp [Expansion.toStrategy])

end Strategy

namespace Solver

variable {σ τ : Type} {m : Model} {s s' : Solver σ τ}

/-! ### Idle streaks -/

/-- The labels that a cyclic sweep has proposed since its streak of idle iterations began have all
    been withstood. -/
structure Swept (m : Model) (s : Solver σ τ) : Prop where
  idle_le : s.idle ≤ s.iteration
  withstands : ∀ i, s.iteration - s.idle ≤ i → i < s.iteration →
    m.Withstands s.labeling (i % m.numLabels)

/-- The last proposal is one label for all variables, and the labeling has withstood it. -/
def WithstoodLast (m : Model) (s : Solver σ τ) : Prop :=
  ∃ label < m.numLabels, (∀ v < m.numVars, s.proposal v = label) ∧ m.Withstands s.labeling label

/-- A streak that is as long as there are labels has met every label. -/
theorem Swept.withstands_all (h : Swept m s) (hle : m.numLabels ≤ s.idle) {label : Nat}
    (hlabel : label < m.numLabels) : m.Withstands s.labeling label := by
  have hidle := h.idle_le
  -- the last iteration whose turn this label was
  have hlt := Nat.mod_lt (s.iteration - 1 - label) (show 0 < m.numLabels by omega)
  have hdiv := Nat.mod_add_div (s.iteration - 1 - label) m.numLabels
  have hturn : s.iteration - 1 - (s.iteration - 1 - label) % m.numLabels
      = label + m.numLabels * ((s.iteration - 1 - label) / m.numLabels) := by omega
  have := h.withstands (s.iteration - 1 - (s.iteration - 1 - label) % m.numLabels) (by omega)
    (by omega)
  rwa [hturn, Nat.add_mul_mod_self_left, Nat.mod_eq_of_lt hlabel] at this

/-- Without idle iterations there is nothing to withstand. -/
theorem swept_of_idle (h : s.idle = 0) : Swept m s :=
  ⟨by omega, fun i hi hlt => by omega⟩

/-- A streak depends on the labels and the counters only. -/
theorem Swept.of_eq (h : Swept m s) (hl : s'.labels = s.labels) (hi : s'.idle = s.idle)
    (hn : s'.iteration = s.iteration) : Swept m s' := by
  refine ⟨by rw [hi, hn]; exact h.idle_le, fun i => ?_⟩
  rw [hi, hn, labeling_congr hl]
  exact h.withstands i

/-- One more idle iteration. -/
theorem Swept.succ (h : Swept m s) (hl : s'.labels = s.labels) (hi : s'.idle = s.idle + 1)
    (hn : s'.iteration = s.iteration + 1)
    (hturn : m.Withstands s.labeling (s.iteration % m.numLabels)) : Swept m s' := by
  have hidle := h.idle_le
  refine ⟨by omega, fun i hfirst hlt => ?_⟩
  rw [labeling_congr hl]
  rcases Nat.lt_succ_iff_lt_or_eq.mp (hn ▸ hlt) with hbefore | rfl
  · exact h.withstands i (by omega) hbefore
  · exact hturn

/-! ### Rounds -/

/-- What a round from `s` to `s'` has tried: a label that the labeling has withstood, if it has
    changed nothing. -/
structure Tried (m : Model) (s : Solver σ τ) (fused : Bool) (s' : Solver σ τ) : Prop where
  phase_eq : s'.phase = s.phase
  strategy_eq : ∀ e : Expansion, s'.strategy = e.toStrategy → s.strategy = e.toStrategy
  swept : s'.strategy = .cyclic → Swept m s'
  last : ∀ e : Expansion, s'.strategy = e.toStrategy → (fused = true → s'.idle ≠ 0) →
    WithstoodLast m s'
  stop : fused = false → s'.strategy = .cyclic →
    ∀ v < m.numVars, s'.labeling v = s'.iteration % m.numLabels

/-- A round over submodular expansions carries the streak on. -/
theorem round_tried {s : Solver Unit τ} (h : Certified m s) (hg : s.graph.Mirrors m)
    (hsub : m.ExpansionSubmodular) (hswept : s.strategy = .cyclic → Swept m s) :
    Ends (round m Cut.maxFlow) s (Tried m s) fun _ _ => True := by
  obtain ⟨f, strategy, hpropose, hcert, hp, hround⟩ := round_rounds Cut.maxFlow h
  have hL : s.certificate.heights.numLabels = m.numLabels := h.shaped.heights.numLabels_eq
  -- what an expansion has proposed
  have hlabel : ∀ e : Expansion, strategy = e.toStrategy → s.strategy = e.toStrategy ∧
      ∃ label < m.numLabels, (∀ v < m.numVars, f.getD v 0 = label) ∧
        (e = .cyclic → label = s.iteration % m.numLabels) := by
    rintro e rfl
    rw [← h.proposed_size, ← hL]
    exact Strategy.expansion_of_propose (hL ▸ h.numLabels_pos) hpropose
  refine hround.mono (fun fused s' h' => ?_) fun _ _ _ => trivial
  cases h' with
  | stop heq =>
    -- the proposal is the labeling itself
    have hsame : (proposing f strategy s).labeling = (f.getD · 0) := by
      ext v
      show s.labels.getD v 0 = f.getD v 0
      rw [heq]
    refine ⟨rfl, fun e he => (hlabel e he).1,
      fun he => (hswept (hlabel .cyclic he).1).of_eq rfl rfl rfl, fun e he _ => ?_, fun _ he => ?_⟩
    · obtain ⟨-, label, hlt, hf, -⟩ := hlabel e he
      refine ⟨label, hlt, hf, Model.withstands_of_eq h.wellFormed ?_⟩
      rw [hsame]
      exact hf
    · obtain ⟨-, label, -, hf, hturn⟩ := hlabel .cyclic he
      show ∀ v < m.numVars, (proposing f strategy s).labeling v = s.iteration % m.numLabels
      rw [hsame, ← hturn rfl]
      exact hf
  | move answer engine t hne hm =>
    -- an idle move has found the labeling itself to be the best fusion
    have hidle : (proposing f strategy s).switches answer.chosen = 0 →
        ∀ label < m.numLabels, (∀ v < m.numVars, f.getD v 0 = label) →
          m.Withstands s.labeling label := by
      intro hzero label hlt hf
      have hbest := hm.best hcert hp hg ((hsub s.labeling h.labeling_lt label hlt).congr
        h.wellFormed (fun _ _ => rfl) fun v hv => (hf v hv).symm)
      rw [labeling_congr (s := s) (labels_fused m hzero engine)] at hbest
      exact hbest.withstands hf
    refine ⟨rfl, fun e he => (hlabel e he).1, fun he => ?_, fun e he hcount => ?_,
      fun hfalse => absurd hfalse (by decide)⟩
    · obtain ⟨hcyclic, label, hlt, hf, hturn⟩ := hlabel .cyclic he
      by_cases hzero : (proposing f strategy s).switches answer.chosen = 0
      · refine (hswept hcyclic).succ (labels_fused m hzero engine) (if_pos hzero) rfl ?_
        rw [← hturn rfl]
        exact hidle hzero label hlt hf
      · exact swept_of_idle (if_neg hzero)
    · obtain ⟨-, label, hlt, hf, -⟩ := hlabel e he
      have hzero : (proposing f strategy s).switches answer.chosen = 0 := by
        by_contra hswitch
        exact hcount rfl (if_neg hswitch)
      refine ⟨label, hlt, hf, ?_⟩
      show m.Withstands (fused m (proposing f strategy s) engine answer).labeling label
      rw [labeling_congr (s := s) (labels_fused m hzero engine)]
      exact hidle hzero label hlt hf

/-! ### Runs -/

/-- What the counters and the phase of a solver say: the idle iterations of a cyclic sweep have each
    met a label that the labeling withstands, and so has the iteration at which the solver has
    converged. -/
structure Streak (m : Model) (s : Solver σ τ) : Prop where
  fresh : s.phase = .uninitialized → s.idle = 0
  swept : s.strategy = .cyclic → Swept m s
  last : s.phase = .converged → ∀ e : Expansion, s.strategy = e.toStrategy → WithstoodLast m s
  sweep : s.phase = .converged → s.strategy = .cyclic →
    m.numLabels ≤ s.idle ∨ ∀ v < m.numVars, s.labeling v = s.iteration % m.numLabels

/-- A started solver that has not converged has a streak to show only. -/
theorem streak_of_swept (hstarted : s.phase ≠ .uninitialized) (hphase : s.phase ≠ .converged)
    (hswept : s.strategy = .cyclic → Swept m s) : Streak m s :=
  ⟨fun heq => absurd heq hstarted, hswept, fun heq => absurd heq hphase,
    fun heq => absurd heq hphase⟩

/-- A solver that converges has a last label to show as well. -/
theorem streak_converged (hswept : s.strategy = .cyclic → Swept m s)
    (hlast : ∀ e : Expansion, s.strategy = e.toStrategy → WithstoodLast m s)
    (hsweep : s.strategy = .cyclic →
      m.numLabels ≤ s.idle ∨ ∀ v < m.numVars, s.labeling v = s.iteration % m.numLabels) :
    Streak m { s with phase := .converged } :=
  ⟨fun heq => Phase.noConfusion heq, fun he => (hswept he).of_eq rfl rfl rfl, fun _ => hlast,
    fun _ => hsweep⟩

/-- Rounds of a run carry the streak on. -/
theorem rounds_streak {s : Solver Unit τ} {patience : Nat} (hpos : 0 < patience) (budget : Nat)
    (h : Certified m s) (hg : s.graph.Mirrors m) (hsub : m.ExpansionSubmodular)
    (hpatience : s.strategy = .cyclic → m.numLabels ≤ patience) (hphase : s.phase = .iterating)
    (hswept : s.strategy = .cyclic → Swept m s) :
    Ends (rounds m Cut.maxFlow patience budget) s (fun _ s' => Streak m s') fun _ _ => True := by
  induction budget generalizing s with
  | zero => exact ends_pure (streak_of_swept (by simp [hphase]) (by simp [hphase]) hswept)
  | succ budget ih =>
    refine ends_rounds_succ (((round_ends Cut.maxFlow h).and (round_tried h hg hsub hswept)).mono
      (fun fused s₁ h₁ => ?_) fun _ _ _ => trivial)
    obtain ⟨⟨hcert, hmirrors⟩, htried⟩ := h₁
    refine ⟨fun hfused => ?_, fun hfused hidle => ?_, fun _ _ => ?_⟩
    · -- the proposal was the labeling itself
      refine streak_converged htried.swept (fun e he => htried.last e he fun htrue => ?_)
        fun he => .inr (htried.stop hfused he)
      exact absurd (hfused.symm.trans htrue) (by decide)
    · -- the patience is at an end
      refine streak_converged htried.swept (fun e he => htried.last e he fun _ => by omega)
        fun he => .inl ?_
      have := hpatience (htried.strategy_eq .cyclic he)
      omega
    · exact ih hcert (hmirrors hg) (fun he => hpatience (htried.strategy_eq .cyclic he))
        (htried.phase_eq.trans hphase) htried.swept

/-- A streak outlasts a start. -/
theorem ensureStarted_streak (h : Streak m s) :
    Ends (ensureStarted m) s (fun _ s' => Streak m s') fun _ _ => True := by
  unfold ensureStarted
  refine ends_bind (ends_get ?_)
  split
  · rename_i hphase
    have hkeeps := keeps_iff_ends.mp (keeps_start (m := m) s.idle s.iteration s.strategy) s
      ⟨rfl, rfl, rfl⟩
    refine ((start_ends m s).and hkeeps).mono (fun _ s' h' => ?_) fun _ _ _ => trivial
    obtain ⟨⟨hiterating, -⟩, hidle, -⟩ := h'
    exact streak_of_swept (by simp [hiterating]) (by simp [hiterating])
      fun _ => swept_of_idle (hidle.trans (h.fresh hphase))
  · exact ends_pure h

/-- A run carries the streak on. -/
theorem iterate_streak {s : Solver Unit τ} (h : Streak m s) (hsound : Sound m s) (hg : OnMirror m s)
    (hsub : m.ExpansionSubmodular) (budget : Nat) :
    Ends (iterate m Cut.maxFlow budget) s (fun _ s' => Streak m s') fun _ _ => True := by
  refine ends_iterate (((ensureStarted_ends hsound).and (ensureStarted_streak h)).mono
    (fun _ s₁ h₁ => ?_) fun _ _ _ => trivial)
  obtain ⟨⟨hstarted, hcert, hmirrors⟩, hstreak⟩ := h₁
  refine ⟨fun _ => hstreak, fun _ => ?_⟩
  have hcert₁ : Certified m { s₁ with phase := Phase.iterating } := hcert.of_eq rfl rfl rfl rfl
  have hpatience : s₁.strategy = .cyclic → m.numLabels ≤ s₁.strategy.patience s₁.numLabels := by
    intro he
    rw [he, ← hcert.numLabels_eq]
    exact Nat.le_max_left _ _
  refine (rounds_streak (patience_pos _ _) budget hcert₁ (hmirrors hg) hsub hpatience rfl
    fun he => (hstreak.swept he).of_eq rfl rfl rfl).mono_ok fun done s₂ h₂ => ?_
  -- the phase in which a run ends is converged if its rounds have converged
  by_cases hphase : s₂.phase = .converged
  · have hend : endPhase s₂.phase = s₂.phase := by rw [hphase]; rfl
    rw [hend]
    exact h₂
  · refine streak_of_swept (endPhase_ne _) ?_ fun he => (h₂.swept he).of_eq rfl rfl rfl
    show (if s₂.phase = .converged then Phase.converged else .exhausted) ≠ .converged
    rw [if_neg hphase]
    decide

/-- What does not speak of the certificate outlasts the visits of a lower bound. -/
theorem keeps_visitClique_of {P : Solver σ τ → Prop}
    (hP : ∀ s t, P s → P { s with certificate := t }) (ratio : Float) (p : Clique × Nat) :
    Keeps P (visitClique ratio p) := by
  unfold visitClique
  refine keeps_get_bind fun s _ => keeps_foldlM (fun ratio triple _ => ?_) ratio
  unfold visitTriple
  refine keeps_get_bind fun s _ => ?_
  dsimp only
  split
  · exact keeps_fail _ _
  split
  · refine keeps_bind ?_ fun _ => keeps_pure _ _
    unfold settle
    refine keeps_get_bind fun s _ => ?_
    dsimp only
    split
    · exact keeps_modify fun s h => hP s _ h
    · split
      · exact keeps_bind (keeps_record _ _) fun _ => keeps_fail _ _
      · exact keeps_pure _ _
  · exact keeps_pure _ _

/-- A streak depends on no certificate, so it outlasts a lower bound. -/
theorem lowerBound_streak (h : Streak m s) :
    Ends (lowerBound m) s (fun _ s' => Streak m s') fun _ _ => True := by
  have hrevised : ∀ (s : Solver σ τ) t, Streak m s → Streak m { s with certificate := t } :=
    fun s t h => ⟨h.fresh, fun he => (h.swept he).of_eq rfl rfl rfl, h.last, h.sweep⟩
  unfold lowerBound measure
  refine ends_bind (ends_bind ((checkTriples_ends m s).mono (fun _ s₁ h₁ => ?_)
    fun _ _ _ => trivial))
  obtain ⟨rfl, -⟩ := h₁
  refine ends_bind ((ensureStarted_streak h).mono_ok fun _ s₂ h₂ => ends_bind ?_)
  have hvisits : Keeps (Streak m : Solver σ τ → Prop)
      (m.cliques.zipIdx.foldlM visitClique ((0 : Int) : Float)) :=
    keeps_foldlM (fun ratio p _ => keeps_visitClique_of hrevised ratio p) _
  refine (keeps_iff_ends.mp hvisits s₂ h₂).mono (fun ratio s₃ h₃ => ?_) fun _ _ _ => trivial
  refine ends_bind (ends_get (ends_pure ?_))
  split
  · exact ends_bind (ends_record (ends_pure h₃))
  · exact ends_bind (ends_record (ends_pure h₃))

/-- A change of strategy starts the streak anew. -/
theorem setStrategy_streak (strategy : Strategy τ) (s : Solver σ τ) :
    Streak m (setStrategy strategy s).state := by
  have hphase : (setStrategy strategy s).state.phase ≠ .converged := by
    show (if s.phase = .converged then Phase.exhausted else s.phase) ≠ .converged
    split
    · decide
    · assumption
  exact ⟨fun _ => rfl, fun _ => swept_of_idle rfl, fun heq => absurd heq hphase,
    fun heq => absurd heq hphase⟩

/-! ### Continued runs -/

/-- The states that a solver comes to from `s₀` when its runs and lower bounds succeed and no
    snapshot is put into effect. -/
inductive Continued (m : Model) (o : Cut.Oracle σ) (s₀ : Solver σ τ) : Solver σ τ → Prop
  | here : Continued m o s₀ s₀
  | iterate {s : Solver σ τ} (budget : Nat) {report : Report} : Continued m o s₀ s →
      (Solver.iterate m o budget s).result = .ok report →
      Continued m o s₀ (Solver.iterate m o budget s).state
  | lowerBound {s : Solver σ τ} {bound : Float} : Continued m o s₀ s →
      (Solver.lowerBound m s).result = .ok bound → Continued m o s₀ (Solver.lowerBound m s).state
  | setStrategy {s : Solver σ τ} (strategy : Strategy τ) : Continued m o s₀ s →
      Continued m o s₀ (Solver.setStrategy strategy s).state

theorem Continued.reached {o : Cut.Oracle σ} {s₀ : Solver σ τ} (h : Continued m o s₀ s) :
    Reached m o s₀ s := by
  induction h with
  | here => exact .here
  | iterate budget _ hok ih => exact ih.iterate budget hok
  | lowerBound _ hok ih => exact ih.lowerBound hok
  | setStrategy strategy _ ih => exact ih.setStrategy strategy

section

variable {s : Solver Unit τ}

/-- Streaks hold what they say in every state that a new solver comes to. -/
theorem Continued.streak {engine : Cut.Engine Unit} (hfits : engine.graph.Fits m) {config : Config}
    (hc : Continued m Cut.maxFlow (Solver.new engine config) s) (hsub : m.ExpansionSubmodular) :
    Streak m s := by
  induction hc with
  | here => exact ⟨fun _ => rfl, fun _ => swept_of_idle rfl, fun heq => Phase.noConfusion heq,
      fun heq => Phase.noConfusion heq⟩
  | iterate budget hc hok ih =>
    obtain ⟨hsound, hg⟩ := hc.reached.sound_onMirror hfits
    exact (iterate_streak ih hsound hg hsub budget).of_ok hok
  | lowerBound _ hok ih => exact (lowerBound_streak ih).of_ok hok
  | setStrategy strategy _ _ => exact setStrategy_streak strategy _

/-- In every state that a new solver comes to by runs of any budgets, lower bounds and changes of
    strategy, where expansions are submodular: a cyclic sweep that has been idle for some iterations
    has proposed a label in each of them that the labeling withstands.  After as many of them as
    there are labels it withstands all labels. -/
theorem continued_withstands {engine : Cut.Engine Unit} (hfits : engine.graph.Fits m)
    {config : Config} (hc : Continued m Cut.maxFlow (Solver.new engine config) s)
    (hsub : m.ExpansionSubmodular) (hcyclic : s.strategy = .cyclic) :
    s.idle ≤ s.iteration ∧
    (∀ i, s.iteration - s.idle ≤ i → i < s.iteration →
      m.Withstands s.labeling (i % m.numLabels)) ∧
    (m.numLabels ≤ s.idle → ∀ label < m.numLabels, m.Withstands s.labeling label) := by
  have hswept := (hc.streak hfits hsub).swept hcyclic
  exact ⟨hswept.idle_le, hswept.withstands, fun hle _ hlabel => hswept.withstands_all hle hlabel⟩

end

/-- The label 0 is the cheapest one of the first variable, and 1 that of the second one. -/
def apart : Model :=
  .ofRows 2 #[#[0, 9], #[9, 0]] [.potts [0, 1] 3]

theorem apart_expansionSubmodular : apart.ExpansionSubmodular :=
  Model.expansionSubmodular_of_sections (Model.fault?_eq_none_iff.mp (by decide)) (by decide)

/-- A run of no iterations builds the tables, and then the strategy becomes the cyclic one. -/
theorem continued_apart :
    let s₀ : Solver Unit Unit := Solver.new ⟨Cut.Graph.empty, ()⟩ .standard
    Continued apart Cut.maxFlow s₀
      (setStrategy .cyclic (iterate apart Cut.maxFlow 0 s₀).state).state := by
  intro s₀
  have hstart : (iterate apart Cut.maxFlow 0 s₀).result = .ok ⟨0, .exhausted⟩ := by decide +kernel
  exact (Continued.here.iterate 0 hstart).setStrategy .cyclic

/-- The labels stay apart while a sweep proposes both of them, one in each of two calls. -/
theorem continued_withstands_apart :
    let m : Model := .ofRows 2 #[#[0, 9], #[9, 0]] [.potts [0, 1] 3]
    let s₀ : Solver Unit Unit := Solver.new ⟨Cut.Graph.empty, ()⟩ .standard
    s₀.graph.Fits m ∧ m.ExpansionSubmodular ∧ ∃ s, Continued m Cut.maxFlow s₀ s ∧
      s.strategy = .cyclic ∧ s.iteration = 2 ∧ s.idle = 2 ∧
      ∀ label < 2, m.Withstands s.labeling label := by
  intro m s₀
  have hfits : s₀.graph.Fits m := Cut.Graph.fits_empty m
  have hsub : m.ExpansionSubmodular := apart_expansionSubmodular
  -- a start, another strategy, and two runs of one idle iteration
  have hc₁ : Continued m Cut.maxFlow s₀
      (setStrategy .cyclic (iterate m Cut.maxFlow 0 s₀).state).state := continued_apart
  generalize hs₁ : (setStrategy .cyclic (iterate m Cut.maxFlow 0 s₀).state).state = s₁ at hc₁
  have hfirst : (iterate m Cut.maxFlow 1 s₁).result = .ok ⟨1, .exhausted⟩ := by
    rw [← hs₁]
    decide +kernel
  have hsecond : (iterate m Cut.maxFlow 1 (iterate m Cut.maxFlow 1 s₁).state).result
      = .ok ⟨1, .converged⟩ := by
    rw [← hs₁]
    decide +kernel
  have hcounts : (iterate m Cut.maxFlow 1 (iterate m Cut.maxFlow 1 s₁).state).state.iteration = 2 ∧
      (iterate m Cut.maxFlow 1 (iterate m Cut.maxFlow 1 s₁).state).state.idle = 2 := by
    rw [← hs₁]
    decide +kernel
  have hcyclic : (iterate m Cut.maxFlow 1 (iterate m Cut.maxFlow 1 s₁).state).state.strategy
      = .cyclic := by
    refine Strategy.eq_of_name (e := .cyclic) ?_
    rw [← hs₁]
    decide +kernel
  have hc := (hc₁.iterate 1 hfirst).iterate 1 hsecond
  exact ⟨hfits, hsub, _, hc, hcyclic, hcounts.1, hcounts.2,
    (continued_withstands hfits hc hsub hcyclic).2.2 (Nat.le_of_eq hcounts.2.symm)⟩

/-- What a run has proved when it reports that a strategy of expansions has converged, where
    expansions are submodular.  No expansion of the label that it proposed last is better than the
    labeling.  A cyclic sweep has met all labels, or the labels of its idle iterations only and then
    a labeling that consists of the label whose turn it was. -/
theorem continued_converged {s : Solver Unit τ} {engine : Cut.Engine Unit}
    (hfits : engine.graph.Fits m) {config : Config}
    (hc : Continued m Cut.maxFlow (Solver.new engine config) s) (hsub : m.ExpansionSubmodular)
    {budget done : Nat}
    (hok : (iterate m Cut.maxFlow budget s).result = .ok ⟨done, .converged⟩) {s' : Solver Unit τ}
    (hs' : (iterate m Cut.maxFlow budget s).state = s') {e : Expansion}
    (he : s'.strategy = e.toStrategy) :
    (∃ label < m.numLabels, (∀ v < m.numVars, s'.proposal v = label) ∧
      m.Withstands s'.labeling label) ∧
    (e = .cyclic →
      (∀ i, s'.iteration - s'.idle ≤ i → i < s'.iteration →
        m.Withstands s'.labeling (i % m.numLabels)) ∧
      ((∀ label < m.numLabels, m.Withstands s'.labeling label) ∨
        ∀ v < m.numVars, s'.labeling v = s'.iteration % m.numLabels)) := by
  have hstreak := (hc.iterate budget hok).streak hfits hsub
  have hphase := (iterate_phase Cut.maxFlow budget s).of_ok hok
  rw [hs'] at hstreak hphase
  refine ⟨hstreak.last hphase e he, fun hcyclic => ?_⟩
  subst hcyclic
  have hswept := hstreak.swept he
  exact ⟨hswept.withstands, (hstreak.sweep hphase he).imp
    (fun hle _ hlabel => hswept.withstands_all hle hlabel) id⟩

/-- The sweep is idle for both labels, one iteration each, and has met all labels then. -/
theorem continued_converged_apart :
    let s₀ : Solver Unit Unit := Solver.new ⟨Cut.Graph.empty, ()⟩ .standard
    s₀.graph.Fits apart ∧ apart.ExpansionSubmodular ∧ ∃ s, Continued apart Cut.maxFlow s₀ s ∧
      (iterate apart Cut.maxFlow 5 s).result = .ok ⟨2, .converged⟩ ∧
      ∃ s', (iterate apart Cut.maxFlow 5 s).state = s' ∧
        s'.strategy = Expansion.cyclic.toStrategy ∧ s'.idle = 2 ∧ s'.labeling 0 ≠ s'.labeling 1 ∧
        (∃ label < 2, (∀ v < 2, s'.proposal v = label) ∧ apart.Withstands s'.labeling label) ∧
        ∀ label < 2, apart.Withstands s'.labeling label := by
  intro s₀
  have hfits : s₀.graph.Fits apart := Cut.Graph.fits_empty apart
  have hc : Continued apart Cut.maxFlow s₀ _ := continued_apart
  generalize hs : (setStrategy .cyclic (iterate apart Cut.maxFlow 0 s₀).state).state = s at hc
  have hok : (iterate apart Cut.maxFlow 5 s).result = .ok ⟨2, .converged⟩ := by
    rw [← hs]
    decide +kernel
  have hcyclic : (iterate apart Cut.maxFlow 5 s).state.strategy = Expansion.cyclic.toStrategy := by
    refine Strategy.eq_of_name ?_
    rw [← hs]
    decide +kernel
  have hidle : (iterate apart Cut.maxFlow 5 s).state.idle = 2 := by
    rw [← hs]
    decide +kernel
  have hapart : (iterate apart Cut.maxFlow 5 s).state.labeling 0
      ≠ (iterate apart Cut.maxFlow 5 s).state.labeling 1 := by
    rw [← hs]
    decide +kernel
  refine ⟨hfits, apart_expansionSubmodular, s, hc, hok, ?_⟩
  generalize hs' : (iterate apart Cut.maxFlow 5 s).state = s' at hcyclic hidle hapart ⊢
  obtain ⟨hlast, hsweep⟩ :=
    continued_converged hfits hc apart_expansionSubmodular hok hs' hcyclic
  refine ⟨s', rfl, hcyclic, hidle, hapart, hlast, ?_⟩
  -- a labeling of one label only would not be apart
  exact (hsweep rfl).2.resolve_right fun hconst =>
    hapart ((hconst 0 (by decide)).trans (hconst 1 (by decide)).symm)

/-- Two variables whose cheapest label is 0, in a clique that costs less once the first of them has
    the label 1. -/
def leaning : Model :=
  .ofRows 2 #[#[0, 1], #[0, 1]] [.lookup [0, 1] 2 #[2, 0, 2, 0]]

theorem leaning_valid : leaning.Valid :=
  ⟨Model.fault?_eq_none_iff.mp (by decide), by decide, by decide⟩

theorem leaning_expansionSubmodular : leaning.ExpansionSubmodular :=
  Model.expansionSubmodular_of_sections leaning_valid.wellFormed (by decide)

/-- A single switch to the label that no run has tried would be an improvement there. -/
theorem converged_improvable :
    let s₀ : Expansion → Solver Unit Unit := fun e => Solver.new ⟨Cut.Graph.empty, ()⟩ ⟨e, false⟩
    leaning.Valid ∧ leaning.NonNegative ∧ leaning.ExpansionSubmodular ∧
      ∀ e : Expansion, (s₀ e).graph.Fits leaning ∧ (s₀ e).strategy = e.toStrategy ∧
        (solve leaning Cut.maxFlow (s₀ e)).result = .ok ⟨0, .converged⟩ ∧
        ¬ ∀ label < leaning.numLabels,
          leaning.Withstands (solve leaning Cut.maxFlow (s₀ e)).state.labeling label := by
  intro s₀
  have hnonneg : leaning.NonNegative := by
    intro clique hclique x _
    obtain rfl := List.mem_singleton.mp hclique
    exact Model.energyAt_lookup_nonneg _ _ (by decide) x
  refine ⟨leaning_valid, hnonneg, leaning_expansionSubmodular,
    fun e => ⟨Cut.Graph.fits_empty leaning, rfl, ?_, fun hall => ?_⟩⟩
  · cases e <;> decide +kernel
  · -- the first variable alone moves
    refine absurd (hall 1 (by decide) fun v => v = 0) ?_
    cases e <;> decide +kernel

end Solver

end FusionMove
