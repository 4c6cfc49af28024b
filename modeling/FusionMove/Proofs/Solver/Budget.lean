import FusionMove.Proofs.Agreement
import FusionMove.Proofs.Solver.Heights
import FusionMove.Proofs.Solver.Optimal

namespace FusionMove

/-!
# Budgets compose

A run may stop at any iteration and be taken up again: what the next iteration needs to know stands
in the solver.  Between two iterations of a run the phase is iterating, which a run that ran out of
its budget loses and the next run restores; the patience is read anew, but no iteration changes it.

* `Solver.Steady` — what rounds leave as it is, `Solver.round_steady`, `Solver.rounds_steady` — they do,
  and count their iterations;
* `Solver.goOn` — what is left of rounds after the first ones, `Solver.rounds_add` — rounds within a sum
  of budgets are the first ones and what is left;
* `Solver.close` — how a run ends, `Solver.run_add` — so with runs;
* `Solver.iterate_add` — a run within a sum of budgets is two runs, from every state and over every
  oracle and strategy.
-/

open FusionMove.Action

/-- A strategy does not lose its patience by proposing. -/
theorem Strategy.patience_propose {τ : Type} {strategy strategy' : Strategy τ} {iteration : Nat}
    {heights : Heights} {current previous f : Array Nat}
    (h : strategy.propose iteration heights current previous = .ok (f, strategy'))
    (numLabels : Nat) : strategy'.patience numLabels = strategy.patience numLabels := by
  unfold propose at h
  cases strategy with
  | cyclic =>
    obtain ⟨-, rfl⟩ := Prod.mk.inj (Except.ok.inj h)
    rfl
  | steepest =>
    dsimp only at h
    split at h
    · obtain ⟨-, rfl⟩ := Prod.mk.inj (Except.ok.inj h)
      rfl
    · exact absurd h (by simp)
  | custom callback memory =>
    obtain ⟨-, rfl⟩ := Prod.mk.inj (Except.ok.inj h)
    rfl

namespace Solver

variable {σ τ : Type} {m : Model} {o : Cut.Oracle σ} {s s' : Solver σ τ}

/-! ### What rounds leave as it is -/

/-- The phase and the patience are the same. -/
structure Steady (s s' : Solver σ τ) : Prop where
  phase_eq : s'.phase = s.phase
  patience_eq : s'.strategy.patience s'.numLabels = s.strategy.patience s.numLabels

/-- A move leaves them as they are, and counts nothing. -/
theorem keeps_fusionMove_steady (o : Cut.Oracle σ) (s₀ : Solver σ τ) (n : Nat) :
    Keeps (fun s => Steady s₀ s ∧ s.iteration = n) (fusionMove m o) :=
  keeps_fusionMove_of o (fun _ _ h => ⟨⟨h.1.phase_eq, h.1.patience_eq⟩, h.2⟩)
    (fun _ _ _ h => ⟨⟨h.1.phase_eq, h.1.patience_eq⟩, h.2⟩)
    fun _ _ _ _ _ h => ⟨⟨h.1.phase_eq, h.1.patience_eq⟩, h.2⟩

/-- A round counts the iteration that it completes. -/
theorem round_steady (m : Model) (o : Cut.Oracle σ) (s : Solver σ τ) :
    Ends (round m o) s
      (fun fused s' => Steady s s' ∧ s'.iteration = s.iteration + fused.toNat) fun _ _ => True := by
  unfold round propose
  apply ends_bind
  apply ends_bind
  apply ends_get
  apply ends_bind
  refine ends_ofExcept (fun answer hanswer => ?_) fun _ _ => trivial
  have hproposing : Steady s (s.proposing answer.1 answer.2) :=
    ⟨rfl, Strategy.patience_propose hanswer s.numLabels⟩
  refine ends_modify (ends_bind (ends_get ?_))
  split
  · exact ends_pure ⟨hproposing, rfl⟩
  · apply ends_bind
    have hmove := keeps_iff_ends.mp (keeps_fusionMove_steady (m := m) o s s.iteration)
      (s.proposing answer.1 answer.2) ⟨hproposing, rfl⟩
    refine hmove.mono (fun switched s₂ h₂ => ?_) fun _ _ _ => trivial
    obtain ⟨hsteady, hcount⟩ := h₂
    refine ends_bind (ends_complete (ends_pure ?_))
    exact ⟨⟨hsteady.phase_eq, hsteady.patience_eq⟩, congrArg (· + 1) hcount⟩

/-- Rounds count what they complete, stay within the budget, and leave the phase as it is unless they
    converge. -/
theorem rounds_steady (m : Model) (o : Cut.Oracle σ) (patience budget : Nat) (s : Solver σ τ) :
    Ends (rounds m o patience budget) s
      (fun done s' => s'.iteration = s.iteration + done ∧ done ≤ budget ∧
        (s'.phase = .converged ∨ Steady s s')) fun _ _ => True := by
  induction budget generalizing s with
  | zero => exact ends_pure ⟨rfl, Nat.le_refl 0, .inr ⟨rfl, rfl⟩⟩
  | succ budget ih =>
    refine ends_rounds_succ ((round_steady m o s).mono_ok fun fused s₁ h₁ => ?_)
    obtain ⟨hsteady, hcount⟩ := h₁
    refine ⟨fun hfused => ?_, fun hfused _ => ?_, fun hfused _ => ?_⟩
    · subst hfused
      exact ⟨hcount, Nat.zero_le _, .inl rfl⟩
    · subst hfused
      exact ⟨hcount, Nat.le_add_left 1 budget, .inl rfl⟩
    · subst hfused
      refine (ih s₁).mono_ok fun more s₂ h₂ => ?_
      obtain ⟨hmore, hle, hphase⟩ := h₂
      have htotal : s₂.iteration = s.iteration + (more + 1) := by
        rw [hmore, hcount, Bool.toNat_true]
        omega
      refine ⟨htotal, Nat.succ_le_succ hle, hphase.imp_right fun h => ?_⟩
      exact ⟨h.phase_eq.trans hsteady.phase_eq, h.patience_eq.trans hsteady.patience_eq⟩

/-! ### Rounds within a sum of budgets -/

/-- Go on after `done` rounds, unless they have converged. -/
def goOn (m : Model) (o : Cut.Oracle σ) (patience budget done : Nat) : Action (Solver σ τ) Nat := do
  let s ← get
  if s.phase = .converged then return done
  else
    let more ← rounds m o patience budget
    return done + more

theorem goOn_of_converged (h : s.phase = .converged) (patience budget done : Nat) :
    goOn m o patience budget done s = ⟨.ok done, s, []⟩ := by
  unfold goOn
  rw [get_bind_apply, if_pos h]
  rfl

theorem goOn_of_not_converged (h : s.phase ≠ .converged) (patience budget done : Nat) :
    goOn m o patience budget done s
      = (rounds m o patience budget >>= fun more => pure (done + more)) s := by
  unfold goOn
  rw [get_bind_apply, if_neg h]

/-- What is left counts from what is done. -/
theorem goOn_succ (patience budget done : Nat) (s : Solver σ τ) :
    goOn m o patience budget (done + 1) s
      = (goOn m o patience budget done >>= fun n => pure (n + 1)) s := by
  by_cases h : s.phase = .converged
  · rw [goOn_of_converged h, bind_apply_ok (goOn_of_converged h _ _ _)]
    rfl
  · rw [goOn_of_not_converged h, bind_apply_eq (goOn_of_not_converged h _ _ _), bind_assoc]
    simp only [pure_bind, Nat.add_right_comm]

/-- Rounds within a sum of budgets are the rounds within the first one and what is left after them. -/
theorem rounds_add (patience a b : Nat) (h : s.phase ≠ .converged) :
    rounds m o patience (a + b) s = (rounds m o patience a >>= goOn m o patience b) s := by
  induction a generalizing s with
  | zero =>
    show _ = goOn m o patience b 0 s
    rw [goOn_of_not_converged h, Nat.zero_add]
    simp only [Nat.zero_add, bind_pure]
  | succ a ih =>
    rw [Nat.add_right_comm]
    unfold rounds
    rw [bind_assoc]
    apply bind_apply_congr
    intro fused hfused
    have hphase := ((round_steady m o s).of_ok hfused).1.phase_eq
    generalize (round m o s).state = s₁ at hphase
    rw [bind_assoc, get_bind_apply, get_bind_apply]
    split
    · rfl
    split
    · rfl
    · -- the rounds to come are those of the induction, and the one before counts
      rw [bind_apply_eq (ih (by rw [hphase]; exact h)), bind_assoc, bind_assoc]
      apply bind_apply_congr
      intro more _
      rw [pure_bind, goOn_succ]

/-! ### Runs within a sum of budgets -/

/-- Enter the phase in which a run of `done` iterations ends, and report it. -/
def close (done : Nat) : Action (Solver σ τ) Report := do
  conclude
  let s ← get
  return ⟨done, s.phase⟩

theorem close_apply (done : Nat) (s : Solver σ τ) : ∃ events,
    close done s = ⟨.ok ⟨done, endPhase s.phase⟩, { s with phase := endPhase s.phase }, events⟩ := by
  have hclose : Ends (close done) s (fun report s' => report = ⟨done, endPhase s.phase⟩ ∧
      s' = { s with phase := endPhase s.phase }) fun _ _ => False := by
    unfold close
    refine ends_bind ((conclude_ends s).mono_ok fun _ s' h => ends_bind (ends_get (ends_pure ?_)))
    rw [h]
    exact ⟨rfl, rfl⟩
  obtain ⟨report, hok, rfl, hstate⟩ := hclose.exists_ok
  refine ⟨(close done s).events, ?_⟩
  rw [← hok, ← hstate]

/-- Rounds, closed by entering the phase in which they end. -/
theorem run_apply (m : Model) (o : Cut.Oracle σ) (budget : Nat) (s : Solver σ τ) :
    run m o budget s = (rounds m o (s.strategy.patience s.numLabels) budget >>= close)
      { s with phase := .iterating } := rfl

/-- A run that has not converged starts over with its rounds. -/
theorem iterate_of_exhausted (h : s.phase = .exhausted) (budget : Nat) :
    iterate m o budget s = run m o budget s := by
  have hstarted : ensureStarted m s = ⟨.ok (), s, []⟩ :=
    ensureStarted_of_started m (by rw [h]; decide)
  unfold iterate
  rw [bind_apply_ok hstarted, get_bind_apply, if_neg (by rw [h]; decide), List.nil_append]

/-- A run that has converged is over. -/
theorem iterate_of_converged (h : s.phase = .converged) (budget : Nat) :
    iterate m o budget s = ⟨.ok ⟨0, .converged⟩, s, []⟩ := by
  have hstarted : ensureStarted m s = ⟨.ok (), s, []⟩ :=
    ensureStarted_of_started m (by rw [h]; decide)
  unfold iterate
  rw [bind_apply_ok hstarted, get_bind_apply, if_pos h, pure_apply, List.nil_append]

/-- Another run after a first one, with the iterations of both. -/
def iterateOn (m : Model) (o : Cut.Oracle σ) (budget : Nat) (first : Report) :
    Action (Solver σ τ) Report := do
  let second ← iterate m o budget
  return ⟨first.iterations + second.iterations, second.phase⟩

/-- After rounds that have converged there is nothing to take up. -/
theorem close_iterateOn_of_converged (h : s.phase = .converged) (patience budget done : Nat) :
    Agree (close done >>= iterateOn m o budget) (goOn m o patience budget done >>= close) s s
      (fun _ s' t' => t' = s') fun s' t' => t' = s' := by
  obtain ⟨events, hclose⟩ := close_apply done s
  have hstate : { s with phase := endPhase s.phase } = s := by
    rw [h]
    show { s with phase := .converged } = s
    rw [← h]
  rw [hstate, h] at hclose
  have hleft : (close done >>= iterateOn m o budget) s
      = ⟨.ok ⟨done, .converged⟩, s, events ++ []⟩ := by
    rw [bind_apply_ok hclose]
    unfold iterateOn
    rw [bind_apply_ok (iterate_of_converged h budget)]
    rfl
  have hright : (goOn m o patience budget done >>= close) s
      = ⟨.ok ⟨done, .converged⟩, s, [] ++ events⟩ := by
    rw [bind_apply_ok (goOn_of_converged h patience budget done), hclose]
    rfl
  refine agree_of_ok (a := ⟨done, .converged⟩) ?_ ?_ ?_
  · rw [hleft]
  · rw [hright]
  · rw [hleft, hright]

/-- To end a run that has not converged and to take it up again is to go on. -/
theorem close_iterateOn_of_iterating (h : s.phase = .iterating) (budget done : Nat) :
    Agree (close done >>= iterateOn m o budget)
      (goOn m o (s.strategy.patience s.numLabels) budget done >>= close) s s
      (fun _ s' t' => t' = s') fun s' t' => t' = s' := by
  generalize hpatience : s.strategy.patience s.numLabels = patience
  obtain ⟨events, hclose⟩ := close_apply done s
  have hexhausted : endPhase s.phase = .exhausted := by
    rw [h]
    rfl
  rw [hexhausted] at hclose
  apply agree_bind_left hclose
  -- the next run leaves the phase that the first one has entered
  have hreturn : { s with phase := Phase.iterating } = s := by
    rw [← h]
  have hrun : iterate m o budget { s with phase := Phase.exhausted }
      = (rounds m o patience budget >>= close) s := by
    rw [iterate_of_exhausted rfl, run_apply]
    show (rounds m o (s.strategy.patience s.numLabels) budget >>= close)
      { s with phase := Phase.iterating } = _
    rw [hreturn, hpatience]
  have hleft : iterateOn m o budget ⟨done, .exhausted⟩ { s with phase := Phase.exhausted }
      = (rounds m o patience budget >>= fun more => close more >>=
          fun second => pure ⟨done + second.iterations, second.phase⟩) s := by
    rw [← bind_assoc]
    exact bind_apply_eq hrun _
  have hright : (goOn m o patience budget done >>= close) s
      = (rounds m o patience budget >>= fun more => close (done + more)) s := by
    rw [bind_apply_eq (goOn_of_not_converged (by rw [h]; decide) _ _ _), bind_assoc]
    rfl
  refine Agree.of_apply (agree_bind ((agree_self _ s).mono_ok fun more s₂ t₂ h₂ => ?_)) hleft hright
  obtain ⟨rfl, -, -⟩ := h₂
  obtain ⟨_, hfirst⟩ := close_apply more t₂
  obtain ⟨_, hboth⟩ := close_apply (done + more) t₂
  apply agree_bind_left hfirst
  refine agree_of_ok rfl ?_ ?_
  · rw [hboth]
  · rw [hboth]
    rfl

/-- A run within a sum of budgets is the run within the first one and another one after it. -/
theorem run_add (a b : Nat) (s : Solver σ τ) :
    Agree (run m o a >>= iterateOn m o b) (run m o (a + b)) s s
      (fun _ s' t' => t' = s') fun s' t' => t' = s' := by
  generalize hs₁ : { s with phase := Phase.iterating } = s₁
  have hphase : s₁.phase = .iterating := by rw [← hs₁]
  have hpatience : s.strategy.patience s.numLabels = s₁.strategy.patience s₁.numLabels := by
    rw [← hs₁]
  have hleft : (run m o a >>= iterateOn m o b) s
      = (rounds m o (s₁.strategy.patience s₁.numLabels) a >>= fun done =>
          close done >>= iterateOn m o b) s₁ := by
    rw [← bind_assoc]
    apply bind_apply_eq
    rw [run_apply, hs₁, hpatience]
  have hright : run m o (a + b) s
      = (rounds m o (s₁.strategy.patience s₁.numLabels) a >>= fun done =>
          goOn m o (s₁.strategy.patience s₁.numLabels) b done >>= close) s₁ := by
    rw [run_apply, hs₁, hpatience, bind_apply_eq (rounds_add _ a b (by rw [hphase]; decide)),
      bind_assoc]
  refine Agree.of_apply (agree_bind ((agree_self _ s₁).mono_ok fun done s₂ t₂ h₂ => ?_)) hleft hright
  obtain ⟨rfl, hok, hstate⟩ := h₂
  obtain ⟨-, -, hsteady⟩ := (rounds_steady m o _ a s₁).of_ok hok
  rw [← hstate] at hsteady
  rcases hsteady with hconverged | hsteady
  · exact close_iterateOn_of_converged hconverged _ b done
  · rw [← hsteady.patience_eq]
    exact close_iterateOn_of_iterating (hsteady.phase_eq.trans hphase) b done

/-! ### Iterating within a sum of budgets -/

/-- A start counts nothing. -/
theorem ensureStarted_iteration (m : Model) (s : Solver σ τ) :
    Ends (ensureStarted m) s (fun _ s' => s'.iteration = s.iteration) fun _ _ => True := by
  unfold ensureStarted
  refine ends_bind (ends_get ?_)
  split
  · have hkeeps := keeps_iff_ends.mp (keeps_start (m := m) s.idle s.iteration s.strategy) s
      ⟨rfl, rfl, rfl⟩
    exact hkeeps.mono (fun _ _ h => h.2.1) fun _ _ _ => trivial
  · exact ends_pure rfl

/-- A run counts its iterations, stays within its budget, and uses it up if it ends exhausted. -/
theorem iterate_counts (m : Model) (o : Cut.Oracle σ) (budget : Nat) (s : Solver σ τ) :
    Ends (iterate m o budget) s
      (fun report s' => s'.iteration = s.iteration + report.iterations ∧
        report.iterations ≤ budget ∧ (report.phase = .exhausted → report.iterations = budget))
      fun _ _ => True := by
  have hcount : Ends (iterate m o budget) s (fun report s' =>
      s'.iteration = s.iteration + report.iterations ∧ report.iterations ≤ budget)
      fun _ _ => True := by
    refine ends_iterate ((ensureStarted_iteration m s).mono_ok fun _ s₁ h₁ => ⟨fun _ => ?_, fun _ => ?_⟩)
    · exact ⟨h₁, Nat.zero_le budget⟩
    · refine (rounds_steady m o _ budget _).mono_ok fun done s₂ h₂ => ?_
      obtain ⟨hiteration, hle, -⟩ := h₂
      exact ⟨hiteration.trans (congrArg (· + done) h₁), hle⟩
  refine (hcount.and (iterate_spends m o budget s)).mono (fun report s' h' => ?_)
    fun _ _ _ => trivial
  obtain ⟨⟨hiteration, hle⟩, hspends⟩ := h'
  refine ⟨hiteration, hle, fun hexhausted => hspends.resolve_left fun hconverged => ?_⟩
  exact absurd (hconverged.symm.trans hexhausted) (by decide)

/-- Budgets compose, for every model and oracle, from every state of a solver and for every strategy
    in it.  A run within `a + b` iterations has the result of a run within `a` that is followed, if it
    succeeds, by a run within `b`: the same total of iterations and the same phase, or the fault of the
    part that fails.  It ends in the same state, in every component, whether it faults or not.  Every
    run that succeeds reports by how much the count of iterations has grown, and if it is exhausted,
    this is its budget. -/
theorem iterate_add (m : Model) (o : Cut.Oracle σ) (a b : Nat) (s : Solver σ τ) :
    let both : Action (Solver σ τ) Report := do
      let first ← iterate m o a
      let second ← iterate m o b
      return ⟨first.iterations + second.iterations, second.phase⟩
    (iterate m o (a + b) s).result = (both s).result ∧
    (iterate m o (a + b) s).state = (both s).state ∧
    ∀ budget report, (iterate m o budget s).result = .ok report →
      (iterate m o budget s).state.iteration = s.iteration + report.iterations ∧
      report.iterations ≤ budget ∧ (report.phase = .exhausted → report.iterations = budget) := by
  intro both
  have hagree : Agree both (iterate m o (a + b)) s s (fun _ s' t' => t' = s')
      fun s' t' => t' = s' := by
    show Agree (iterate m o a >>= iterateOn m o b) _ s s _ _
    unfold iterate
    rw [bind_assoc]
    refine agree_bind ((agree_self _ s).mono_ok fun _ s₁ t₁ h₁ => ?_)
    obtain ⟨rfl, -, -⟩ := h₁
    rw [bind_assoc]
    apply agree_get_bind
    split
    · rename_i hphase
      rw [pure_bind]
      refine agree_of_ok (a := ⟨0, .converged⟩) ?_ rfl ?_
      · unfold iterateOn
        rw [bind_apply_ok (iterate_of_converged hphase b)]
        rfl
      · unfold iterateOn
        rw [bind_apply_ok (iterate_of_converged hphase b)]
        rfl
    · exact run_add a b t₁
  refine ⟨hagree.result_eq, hagree.state, fun budget report hok => ?_⟩
  exact (iterate_counts m o budget s).of_ok hok

/-- A callback that goes on from its previous proposal and counts its calls, cut after the first of two
    iterations.  The first one moves two variables; the second one moves none, which converges. -/
theorem iterate_add_callback :
    let m : Model := .ofRows 3 #[#[0, 1, 9], #[5, 0, 1], #[4, 4, 0]] [.potts [0, 1] 3, .potts [1, 2] 7]
    let next : Callback Nat := fun calls _ _ previous =>
      (fun v => (previous.getD v 0 + 1) % 3, calls + 1)
    let s₀ : Solver Unit Nat :=
      (setStrategy (.custom next 0) (Solver.new ⟨Cut.Graph.empty, ()⟩ .standard)).state
    let s₁ := (iterate m Cut.maxFlow 1 s₀).state
    (iterate m Cut.maxFlow 1 s₀).result = .ok ⟨1, .exhausted⟩ ∧
      (iterate m Cut.maxFlow 2 s₁).result = .ok ⟨1, .converged⟩ ∧
      (iterate m Cut.maxFlow 3 s₀).result = .ok ⟨2, .converged⟩ ∧
      (iterate m Cut.maxFlow 3 s₀).state = (iterate m Cut.maxFlow 2 s₁).state ∧
      s₁.iteration = 0 + 1 := by
  intro m next s₀ s₁
  have hfirst : (iterate m Cut.maxFlow 1 s₀).result = .ok ⟨1, .exhausted⟩ := by decide +kernel
  have hsecond : (iterate m Cut.maxFlow 2 s₁).result = .ok ⟨1, .converged⟩ := by decide +kernel
  have hzero : s₀.iteration = 0 := rfl
  -- from here on nothing is evaluated
  clear_value s₀ m
  obtain ⟨hresult, hstate, hcounts⟩ := iterate_add m Cut.maxFlow 1 2 s₀
  refine ⟨hfirst, hsecond, hresult.trans ?_, hstate.trans ?_, ?_⟩
  · rw [bind_result_eq_ok_iff]
    exact ⟨_, hfirst, bind_result_eq_ok_iff.mpr ⟨_, hsecond, rfl⟩⟩
  · rw [bind_state_of_ok hfirst, bind_state_of_ok hsecond]
    rfl
  · rw [(hcounts 1 _ hfirst).1, hzero]

end Solver

end FusionMove
