import FusionMove.Proofs.Solver.Resume
import FusionMove.Proposal.Callback

namespace FusionMove.Solver

/-!
# The proposal that a snapshot leaves out

A callback sees the previous proposal, and a snapshot does not hold it.  A new solver that restores
a snapshot has label 0 everywhere for a last proposal, so it does what the solver that was captured
would do after forgetting its own: the same thing as that solver only if the callback does not look,
or if there was nothing to forget.

* `forget` — the solver with label 0 everywhere for a last proposal;
* `restore_forgets` — a new solver that has restored a snapshot shows, in every sequence of calls, what
  the solver that was captured would show after forgetting;
* `keeps_iterate_asks` — the callback that a solver asks stays the same;
* `restore_forgets_diverges` — a callback that counts up from its previous proposal stops early after
  it was restored.
-/

open FusionMove.Action

variable {τ : Type} {m : Model} {s t : Solver Unit τ}

/-- The solver with label 0 everywhere for a last proposal. -/
def forget (s : Solver Unit τ) : Solver Unit τ :=
  { s with proposed := Array.replicate s.labels.size 0 }

/-- Fresh tables hold label 0 everywhere for a last proposal. -/
theorem Prepared.proposed_eq {t₁ : Solver Unit τ} (hp : Prepared m t t₁)
    (hphase : t.phase = .uninitialized) : t₁.proposed = Array.replicate m.numVars 0 := by
  cases hp with
  | started hstarted => exact absurd hphase hstarted
  | fresh => rfl

/-- What an unstarted solver restores is a twin of the solver that was captured, as it is after it
    forgot its last proposal. -/
theorem restore_twin_forget (hcert : Certified m s) (hs : Tabled m s)
    (hphase : s.phase ≠ .uninitialized) (hg : s.graph.Mirrors m) (hv : m.Valid) (ht : Booked m t)
    (hgt : OnMirror m t) (hstrategy : t.strategy = s.strategy)
    (hfresh : t.phase = .uninitialized) :
    (restore m (Snapshot.capture s) t).result = .ok () ∧
      Twin m s.forget (restore m (Snapshot.capture s) t).state := by
  obtain ⟨hok, t₁, hp, hstate⟩ := restore_exchanges hcert hs hphase hv ht hgt hstrategy
  have hproposed : t₁.proposed = s.forget.proposed := by
    rw [hp.proposed_eq hfresh, forget, hs.labels_size]
  refine ⟨hok, ?_⟩
  rw [hstate]
  show Twin m s.forget (s.forget.exchange t₁.engine t₁.proposed t₁.config)
  exact .intro _ _ _ hphase hg (hp.mirrors hgt) (by rw [hproposed]) (.inl hproposed)

/-- A strategy that does not look at the last proposal does not miss it. -/
theorem twin_forget (hs : Tabled m s) (hphase : s.phase ≠ .uninitialized) (hg : s.graph.Mirrors m)
    (hignores : s.forget.proposed = s.proposed ∨ s.strategy.IgnoresPrevious) :
    Twin m s s.forget := by
  have hsize : s.forget.proposed.size = s.proposed.size := by
    rw [forget, Array.size_replicate, hs.labels_size, hs.proposed_size]
  show Twin m s (s.exchange s.engine s.forget.proposed s.config)
  exact .intro _ _ _ hphase hg hg hsize hignores

/-- Transcripts show the labels after a run. -/
theorem labels_eq_of_transcript_eq {o : Cut.Oracle Unit} {budget : Nat}
    (h : transcript m o t [.iterate budget] = transcript m o s [.iterate budget]) :
    (iterate m o budget t).state.labels = (iterate m o budget s).state.labels :=
  congrArg Snapshot.labels (Prod.mk.inj (List.cons.inj h).1).2

/-- Resuming from a snapshot over the bundled oracle, with any callback.  The source has started, and
    has come to its state by operations that succeeded; the target is a new solver with the same
    strategy.  The target restores the snapshot of the source, and shows from then on what the source
    would show after it forgot its last proposal.  If that was label 0 everywhere, or the strategy
    ignores it, this is what the source shows. -/
theorem restore_forgets {engine engine' : Cut.Engine Unit} {config config' : Config}
    (hfits : engine.graph.Fits m) (hfits' : engine'.graph.Fits m)
    (hs : Reached m Cut.maxFlow (Solver.new engine config) s)
    (hphase : s.phase ≠ .uninitialized) :
    let t := (setStrategy s.strategy (Solver.new engine' config')).state
    let t' := (restore m (Snapshot.capture s) t).state
    (restore m (Snapshot.capture s) t).result = .ok () ∧
    Snapshot.capture t' = Snapshot.capture s ∧
    (∀ calls, transcript m Cut.maxFlow t' calls = transcript m Cut.maxFlow s.forget calls) ∧
    (s.forget.proposed = s.proposed ∨ s.strategy.IgnoresPrevious → ∀ calls,
      transcript m Cut.maxFlow t' calls = transcript m Cut.maxFlow s calls) := by
  intro t t'
  obtain ⟨hsound, hgs⟩ := hs.sound_onMirror hfits
  have hv : m.Valid := hs.valid (fun hne => absurd rfl hne) hphase
  have hbooked : Booked m t := keeps_setStrategy _ _ (booked_new _ _)
  have hgt : OnMirror m t := setStrategy_onMirror _ ⟨hfits', fun hne => absurd rfl hne⟩
  have htabled := (hs.booked (booked_new _ _)).tabled hphase
  obtain ⟨hok, htwin⟩ := restore_twin_forget (hsound hphase) htabled hphase (hgs.2 hphase) hv
    hbooked hgt rfl rfl
  have hforget := htwin.transcript_eq hv.wellFormed
  refine ⟨hok, htwin.capture_eq, hforget, fun hsame calls => ?_⟩
  rw [hforget, (twin_forget htabled hphase (hgs.2 hphase) hsame).transcript_eq hv.wellFormed]

/-! ### Callbacks -/

/-- The proposals come from the given callback. -/
def Asks (callback : Callback τ) (s : Solver Unit τ) : Prop :=
  ∃ memory, s.strategy = .custom callback memory

section

variable {callback : Callback τ}

theorem keeps_ensureStarted_asks :
    Keeps (Asks callback : Solver Unit τ → Prop) (ensureStarted m) := by
  unfold ensureStarted
  refine keeps_get_bind fun _ _ => ?_
  split
  · rintro s ⟨memory, hstrategy⟩
    obtain ⟨-, -, hkept⟩ := keeps_start s.idle s.iteration s.strategy s ⟨rfl, rfl, rfl⟩
    exact ⟨memory, hkept.trans hstrategy⟩
  · exact keeps_pure _ _

theorem keeps_round_asks (o : Cut.Oracle Unit) :
    Keeps (Asks callback : Solver Unit τ → Prop) (round m o) := by
  have hpropose : Keeps (Asks callback : Solver Unit τ → Prop) propose := by
    unfold propose
    rintro s ⟨memory, hstrategy⟩
    rw [get_bind_apply, hstrategy]
    exact ⟨_, rfl⟩
  have hmove : Keeps (Asks callback : Solver Unit τ → Prop) (fusionMove m o) :=
    keeps_fusionMove_of o (fun _ _ h => h) (fun _ _ _ h => h) fun _ _ _ _ _ h => h
  unfold round complete
  refine keeps_bind hpropose fun _ => keeps_get_bind fun s _ => ?_
  split
  · exact keeps_pure _ _
  · exact keeps_bind hmove fun _ => keeps_bind (keeps_bind (keeps_modify fun _ h => h) fun _ =>
      keeps_get_bind fun _ _ => keeps_record _ _) fun _ => keeps_pure _ _

theorem keeps_rounds_asks (o : Cut.Oracle Unit) (patience budget : Nat) :
    Keeps (Asks callback : Solver Unit τ → Prop) (rounds m o patience budget) := by
  induction budget with
  | zero => exact keeps_pure _ 0
  | succ budget ih =>
    have hconverge : ∀ n : Nat, Keeps (Asks callback : Solver Unit τ → Prop)
        (enter .converged >>= fun _ => pure n) := fun n =>
      keeps_bind (keeps_modify fun _ h => h) fun _ => keeps_pure _ n
    unfold rounds
    refine keeps_bind (keeps_round_asks o) fun fused => keeps_get_bind fun s _ => ?_
    split
    · exact hconverge 0
    · split
      · exact hconverge 1
      · exact keeps_bind ih fun _ => keeps_pure _ _

/-- A solver asks one callback all along; only its memory changes. -/
theorem keeps_iterate_asks (o : Cut.Oracle Unit) (budget : Nat) :
    Keeps (Asks callback : Solver Unit τ → Prop) (iterate m o budget) := by
  refine keeps_iff_ends.mpr fun s h => ends_iterate ?_
  refine (keeps_iff_ends.mp keeps_ensureStarted_asks s h).mono_ok fun _ s₁ h₁ =>
    ⟨fun _ => h₁, fun _ => ?_⟩
  exact keeps_iff_ends.mp (keeps_rounds_asks o _ budget) { s₁ with phase := .iterating } h₁

end

/-- A source whose callback proposes label 1 everywhere, and whose last proposal is not what a new
    solver would have. -/
theorem restore_forgets_fill :
    let m : Model := .ofRows 2 #[#[0, 3], #[4, 1], #[0, 1]] [.potts [0, 1, 2] 5]
    let s₀ : Solver Unit Unit := Solver.new ⟨Cut.Graph.empty, ()⟩ .standard
    let fill : Strategy Unit := .custom (Callback.fill 1) ()
    s₀.graph.Fits m ∧ fill.IgnoresPrevious ∧ ∃ s, Reached m Cut.maxFlow s₀ s ∧
      s.phase = .exhausted ∧ s.labels = #[1, 1, 1] ∧ s.proposed = #[1, 1, 1] ∧
      s.strategy = fill ∧
      (restore m (Snapshot.capture s) (setStrategy fill s₀).state).result = .ok () ∧
      ∀ calls, transcript m Cut.maxFlow
          (restore m (Snapshot.capture s) (setStrategy fill s₀).state).state calls
        = transcript m Cut.maxFlow s calls := by
  intro m s₀ fill
  have hfits : s₀.graph.Fits m := Cut.Graph.fits_empty m
  have hignores : fill.IgnoresPrevious := fun _ _ _ _ _ => rfl
  have hset : Reached m Cut.maxFlow s₀ (setStrategy fill s₀).state := .setStrategy fill .here
  generalize hrun : iterate m Cut.maxFlow 1 (setStrategy fill s₀).state = run
  have hok : run.result = .ok ⟨1, .exhausted⟩ := by rw [← hrun]; decide +kernel
  have hphase : run.state.phase = .exhausted := by rw [← hrun]; decide +kernel
  have hlabels : run.state.labels = #[1, 1, 1] := by rw [← hrun]; decide +kernel
  have hproposed : run.state.proposed = #[1, 1, 1] := by rw [← hrun]; decide +kernel
  have hasks : Asks (Callback.fill 1) run.state := by
    rw [← hrun]
    exact keeps_iterate_asks Cut.maxFlow 1 (setStrategy fill s₀).state ⟨(), rfl⟩
  obtain ⟨⟨⟩, hstrategy⟩ := hasks
  have hs : Reached m Cut.maxFlow s₀ run.state := by
    rw [← hrun] at hok ⊢
    exact hset.iterate 1 hok
  obtain ⟨hrestored, -, -, hsame⟩ :=
    @restore_forgets _ m _ _ _ _ .standard hfits hfits hs (by rw [hphase]; simp)
  rw [hstrategy] at hrestored hsame
  exact ⟨hfits, hignores, run.state, hs, hphase, hlabels, hproposed, hstrategy, hrestored,
    hsame (.inr hignores)⟩

/-- A callback that counts up from its previous proposal.  The source goes on from label 1 to label 2
    and lowers its energy; a new solver that has restored its snapshot proposes label 1 again, which it
    holds, and stops. -/
theorem restore_forgets_diverges :
    let m : Model := .ofRows 3 #[#[0, 5, 2], #[5, 0, 2]] [.potts [0, 1] 10]
    let s₀ : Solver Unit Unit := Solver.new ⟨Cut.Graph.empty, ()⟩ .standard
    let t := (setStrategy (.custom (Callback.bump 1) ()) s₀).state
    let s := (iterate m Cut.maxFlow 1 t).state
    let t' := (restore m (Snapshot.capture s) t).state
    Reached m Cut.maxFlow s₀ s ∧ s.phase = .exhausted ∧ s.labels = #[1, 1] ∧
      (restore m (Snapshot.capture s) t).result = .ok () ∧
      (iterate m Cut.maxFlow 1 s).result = .ok ⟨1, .exhausted⟩ ∧
      (iterate m Cut.maxFlow 1 s).state.labels = #[2, 2] ∧
      (iterate m Cut.maxFlow 1 t').result = .ok ⟨0, .converged⟩ ∧
      (iterate m Cut.maxFlow 1 t').state.labels = #[1, 1] ∧
      transcript m Cut.maxFlow t' [.iterate 1] ≠ transcript m Cut.maxFlow s [.iterate 1] := by
  intro m s₀ t s t'
  have hok : (iterate m Cut.maxFlow 1 t).result = .ok ⟨1, .exhausted⟩ := by decide +kernel
  have ht : Reached m Cut.maxFlow s₀ t := .setStrategy _ .here
  have hlabels : (iterate m Cut.maxFlow 1 s).state.labels = #[2, 2] := by decide +kernel
  have hlabels' : (iterate m Cut.maxFlow 1 t').state.labels = #[1, 1] := by decide +kernel
  refine ⟨ht.iterate 1 hok, by decide +kernel, by decide +kernel, by decide +kernel,
    by decide +kernel, hlabels, by decide +kernel, hlabels', fun heq => ?_⟩
  have hsame := labels_eq_of_transcript_eq heq
  rw [hlabels, hlabels'] at hsame
  exact absurd hsame (by decide)

end FusionMove.Solver
