import FusionMove.Proofs.Solver.Heights
import FusionMove.Proofs.Solver.Twin

namespace FusionMove

/-!
# Resuming from a snapshot

A snapshot leaves out the graph, the tables that belong to the model, and the last proposal.  The
graph and the proposal are overwritten before they are read, and the tables are the same in every
solver over the model that has them.  So a solver that has restored a snapshot is a twin of the one
that it was taken of, whatever it has been through before, and does from then on what that one does.

* `Driven.onMirror` — a graph that fits stays so in operations that fault;
* `Solver.restore_twin` — the snapshot of a certified solver is restored, which makes a twin;
* `Solver.Call`, `Solver.transcript` — what a caller sees of a sequence of calls;
* `Solver.restore_resumes` — a solver with a strategy of expansions and one that has restored its
  snapshot show the same in every sequence of calls.
-/

open FusionMove.Action

namespace Solver

variable {τ : Type} {m : Model} {s t : Solver Unit τ}

/-! ### Graphs after faults -/

/-- Both graphs of twins mirror the model. -/
theorem Twin.onMirror (h : Twin m s t) : OnMirror m t :=
  ⟨h.right.fits, fun _ => h.right⟩

/-- A run keeps the graph with the model, also one that faults. -/
theorem keeps_iterate_onMirror (hw : m.WellFormed) (budget : Nat) :
    Keeps (OnMirror m : Solver Unit τ → Prop) (iterate m Cut.maxFlow budget) := by
  refine keeps_iff_ends.mpr fun s hg => ?_
  unfold iterate
  refine ends_bind ((ensureStarted_mirrors hg).mono_ok fun _ s₁ h₁ => ends_bind (ends_get ?_))
  -- a solver that has started is its own twin, and stays so
  have htwin := Twin.refl h₁.1 h₁.2
  split
  · exact ends_pure htwin.onMirror
  · exact (run_agrees hw htwin budget).ends.mono (fun _ _ h => h.onMirror) fun _ _ h => h.onMirror

/-- So does a lower bound. -/
theorem keeps_lowerBound_onMirror :
    Keeps (OnMirror m : Solver Unit τ → Prop) (lowerBound m) := by
  refine keeps_iff_ends.mpr fun s hg => ?_
  unfold lowerBound measure
  refine ends_bind (ends_bind ((checkTriples_ends m s).mono (fun _ s₁ h₁ => ?_)
    fun _ s₁ h₁ => by rw [h₁.1]; exact hg))
  obtain ⟨rfl, -⟩ := h₁
  refine ends_bind ((ensureStarted_mirrors hg).mono_ok fun _ s₂ h₂ => ends_bind ?_)
  refine (visits_agree (Twin.refl h₂.1 h₂.2) _).ends.mono
    (fun ratio s₃ h₃ => ends_bind (ends_get (ends_pure ?_))) fun _ _ h => h.onMirror
  split
  · exact ends_bind (ends_record (ends_pure h₃.onMirror))
  · exact ends_bind (ends_record (ends_pure h₃.onMirror))

/-- And a snapshot, restored or refused. -/
theorem keeps_restore_onMirror (p : Snapshot) :
    Keeps (OnMirror m : Solver Unit τ → Prop) (restore m p) := by
  refine keeps_iff_ends.mpr fun s hg => (restore_restores m p s).mono (fun _ s' h' => ?_)
    fun _ s' hr => hr.onMirror hg
  obtain ⟨-, -, s₁, hp, rfl⟩ := h'
  exact ⟨(hp.mirrors hg).fits, fun _ => hp.mirrors hg⟩

/-- The graph of a driven solver is one for the model, whatever has faulted. -/
theorem Driven.onMirror (hw : m.WellFormed) {s₀ : Solver Unit τ} (hd : Driven m Cut.maxFlow s₀ s)
    (hg : OnMirror m s₀) : OnMirror m s := by
  induction hd with
  | here => exact hg
  | iterate budget _ ih => exact keeps_iterate_onMirror hw budget _ ih
  | lowerBound _ ih => exact keeps_lowerBound_onMirror _ ih
  | restore p _ ih => exact keeps_restore_onMirror p _ ih
  | setStrategy strategy _ ih => exact setStrategy_onMirror strategy ih

/-! ### Restored solvers -/

theorem Prepared.strategy_eq {s₁ : Solver Unit τ} (hp : Prepared m t s₁) :
    s₁.strategy = t.strategy := by
  cases hp with
  | started => rfl
  | fresh => rfl

/-- A solver with tables that loads the snapshot of another one has the tables, labels, duals and
    counters of that one. -/
theorem load_capture (hs : Tabled m s) (ht : Tabled m t) (hstrategy : t.strategy = s.strategy) :
    load m (Snapshot.capture s) t = s.exchange t.engine t.proposed t.config := by
  have hnumLabels : t.numLabels = s.numLabels := ht.numLabels_eq.trans hs.numLabels_eq.symm
  have hplaces : t.places = s.places := ht.places_eq.trans hs.places_eq.symm
  rw [load, Snapshot.certificate_capture hs.shaped, hnumLabels, hplaces, hstrategy]
  rfl

/-- The snapshot of a certified solver is restored by every solver over the model whose graph fits.
    What it was loaded into keeps its engine, its last proposal and its configuration, and has all
    else from the snapshot. -/
theorem restore_exchanges (hcert : Certified m s) (hs : Tabled m s)
    (hphase : s.phase ≠ .uninitialized) (hv : m.Valid) (ht : Booked m t) (hgt : OnMirror m t)
    (hstrategy : t.strategy = s.strategy) :
    (restore m (Snapshot.capture s) t).result = .ok () ∧ ∃ t₁, Prepared m t t₁ ∧
      (restore m (Snapshot.capture s) t).state = s.exchange t₁.engine t₁.proposed t₁.config := by
  obtain ⟨hshape, hcontent⟩ := Snapshot.capture_passes hcert hphase
  have hnot : ∀ fault t', ¬ Refused m (Snapshot.capture s) t fault t' := by
    intro fault t' hr
    cases hr with
    | shape h => exact absurd (hshape.symm.trans h) (by simp)
    | tables g _ _ h => exact h ⟨hv, hgt.1⟩
    | content t₁ _ _ h => exact absurd (hcontent.symm.trans h) (by simp)
  obtain ⟨⟨⟩, hok, -, -, t₁, hp, hstate⟩ := (restore_restores m _ t).exists_ok_of hnot
  refine ⟨hok, t₁, hp, ?_⟩
  rw [hstate, load_capture hs (hp.tabled ht) (hp.strategy_eq.trans hstrategy)]

/-- Restoring leaves a twin, if the strategies are the same and do not look at the last proposal. -/
theorem restore_twin (hcert : Certified m s) (hs : Tabled m s) (hphase : s.phase ≠ .uninitialized)
    (hg : s.graph.Mirrors m) (hv : m.Valid) (ht : Booked m t) (hgt : OnMirror m t)
    (hstrategy : t.strategy = s.strategy) (hignores : s.strategy.IgnoresPrevious) :
    (restore m (Snapshot.capture s) t).result = .ok () ∧
      Twin m s (restore m (Snapshot.capture s) t).state := by
  obtain ⟨hok, t₁, hp, hstate⟩ := restore_exchanges hcert hs hphase hv ht hgt hstrategy
  refine ⟨hok, ?_⟩
  rw [hstate]
  exact .intro _ _ _ hphase hg (hp.mirrors hgt)
    ((hp.tabled ht).proposed_size.trans hs.proposed_size.symm) (.inr hignores)

/-! ### What a caller sees -/

/-- The operations that run a solver on. -/
inductive Call where
  | solve
  | iterate (budget : Nat)
  | lowerBound

/-- What they answer. -/
inductive Reply where
  | report (result : Except Fault Report)
  | bound (result : Except Fault Float)

/-- The answer of a call, and the solver after it. -/
def Call.run (m : Model) (o : Cut.Oracle Unit) (s : Solver Unit τ) : Call → Reply × Solver Unit τ
  | solve => (.report (Solver.solve m o s).result, (Solver.solve m o s).state)
  | iterate budget => (.report (Solver.iterate m o budget s).result,
      (Solver.iterate m o budget s).state)
  | lowerBound => (.bound (Solver.lowerBound m s).result, (Solver.lowerBound m s).state)

/-- The answers of a sequence of calls, each with the snapshot after it.  A call may fault, and the
    next one is made all the same. -/
def transcript (m : Model) (o : Cut.Oracle Unit) (s : Solver Unit τ) :
    List Call → List (Reply × Snapshot)
  | [] => []
  | call :: calls => ((call.run m o s).1, Snapshot.capture (call.run m o s).2) ::
      transcript m o (call.run m o s).2 calls

/-- Twins answer a call alike, and stay twins. -/
theorem Twin.run (h : Twin m s t) (hw : m.WellFormed) (call : Call) :
    (call.run m Cut.maxFlow t).1 = (call.run m Cut.maxFlow s).1 ∧
      Twin m (call.run m Cut.maxFlow s).2 (call.run m Cut.maxFlow t).2 := by
  cases call with
  | solve =>
    have hagree := iterate_agrees hw h maxBudget
    exact ⟨congrArg Reply.report hagree.result_eq, hagree.state⟩
  | iterate budget =>
    have hagree := iterate_agrees hw h budget
    exact ⟨congrArg Reply.report hagree.result_eq, hagree.state⟩
  | lowerBound =>
    have hagree := lowerBound_agrees hw h
    exact ⟨congrArg Reply.bound hagree.result_eq, hagree.state⟩

/-- Twins have one transcript. -/
theorem Twin.transcript_eq (h : Twin m s t) (hw : m.WellFormed) (calls : List Call) :
    transcript m Cut.maxFlow t calls = transcript m Cut.maxFlow s calls := by
  induction calls generalizing s t with
  | nil => rfl
  | cons call calls ih =>
    obtain ⟨hreply, htwin⟩ := h.run hw call
    rw [transcript, transcript, hreply, htwin.capture_eq, ih htwin]

/-- Resuming from a snapshot over the bundled oracle.  The source has started, and has come to its
    state by operations that succeeded; the target has been through any operations, faults
    included; both have one strategy of expansions.  The target restores the snapshot of the
    source, as it was captured or as it was read back from a faithful writing.  From then on both
    give the same answers to every sequence of calls, faults included, and have the same snapshots
    after each of them. -/
theorem restore_resumes {engine engine' : Cut.Engine Unit} {config config' : Config}
    (hfits : engine.graph.Fits m) (hfits' : engine'.graph.Fits m)
    (hs : Reached m Cut.maxFlow (Solver.new engine config) s) (hphase : s.phase ≠ .uninitialized)
    (ht : Driven m Cut.maxFlow (Solver.new engine' config') t) {e : Expansion}
    (hsource : s.strategy = e.toStrategy) (htarget : t.strategy = e.toStrategy)
    {χ : Type} {write : Snapshot → χ} {read : χ → Option Snapshot}
    (hfaithful : ∀ p, read (write p) = some p) :
    (read (write (Snapshot.capture s))).isSome ∧
    ∀ p, p = Snapshot.capture s ∨ read (write (Snapshot.capture s)) = some p →
      (restore m p t).result = .ok () ∧
      Snapshot.capture (restore m p t).state = Snapshot.capture s ∧
      ∀ calls, transcript m Cut.maxFlow (restore m p t).state calls
        = transcript m Cut.maxFlow s calls := by
  obtain ⟨hsound, hgs⟩ := hs.sound_onMirror hfits
  have hv : m.Valid := hs.valid (fun hne => absurd rfl hne) hphase
  have hgt : OnMirror m t :=
    ht.onMirror hv.wellFormed ⟨hfits', fun hne => absurd rfl hne⟩
  have htabled := (hs.booked (booked_new _ _)).tabled hphase
  have hignores : s.strategy.IgnoresPrevious := by
    rw [hsource]
    exact Strategy.ignoresPrevious_toStrategy e
  obtain ⟨hok, htwin⟩ := restore_twin (hsound hphase) htabled hphase (hgs.2 hphase) hv
    (ht.booked (booked_new _ _)) hgt (htarget.trans hsource.symm) hignores
  refine ⟨by rw [hfaithful]; rfl, fun p hp => ?_⟩
  obtain rfl : p = Snapshot.capture s :=
    hp.elim id fun hread => (Option.some.inj ((hfaithful _).symm.trans hread)).symm
  exact ⟨hok, htwin.capture_eq, htwin.transcript_eq hv.wellFormed⟩

/-- A source that has moved to one label and stopped there, and a target that has kept its first
    labels, has refused the snapshot of a solver without tables, and has changed its strategy. -/
theorem restore_resumes_triple :
    let m : Model := .ofRows 2 #[#[0, 3], #[4, 1], #[0, 1]] [.potts [0, 1, 2] 5]
    let s₀ : Solver Unit Unit := Solver.new ⟨Cut.Graph.empty, ()⟩ ⟨.cyclic, false⟩
    let t₀ : Solver Unit Unit := Solver.new ⟨Cut.Graph.empty, ()⟩ .standard
    s₀.graph.Fits m ∧ t₀.graph.Fits m ∧ ∃ s t, Reached m Cut.maxFlow s₀ s ∧
      s.phase = .exhausted ∧ s.labels = #[0, 0, 0] ∧ s.strategy = Expansion.cyclic.toStrategy ∧
      Driven m Cut.maxFlow t₀ t ∧ t.labels = #[0, 1, 0] ∧
      t.strategy = Expansion.cyclic.toStrategy ∧
      ∃ p, Snapshot.ofTree? (Snapshot.capture s).toTree = some p ∧
        (restore m p t).result = .ok () ∧ ∀ calls,
          transcript m Cut.maxFlow (restore m p t).state calls
            = transcript m Cut.maxFlow s calls := by
  intro m s₀ t₀
  have hfits : Cut.Graph.empty.Fits m := Cut.Graph.fits_empty m
  have hok : (iterate m Cut.maxFlow 1 s₀).result = .ok ⟨1, .exhausted⟩ := by decide +kernel
  have hs₀ : Reached m Cut.maxFlow s₀ s₀ := .here
  have hs := hs₀.iterate 1 hok
  have hphase : (iterate m Cut.maxFlow 1 s₀).state.phase = .exhausted := by decide +kernel
  have hlabels : (iterate m Cut.maxFlow 1 s₀).state.labels = #[0, 0, 0] := by decide +kernel
  have hsource : (iterate m Cut.maxFlow 1 s₀).state.strategy = Expansion.cyclic.toStrategy :=
    Strategy.eq_of_name (by decide +kernel)
  generalize (iterate m Cut.maxFlow 1 s₀).state = s at hs hphase hlabels hsource
  have ht₀ : Driven m Cut.maxFlow t₀ t₀ := .here
  have ht := ((ht₀.iterate 0).restore (Snapshot.capture t₀)).setStrategy .cyclic
  have hlabels' : (setStrategy .cyclic (restore m (Snapshot.capture t₀)
      (iterate m Cut.maxFlow 0 t₀).state).state).state.labels = #[0, 1, 0] := by decide +kernel
  have htarget : (setStrategy .cyclic (restore m (Snapshot.capture t₀)
      (iterate m Cut.maxFlow 0 t₀).state).state).state.strategy = Expansion.cyclic.toStrategy := rfl
  generalize (setStrategy .cyclic (restore m (Snapshot.capture t₀)
    (iterate m Cut.maxFlow 0 t₀).state).state).state = t at ht hlabels' htarget
  obtain ⟨hread, hresumes⟩ := restore_resumes hfits hfits hs (by rw [hphase]; simp) ht hsource
    htarget Snapshot.ofTree?_toTree
  obtain ⟨p, hp⟩ := Option.isSome_iff_exists.mp hread
  obtain ⟨hrestored, -, hcalls⟩ := hresumes p (.inr hp)
  exact ⟨hfits, hfits, s, t, hs, hphase, hlabels, hsource, ht, hlabels', htarget, p, hp, hrestored,
    hcalls⟩

end Solver

end FusionMove
