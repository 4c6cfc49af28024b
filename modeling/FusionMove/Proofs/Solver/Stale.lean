import FusionMove.Proofs.Solver.Resume

namespace FusionMove

/-!
# Stale graphs

A graph that is handed to a solver, or that someone else writes to between two calls, may hold
anything: costs, a constant, flags, tables, and what the last cut has left.  None of this is read
before it is written.  As long as nodes and members stay those of the model, a solver on such a graph
answers like one on a graph of its own.

* `Cut.Graph.SameFrame` — two graphs with the same nodes, members and sizes of tables;
* `Cut.Graph.Edit` — a change to a graph that keeps its frame;
* `Solver.Unstarted` — two solvers without tables that differ in the engine and the configuration;
  `Solver.start_agrees` — they start alike, and become twins;
* `Solver.Akin` — solvers that are unstarted or twins; calls and edits keep them so;
* `Solver.editedTranscript_eq` — the answers on a stale graph, edited before every call, are those on a
  new one.
-/

open FusionMove.Action

/-! ### Edits of a graph -/

namespace Cut

variable {m : Model} {g g' : Graph}

namespace Graph

/-- The same number of nodes, and factors with the same members and tables of the same sizes.  All
    numbers and flags may differ. -/
structure SameFrame (g g' : Graph) : Prop where
  numNodes_eq : g'.numNodes = g.numNodes
  members_eq : g'.factors.map (·.members) = g.factors.map (·.members)
  sizes_eq : g'.factors.map (·.table.size) = g.factors.map (·.table.size)

/-- Factors of one frame, at one index. -/
theorem SameFrame.exists_factor (h : g.SameFrame g') {c : Nat} {f' : Factor}
    (hf' : g'.factors[c]? = some f') :
    ∃ f, g.factors[c]? = some f ∧ f'.members = f.members ∧ f'.table.size = f.table.size := by
  have hmembers := congrArg (·[c]?) h.members_eq
  have hsizes := congrArg (·[c]?) h.sizes_eq
  simp only [List.getElem?_map, hf', Option.map_some] at hmembers hsizes
  obtain ⟨f, hf, hm⟩ := Option.map_eq_some_iff.mp hmembers.symm
  rw [hf, Option.map_some, Option.some.injEq] at hsizes
  exact ⟨f, hf, hm.symm, hsizes⟩

theorem SameFrame.wellFormed (h : g.SameFrame g') (hw : g.WellFormed) : g'.WellFormed := by
  intro f' hf'
  obtain ⟨c, hc⟩ := List.mem_iff_getElem?.mp hf'
  obtain ⟨f, hf, hmembers, hsize⟩ := h.exists_factor hc
  have hwf := hw f (List.mem_of_getElem? hf)
  rw [Factor.WellFormed, Factor.size, hmembers, hsize, h.numNodes_eq]
  exact hwf

theorem SameFrame.mirrors (h : g.SameFrame g') (hg : g.Mirrors m) : g'.Mirrors m :=
  ⟨h.numNodes_eq.trans hg.numNodes_eq, h.members_eq.trans hg.members_eq,
    h.wellFormed hg.wellFormed⟩

theorem SameFrame.fits (h : g.SameFrame g') (hg : g.Fits m) : g'.Fits m := by
  rcases hg with ⟨hnone, hnodes⟩ | hg
  · refine .inl ⟨?_, by rw [h.numNodes_eq]; exact hnodes⟩
    have hmembers := h.members_eq
    rw [hnone] at hmembers
    exact List.map_eq_nil_iff.mp hmembers
  · exact .inr (h.mirrors hg)

/-- A change to what a graph holds, not to the graph. -/
structure Edit where
  apply : Graph → Graph
  sameFrame : ∀ g : Graph, g.SameFrame (apply g)

end Graph

/-- All graphs that fit a model are set up alike. -/
theorem fit_agrees (hw : m.WellFormed) (hg : g.Fits m) (hg' : g'.Fits m)
    {E : Graph → Graph → Prop} :
    Agree (fit m) (fit m) g g' (fun _ g₁ g₁' => g₁.Mirrors m ∧ g₁'.Mirrors m) E := by
  obtain ⟨⟨⟩, hok, hmirrors⟩ := (fit_ends hw g).exists_ok_of fun _ _ hf => hf.2 hg
  obtain ⟨⟨⟩, hok', hmirrors'⟩ := (fit_ends hw g').exists_ok_of fun _ _ hf => hf.2 hg'
  exact agree_of_ok hok hok' ⟨hmirrors hg, hmirrors' hg'⟩

end Cut

namespace Solver

variable {τ : Type} {m : Model} {s t : Solver Unit τ}

/-! ### Starting on different graphs -/

/-- Two solvers without tables that differ in the engine and the configuration, on graphs with `P`. -/
inductive Unstarted (P : Cut.Graph → Prop) (s : Solver Unit τ) : Solver Unit τ → Prop
  | intro (engine : Cut.Engine Unit) (config : Config) (phase_eq : s.phase = .uninitialized)
      (left : P s.graph) (right : P engine.graph) :
      Unstarted P s (s.exchange engine s.proposed config)

namespace Unstarted

variable {P P' : Cut.Graph → Prop}

theorem mono (h : Unstarted P s t) (hP : ∀ g, P g → P' g) : Unstarted P' s t := by
  cases h with
  | intro engine config hphase hleft hright =>
    exact .intro engine config hphase (hP _ hleft) (hP _ hright)

theorem phase_eq (h : Unstarted P s t) : s.phase = .uninitialized := by
  cases h with
  | intro _ _ hphase => exact hphase

theorem phase_eq' (h : Unstarted P s t) : t.phase = .uninitialized := by
  cases h with
  | intro _ _ hphase => exact hphase

theorem labeling_eq (h : Unstarted P s t) : t.labeling = s.labeling := by
  cases h; rfl

theorem capture_eq (h : Unstarted P s t) : Snapshot.capture t = Snapshot.capture s := by
  cases h; rfl

/-- Other graphs with `P'`. -/
theorem withGraph (h : Unstarted P s t) {g g' : Cut.Graph} (hg : P' g) (hg' : P' g') :
    Unstarted P' (s.withGraph g) (t.withGraph g') := by
  cases h with
  | intro engine config hphase =>
    exact .intro { engine with graph := g' } config hphase hg hg'

/-- A change that neither reads nor writes engine, configuration and phase. -/
theorem map (h : Unstarted P s t) {f : Solver Unit τ → Solver Unit τ}
    (hf : ∀ engine config,
      f (s.exchange engine s.proposed config) = (f s).exchange engine (f s).proposed config)
    (hphase : (f s).phase = s.phase) : Unstarted P (f s) (f t) := by
  have hself : f s = (f s).exchange s.engine (f s).proposed s.config := hf s.engine s.config
  have hengine : (f s).engine = s.engine := by
    rw [hself]
    rfl
  cases h with
  | intro engine config hunstarted hleft hright =>
    rw [hf engine config]
    refine .intro engine config (hphase.trans hunstarted) ?_ hright
    rw [graph, hengine]
    exact hleft

end Unstarted

theorem checkModel_agrees {E : Solver Unit τ → Solver Unit τ → Prop} (h : E s t) :
    Agree (checkModel m) (checkModel m) s t (fun _ s' t' => m.WellFormed ∧ s' = s ∧ t' = t) E := by
  unfold checkModel
  cases hfault : m.fault? with
  | none => exact agree_pure ⟨Model.fault?_eq_none_iff.mp hfault, rfl, rfl⟩
  | some fault => exact agree_bind (agree_record (agree_fail h))

/-- The same tables are built, or the same fault stops it, on all graphs that fit. -/
theorem buildTables_agrees (h : Unstarted (Cut.Graph.Fits m) s t) :
    Agree (buildTables m) (buildTables m) s t
      (fun _ s' t' => m.WellFormed ∧ Unstarted (Cut.Graph.Mirrors m) s' t')
      (Unstarted (Cut.Graph.Fits m)) := by
  unfold buildTables
  refine agree_bind (agree_require (fun _ => ?_) fun _ => h)
  refine agree_bind ((checkModel_agrees h).mono_ok fun _ s₁ t₁ h₁ => ?_)
  obtain ⟨hw, rfl, rfl⟩ := h₁
  have hfits : s₁.graph.Fits m ∧ t₁.graph.Fits m := by
    cases h with
    | intro _ _ _ hleft hright => exact ⟨hleft, hright⟩
  refine agree_bind (agree_zoom ((Cut.fit_agrees hw hfits.1 hfits.2).mono_ok fun _ g g' hg => ?_))
  have hmirrors : Unstarted (Cut.Graph.Mirrors m) (s₁.withGraph g) (t₁.withGraph g') :=
    h.withGraph hg.1 hg.2
  refine agree_bind (agree_require (fun _ => ?_) fun _ => hmirrors.mono fun _ hg => hg.fits)
  exact agree_modify ⟨hw, hmirrors.map (fun _ _ => rfl) rfl⟩

/-- Solvers without tables start alike.  If they succeed they are twins, and else without tables as
    before. -/
theorem start_agrees (h : Unstarted (Cut.Graph.Fits m) s t) :
    Agree (start m) (start m) s t (fun _ s' t' => m.WellFormed ∧ Twin m s' t')
      (Unstarted (Cut.Graph.Fits m)) := by
  unfold start
  refine agree_bind ((buildTables_agrees h).mono_ok fun _ s₁ t₁ h₁ => ?_)
  obtain ⟨hw, h₁⟩ := h₁
  have hchosen : Unstarted (Cut.Graph.Mirrors m) (chooseLabels m s₁) (chooseLabels m t₁) :=
    h₁.map (fun _ _ => rfl) rfl
  refine agree_bind (agree_modify (agree_bind ?_))
  refine (agree_forEach_zipIdx (I := fun _ => Unstarted (Cut.Graph.Mirrors m))
    (fun c clique _ s₂ t₂ h₂ => ?_) hchosen).mono_ok fun _ s₃ t₃ h₃ => ?_
  · unfold seed
    refine agree_get_bind ?_
    dsimp only
    rw [h₂.labeling_eq]
    refine agree_bind (checkEnergy_agrees ?_ (h₂.mono fun _ hg => hg.fits) _ _ _)
    exact agree_modify (h₂.map (fun _ _ => rfl) rfl)
  · refine agree_bind (agree_modify (agree_get_bind (agree_record ⟨hw, ?_⟩)))
    cases h₃ with
    | intro engine config _ hleft hright =>
      exact .intro engine s₃.proposed config (by simp) hleft hright rfl (.inl rfl)

/-! ### Calls and edits -/

/-- Two solvers over one model that answer alike: both without tables on graphs that fit, or twins. -/
inductive Akin (m : Model) (s t : Solver Unit τ) : Prop
  | unstarted : Unstarted (Cut.Graph.Fits m) s t → Akin m s t
  | twin : m.WellFormed → Twin m s t → Akin m s t

namespace Akin

theorem capture_eq (h : Akin m s t) : Snapshot.capture t = Snapshot.capture s := by
  cases h with
  | unstarted h => exact h.capture_eq
  | twin _ h => exact h.capture_eq

/-- An edit in one of them keeps solvers akin. -/
theorem edit (h : Akin m s t) (e : Cut.Graph.Edit) :
    Akin m s (t.withGraph (e.apply t.graph)) := by
  have hframe := e.sameFrame t.graph
  show Akin m (s.withGraph s.graph) _
  cases h with
  | unstarted h =>
    refine .unstarted (h.withGraph ?_ ?_)
    · cases h with
      | intro _ _ _ hleft => exact hleft
    · cases h with
      | intro _ _ _ _ hright => exact hframe.fits hright
  | twin hw h => exact .twin hw (h.withGraph h.left (hframe.mirrors h.right))

theorem ensureStarted_agrees (h : Akin m s t) :
    Agree (ensureStarted m) (ensureStarted m) s t (fun _ s' t' => m.WellFormed ∧ Twin m s' t')
      (Akin m) := by
  cases h with
  | unstarted h =>
    unfold ensureStarted
    refine agree_get_bind (agree_ite (by rw [h.phase_eq, h.phase_eq']) (fun _ => ?_)
      fun hphase => absurd h.phase_eq hphase)
    exact (start_agrees h).mono (fun _ _ _ h => h) fun _ _ h => .unstarted h
  | twin hw h =>
    exact (Solver.ensureStarted_agrees h).mono (fun _ _ _ h => ⟨hw, h⟩) fun _ _ h => .twin hw h

/-- Solvers that are akin answer a call alike, and stay akin. -/
theorem run (h : Akin m s t) (call : Call) :
    (call.run m Cut.maxFlow t).1 = (call.run m Cut.maxFlow s).1 ∧
      Akin m (call.run m Cut.maxFlow s).2 (call.run m Cut.maxFlow t).2 := by
  have htwin : ∀ s' t' : Solver Unit τ, m.WellFormed → Twin m s' t' → Akin m s' t' :=
    fun _ _ => .twin
  have hiterate : ∀ budget, Agree (iterate m Cut.maxFlow budget) (iterate m Cut.maxFlow budget) s t
      (fun _ => Akin m) (Akin m) := fun budget =>
    (iterate_agrees_of_start h.ensureStarted_agrees htwin budget).mono_ok
      fun _ s' t' h' => htwin s' t' h'.1 h'.2
  cases call with
  | solve => exact ⟨congrArg Reply.report (hiterate maxBudget).result_eq, (hiterate maxBudget).state⟩
  | iterate budget =>
    exact ⟨congrArg Reply.report (hiterate budget).result_eq, (hiterate budget).state⟩
  | lowerBound =>
    have hagree := (lowerBound_agrees_of_start h h.ensureStarted_agrees htwin).mono_ok
      fun _ s' t' h' => htwin s' t' h'.1 h'.2
    exact ⟨congrArg Reply.bound hagree.result_eq, hagree.state⟩

end Akin

/-- The answers of a sequence of calls, each with the snapshot after it, where the graph is edited
    before every call. -/
def editedTranscript (m : Model) (o : Cut.Oracle Unit) (s : Solver Unit τ) :
    List (Cut.Graph.Edit × Call) → List (Reply × Snapshot)
  | [] => []
  | (edit, call) :: steps =>
    let after := call.run m o (s.withGraph (edit.apply s.graph))
    (after.1, Snapshot.capture after.2) :: editedTranscript m o after.2 steps

/-- Edits do not show in the answers. -/
theorem Akin.transcript_eq (h : Akin m s t) (steps : List (Cut.Graph.Edit × Call)) :
    editedTranscript m Cut.maxFlow t steps
      = transcript m Cut.maxFlow s (steps.map fun step => step.2) := by
  induction steps generalizing s t with
  | nil => rfl
  | cons step steps ih =>
    obtain ⟨edit, call⟩ := step
    obtain ⟨hreply, hakin⟩ := (h.edit edit).run call
    rw [List.map_cons, transcript, editedTranscript, hreply, hakin.capture_eq, ih hakin]

/-- Nothing that is left in a graph shows.  A solver is handed a graph whose nodes and members are
    those of the model, or that has yet to get them, with any costs, constant, flags, tables,
    potentials and labels; before every call someone edits all these as they like.  For every model
    and strategy and every sequence of calls it gives the answers, faults included, and has after
    each call the labels, duals, heights and counters of a solver that works on a graph of its own. -/
theorem editedTranscript_eq {g : Cut.Graph} (hfits : g.Fits m) (config : Config)
    (strategy : Strategy τ) (steps : List (Cut.Graph.Edit × Call)) :
    editedTranscript m Cut.maxFlow (setStrategy strategy (Solver.new ⟨g, ()⟩ config)).state steps
      = transcript m Cut.maxFlow
          (setStrategy strategy (Solver.new ⟨Cut.Graph.empty, ()⟩ config)).state
          (steps.map fun step => step.2) := by
  have hunstarted : Unstarted (Cut.Graph.Fits m)
      (setStrategy strategy (Solver.new ⟨Cut.Graph.empty, ()⟩ config)).state
      (setStrategy strategy (Solver.new ⟨g, ()⟩ config)).state :=
    .intro ⟨g, ()⟩ config rfl (Cut.Graph.fits_empty m) hfits
  exact Akin.transcript_eq (.unstarted hunstarted) steps

/-- A graph whose tables, costs and flags would keep every label where it is, and which someone fills
    with nines and fixes from the second node on before every call. -/
theorem editedTranscript_eq_triple :
    let m : Model := .ofRows 2 #[#[0, 3], #[4, 1], #[0, 1]] [.potts [0, 1, 2] 5]
    let g : Cut.Graph :=
      ⟨#[⟨0, 70, true⟩, ⟨-8, 0, true⟩, ⟨0, 0, false⟩],
        [⟨[0, 1, 2], #[3, 3, 0, 0, 0, 9, 0, 0], #[4, -4, 1]⟩], -6, #[true, true, true, true, false]⟩
    let nines : Cut.Graph.Edit :=
      ⟨fun g => { g with
          factors := g.factors.map fun f => { f with table := f.table.map fun _ => 9 }
          constant := 9
          fixed := #[false, true, true] },
        fun g => ⟨rfl, by simp, by simp⟩⟩
    let next : Callback Nat := fun calls _ _ previous =>
      (fun v => (previous.getD v 0 + 1) % 2, calls + 1)
    g.Fits m ∧
      (iterate m Cut.maxFlow 1 (setStrategy (.custom next 0)
        (Solver.new ⟨Cut.Graph.empty, ()⟩ .standard)).state).state.labels = #[1, 1, 1] ∧
      ∀ calls, editedTranscript m Cut.maxFlow (setStrategy (.custom next 0)
          (Solver.new ⟨g, ()⟩ .standard)).state (calls.map fun call => (nines, call))
        = transcript m Cut.maxFlow (setStrategy (.custom next 0)
            (Solver.new ⟨Cut.Graph.empty, ()⟩ .standard)).state calls := by
  intro m g nines next
  have hfits : g.Fits m := .inr ⟨by decide, by decide, by decide⟩
  refine ⟨hfits, by decide +kernel, fun calls => ?_⟩
  have hcalls : (calls.map fun call => (nines, call)).map (fun step => step.2) = calls := by
    rw [List.map_map]
    exact List.map_id' calls
  have heq := editedTranscript_eq hfits .standard (.custom next 0)
    (calls.map fun call => (nines, call))
  rwa [hcalls] at heq

end Solver

end FusionMove
