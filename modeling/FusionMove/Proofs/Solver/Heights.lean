import Mathlib.Data.List.Nodup
import Mathlib.Data.List.Sigma
import FusionMove.Proofs.Solver.Reached

namespace FusionMove

/-!
# Heights after every operation

Heights are never computed anew: every write to a dual is accompanied by one to a height.  An
operation may stop in the middle of a loop over the cliques, with some duals rewritten and others
not; tightness is lost then, but heights still belong to the duals.

* `Solver.Tabled` — a ready solver with its table of places and a proposal in range;
* `Solver.Booked` — a solver without tables, or a tabled one; every operation keeps this, whether it
  succeeds or faults;
* `Solver.Spared` — what a failed operation leaves, tables or all but the graph as it was;
* `Solver.Driven` — the states that operations lead to, failed ones included;
* `Solver.driven_showsHeights` — in these states every height is the unary cost plus the duals of
  the places of its variable.
-/

open FusionMove.Action
open scoped CoreArithmetic

/-! ### Places -/

theorem nodup_positions (members : List Nat) (v : Nat) : (positions members v).Nodup := by
  refine List.Nodup.filterMap (fun p q i hp hq => ?_)
    (List.Nodup.of_map Prod.snd (List.nodup_zipIdx_map_snd members))
  rw [Option.mem_def, Option.ite_none_right_eq_some, Option.some.injEq] at hp hq
  exact Prod.ext (hp.1.trans hq.1.symm) (hp.2.trans hq.2.symm)

/-- No place is listed twice. -/
theorem nodup_incidence (memberLists : List (List Nat)) (v : Nat) :
    (incidence memberLists v).Nodup := by
  refine List.nodup_flatMap.mpr ⟨fun p _ => ?_, ?_⟩
  · exact (nodup_positions p.1 v).map fun i j h => (Prod.mk.inj h).2
  · -- the places in different lists differ in the index of the list
    refine (List.pairwise_map.mp (List.nodup_zipIdx_map_snd memberLists)).imp fun hne => ?_
    simp only [Function.onFun, List.disjoint_left, List.mem_map]
    rintro _ ⟨i, -, rfl⟩ ⟨j, -, heq⟩
    exact hne (Prod.mk.inj heq).1.symm

namespace Solver

variable {σ τ : Type} {m : Model} {s : Solver σ τ} {c : Nat} {clique : Clique}

/-! ### Solvers with tables -/

/-- The tables are allocated. -/
def Allocated (s : Solver σ τ) : Prop :=
  s.numLabels ≠ 0

/-- A ready solver with its table of places and a proposal in range.  Its duals need not be tight. -/
structure Tabled (m : Model) (s : Solver σ τ) : Prop extends Ready m s where
  places_eq : s.places = Array.ofFn fun v : Fin m.numVars => Certificate.places m v
  proposal_lt : ∀ v, s.proposal v < m.numLabels

/-- A solver without tables, or a tabled one. -/
def Booked (m : Model) (s : Solver σ τ) : Prop :=
  (s.phase = .uninitialized ∧ ¬ s.Allocated) ∨ Tabled m s

/-- Tables are in order if only engine, counters, phase or strategy change. -/
theorem Tabled.of_eq (h : Tabled m s) {s' : Solver σ τ} (hn : s'.numLabels = s.numLabels)
    (hl : s'.labels = s.labels) (hp : s'.proposed = s.proposed) (hpl : s'.places = s.places)
    (hc : s'.certificate = s.certificate) : Tabled m s' := by
  refine ⟨h.toReady.of_eq hn hl hp hc, by rw [hpl, h.places_eq], fun v => ?_⟩
  rw [proposal, hp]
  exact h.proposal_lt v

/-- So they are with another graph. -/
theorem Tabled.withGraph (h : Tabled m s) (g : Cut.Graph) : Tabled m (s.withGraph g) :=
  h.of_eq rfl rfl rfl rfl rfl

theorem Booked.withGraph (h : Booked m s) (g : Cut.Graph) : Booked m (s.withGraph g) :=
  h.imp id fun htabled => htabled.withGraph g

/-- A booked solver that has started has tables. -/
theorem Booked.tabled (h : Booked m s) (hphase : s.phase ≠ .uninitialized) : Tabled m s :=
  h.resolve_left fun hfresh => hphase hfresh.1

theorem tabled_allocate (hv : m.Valid) (s : Solver σ τ) : Tabled m (allocate m s) := by
  refine ⟨ready_allocate hv s, rfl, getD_lt_of_forall_mem hv.numLabels_pos fun l hl => ?_⟩
  obtain ⟨-, rfl⟩ := Array.mem_replicate.mp hl
  exact hv.numLabels_pos

/-- Any amount may be split over a clique. -/
theorem Tabled.spreadEvenly (h : Tabled m s) (hclique : m.cliques[c]? = some clique) (amount : Int) :
    Tabled m (s.spreadEvenly c clique amount) :=
  ⟨h.toReady.withCertificate (h.shaped.spread hclique h.labeling_lt _)
    (h.shaped.consistent_spread h.consistent h.wellFormed hclique h.labeling_lt _),
    h.places_eq, h.proposal_lt⟩

/-- Any answer may be taken over. -/
theorem Tabled.fused (h : Tabled m s) (engine : Cut.Engine σ) (answer : Cut.Answer) :
    Tabled m (Solver.fused m s engine answer) :=
  ⟨ready_fused h.toReady h.proposal_lt engine answer, h.places_eq, h.proposal_lt⟩

/-- What an operation leaves when it fails: tables, or a solver in which nothing but the graph has
    changed. -/
def Spared (m : Model) (s s' : Solver σ τ) : Prop :=
  (∃ g, s' = s.withGraph g) ∨ Tabled m s'

theorem Spared.booked {s' : Solver σ τ} (h : Spared m s s') (hb : Booked m s) : Booked m s' := by
  rcases h with ⟨g, rfl⟩ | htabled
  · exact hb.withGraph g
  · exact .inr htabled

/-- An operation that leaves tables, or spares the solver, keeps it booked. -/
theorem keeps_of_spared {α : Type} {x : Action (Solver σ τ) α}
    (h : ∀ s, Booked m s → Ends x s (fun _ s' => Tabled m s') fun _ s' => Spared m s s') :
    Keeps (Booked m) x :=
  keeps_iff_ends.mpr fun s hb => (h s hb).mono (fun _ _ => .inr) fun _ _ hs => hs.booked hb

/-! ### Checks -/

theorem keeps_checkEnergy (P : Solver σ τ → Prop) (c : Nat) (labels : List Nat) (energy : Int) :
    Keeps P (checkEnergy c labels energy) := by
  unfold checkEnergy
  split
  · exact keeps_bind (keeps_record P _) fun _ => keeps_fail P _
  · exact keeps_pure P ()

theorem keeps_checkFeasible (P : Solver σ τ → Prop) (c : Nat) (clique : Clique)
    (energy dualSum : Int) : Keeps P (checkFeasible c clique energy dualSum) := by
  unfold checkFeasible
  refine keeps_get_bind fun s _ => ?_
  split
  · exact keeps_bind (keeps_record P _) fun _ => keeps_fail P _
  · exact keeps_pure P ()

theorem keeps_checkResidual (P : Solver σ τ → Prop) (c : Nat) (clique : Clique)
    (table : Array Int) : Keeps P (checkResidual c clique table) := by
  unfold checkResidual
  refine keeps_get_bind fun s _ => ?_
  dsimp only
  split
  · exact keeps_bind (keeps_record P _) fun _ => keeps_fail P _
  · exact keeps_pure P ()

/-! ### Starting -/

theorem keeps_seed (hclique : m.cliques[c]? = some clique) :
    Keeps (Tabled m : Solver σ τ → Prop) (seed c clique) := by
  unfold seed
  exact keeps_get_bind fun s _ => keeps_bind (keeps_checkEnergy _ _ _ _) fun _ =>
    keeps_modify fun s h => h.spreadEvenly hclique _

/-- A start leaves the counters and the strategy alone. -/
theorem keeps_start (idle iteration : Nat) (strategy : Strategy τ) :
    Keeps (fun s : Solver σ τ => s.idle = idle ∧ s.iteration = iteration ∧ s.strategy = strategy)
      (start m) := by
  unfold start
  refine keeps_bind (keeps_iff_ends.mpr fun s h => (buildTables_ends m s).mono
    (fun _ s' h' => ?_) fun _ s' h' => ?_) fun _ => keeps_bind (keeps_modify fun s h => h) fun _ =>
      keeps_bind (keeps_forEach fun p _ => ?_) fun _ => keeps_bind (keeps_modify fun s h => h)
        fun _ => keeps_get_bind fun s _ => keeps_record _ _
  · obtain ⟨-, -, g, rfl⟩ := h'
    exact h
  · obtain ⟨-, ⟨g, rfl⟩, -⟩ := h'
    exact h
  · unfold seed
    exact keeps_get_bind fun s _ => keeps_bind (keeps_checkEnergy _ _ _ _) fun _ =>
      keeps_modify fun s h => h

/-- A start that succeeds leaves tables; one that fails leaves tables too, or has changed nothing but
    the graph. -/
theorem start_tables (m : Model) (s : Solver σ τ) :
    Ends (start m) s (fun _ s' => Tabled m s') fun _ s' => Spared m s s' := by
  unfold start
  refine ends_bind ((buildTables_ends m s).mono (fun _ s₁ h₁ => ?_) fun fault s₁ h₁ => .inl h₁.2.1)
  obtain ⟨hv, -, g, rfl⟩ := h₁
  have htabled := tabled_allocate hv (s.withGraph g)
  have hchosen : Tabled m (chooseLabels m (allocate m (s.withGraph g))) :=
    ⟨ready_chooseLabels htabled.toReady, htabled.places_eq, htabled.proposal_lt⟩
  refine ends_bind (ends_modify (ends_bind ?_))
  -- a seed may fault, and keeps the tables in order then too
  have hseeds : Keeps (Tabled m : Solver σ τ → Prop)
      (forEach m.cliques.zipIdx fun p => seed p.2 p.1) :=
    keeps_forEach fun p hp => keeps_seed (List.mem_zipIdx_iff_getElem?.mp hp)
  refine (keeps_iff_ends.mp hseeds _ hchosen).mono (fun _ s₂ h₂ => ?_) fun _ _ => .inr
  exact ends_bind (ends_modify (ends_bind (ends_get (ends_record
    (h₂.of_eq rfl rfl rfl rfl rfl)))))

theorem ensureStarted_tables (h : Booked m s) :
    Ends (ensureStarted m) s (fun _ s' => Tabled m s') fun _ s' => Spared m s s' := by
  unfold ensureStarted
  refine ends_bind (ends_get ?_)
  split
  · exact start_tables m s
  · rename_i hphase
    exact ends_pure (h.tabled hphase)

/-! ### Iterating -/

theorem keeps_propose : Keeps (Tabled m : Solver σ τ → Prop) propose := by
  refine keeps_iff_ends.mpr fun s h => (propose_ends h.toReady).mono (fun _ s' h' => ?_)
    fun _ _ hf => hf.elim
  obtain ⟨f, strategy, -, rfl, hready, hp⟩ := h'
  exact ⟨hready, h.places_eq, hp⟩

section

variable {P : Solver σ τ → Prop}

/-- Loading tables keeps what does not depend on the graph. -/
theorem keeps_loadTables_of (hgraph : ∀ s g, P s → P (s.withGraph g)) : Keeps P (loadTables m) := by
  unfold loadTables
  refine keeps_bind (keeps_modify fun s h => hgraph _ _ h) fun _ => keeps_forEach fun p _ => ?_
  unfold loadTable
  exact keeps_get_bind fun s _ => keeps_bind (keeps_ofExcept _ _) fun table =>
    keeps_bind (keeps_modify fun s h => hgraph _ _ h) fun _ => keeps_checkResidual _ _ _ _

/-- Neither the answer of an oracle nor its fault disturbs what no engine and no answer does. -/
theorem keeps_fuse_of (o : Cut.Oracle σ) (hengine : ∀ s engine, P s → P { s with engine := engine })
    (hfused : ∀ s engine answer, P s → P (fused m s engine answer)) : Keeps P (fuse m o) := by
  refine keeps_iff_ends.mpr fun s h => (fuse_ends m o s).mono (fun _ s' h' => ?_)
    fun _ s' hf => ?_
  · obtain ⟨answer, engine, rfl, -⟩ := h'
    exact hfused s engine answer h
  · obtain ⟨-, engine, rfl⟩ := hf
    exact hengine s engine h

/-- A repair may stop at any clique, with the duals of those before it rewritten. -/
theorem keeps_repair_of (hspread : ∀ s c clique amount, m.cliques[c]? = some clique → P s →
    P (s.spreadEvenly c clique amount)) : Keeps P (repair m) := by
  unfold repair
  refine keeps_forEach fun p hp => ?_
  unfold repairClique
  exact keeps_get_bind fun s _ => keeps_bind (keeps_checkEnergy _ _ _ _) fun _ =>
    keeps_bind (keeps_checkFeasible _ _ _ _ _) fun _ =>
      keeps_modify fun s h => hspread s _ _ _ (List.mem_zipIdx_iff_getElem?.mp hp) h

/-- A move keeps what each of its writes keeps. -/
theorem keeps_fusionMove_of (o : Cut.Oracle σ)
    (hengine : ∀ s engine, P s → P { s with engine := engine })
    (hfused : ∀ s engine answer, P s → P (fused m s engine answer))
    (hspread : ∀ s c clique amount, m.cliques[c]? = some clique → P s →
      P (s.spreadEvenly c clique amount)) : Keeps P (fusionMove m o) := by
  unfold fusionMove
  exact keeps_bind (keeps_loadTables_of fun s g h => hengine s _ h) fun _ =>
    keeps_bind (keeps_fuse_of o hengine hfused) fun _ =>
      keeps_bind (keeps_repair_of hspread) fun _ => keeps_pure _ _

end

/-- A move keeps the tables in order, whatever the oracle answers and wherever the move stops. -/
theorem keeps_fusionMove (o : Cut.Oracle σ) :
    Keeps (Tabled m : Solver σ τ → Prop) (fusionMove m o) :=
  keeps_fusionMove_of o (fun _ _ h => h.of_eq rfl rfl rfl rfl rfl)
    (fun _ engine answer h => h.fused engine answer)
    fun _ _ _ amount hclique h => h.spreadEvenly hclique amount

theorem keeps_round (o : Cut.Oracle σ) : Keeps (Tabled m : Solver σ τ → Prop) (round m o) := by
  unfold round
  refine keeps_bind keeps_propose fun _ => keeps_get_bind fun s _ => ?_
  split
  · exact keeps_pure _ _
  · unfold complete
    refine keeps_bind (keeps_fusionMove o) fun switched => ?_
    refine keeps_bind (keeps_bind (keeps_modify fun s h => ?_) fun _ => ?_) fun _ => keeps_pure _ _
    · exact h.of_eq rfl rfl rfl rfl rfl
    · exact keeps_get_bind fun s _ => keeps_record _ _

theorem keeps_enter (phase : Phase) : Keeps (Tabled m : Solver σ τ → Prop) (enter phase) :=
  keeps_modify fun _ h => h.of_eq rfl rfl rfl rfl rfl

theorem keeps_rounds (o : Cut.Oracle σ) (patience budget : Nat) :
    Keeps (Tabled m : Solver σ τ → Prop) (rounds m o patience budget) := by
  induction budget with
  | zero => exact keeps_pure _ 0
  | succ budget ih =>
    unfold rounds
    refine keeps_bind (keeps_round o) fun fused => keeps_get_bind fun s _ => ?_
    split
    · exact keeps_bind (keeps_enter _) fun _ => keeps_pure _ _
    · split
      · exact keeps_bind (keeps_enter _) fun _ => keeps_pure _ _
      · exact keeps_bind ih fun _ => keeps_pure _ _

theorem iterate_tables (o : Cut.Oracle σ) (budget : Nat) (h : Booked m s) :
    Ends (iterate m o budget) s (fun _ s' => Tabled m s') fun _ s' => Spared m s s' := by
  refine ends_iterate ((ensureStarted_tables h).mono_ok fun _ s₁ h₁ => ⟨fun _ => h₁, fun _ => ?_⟩)
  have hentered : Tabled m { s₁ with phase := .iterating } := h₁.of_eq rfl rfl rfl rfl rfl
  exact (keeps_iff_ends.mp (keeps_rounds o _ budget) _ hentered).mono
    (fun _ s₂ h₂ => h₂.of_eq rfl rfl rfl rfl rfl) fun _ _ => .inr

theorem keeps_iterate (o : Cut.Oracle σ) (budget : Nat) :
    Keeps (Booked m : Solver σ τ → Prop) (iterate m o budget) :=
  keeps_of_spared fun _ => iterate_tables o budget

/-! ### Lower bounds -/

/-- Whatever the duals of a triple sum to, settling it keeps the heights with the duals. -/
theorem keeps_settle (hclique : m.cliques[c]? = some clique) {triple : List Nat}
    (hlen : triple.length = clique.size) (hlabels : ∀ l ∈ triple, l < m.numLabels) (dualSum : Int) :
    Keeps (Tabled m : Solver σ τ → Prop) (settle c clique triple dualSum) := by
  unfold settle
  refine keeps_get_bind fun s _ => ?_
  dsimp only
  cases hdiff : firstDifference triple (clique.labelsAt s.labeling) with
  | some i =>
    have hi := (firstDifference_eq_some hdiff).1
    have hl : triple.getD i 0 < m.numLabels := by
      rw [List.getD_eq_getElem?_getD, List.getElem?_eq_getElem hi]
      exact hlabels _ (List.getElem_mem hi)
    exact keeps_modify fun s h => ⟨h.toReady.shift hclique (hlen ▸ hi) hl _, h.places_eq,
      h.proposal_lt⟩
  | none =>
    show Keeps _ (if dualSum ≠ 0 then _ else _)
    split
    · exact keeps_bind (keeps_record _ _) fun _ => keeps_fail _ _
    · exact keeps_pure _ ()

section

variable {α : Type} [IntCast α] [Div α] [LE α] [DecidableLE α]

theorem keeps_visitClique (hclique : m.cliques[c]? = some clique) (hsize : clique.size = 3)
    (ratio : α) : Keeps (Tabled m : Solver σ τ → Prop) (visitClique ratio (clique, c)) := by
  unfold visitClique
  refine keeps_get_bind fun s h => keeps_foldlM (fun ratio triple htriple => ?_) ratio
  rw [h.numLabels_eq] at htriple
  obtain ⟨hlen, hlabels⟩ := mem_triples.mp htriple
  unfold visitTriple
  refine keeps_get_bind fun s _ => ?_
  dsimp only
  split
  · exact keeps_fail _ _
  · split
    · exact keeps_bind (keeps_settle hclique (hlen.trans hsize.symm) hlabels _) fun _ =>
        keeps_pure _ _
    · exact keeps_pure _ _

theorem measure_tables (h : Booked m s) :
    Ends (measure m : Action (Solver σ τ) (Bound α)) s (fun _ s' => Tabled m s')
      fun _ s' => Spared m s s' := by
  unfold measure
  refine ends_bind ((checkTriples_ends m s).mono (fun _ s₁ h₁ => ?_) fun _ s₁ hf => ?_)
  · obtain ⟨rfl, hsizes⟩ := h₁
    have hloop : Keeps (Tabled m : Solver σ τ → Prop)
        (m.cliques.zipIdx.foldlM visitClique ((0 : Int) : α)) := by
      refine keeps_foldlM (fun ratio p hp => ?_) _
      obtain ⟨clique, c⟩ := p
      have hclique := List.mem_zipIdx_iff_getElem?.mp hp
      exact keeps_visitClique hclique (hsizes clique (List.mem_of_getElem? hclique)) ratio
    refine ends_bind ((ensureStarted_tables h).mono_ok fun _ s₂ h₂ => ends_bind
      ((keeps_iff_ends.mp hloop s₂ h₂).mono (fun ratio s₃ h₃ => ?_) fun _ _ => .inr))
    exact ends_bind (ends_get (ends_pure h₃))
  · exact .inl ⟨s.graph, hf.1⟩

end

theorem lowerBound_tables (h : Booked m s) :
    Ends (lowerBound m) s (fun _ s' => Tabled m s') fun _ s' => Spared m s s' := by
  unfold lowerBound
  refine ends_bind ((measure_tables h).mono_ok fun b s' h' => ?_)
  split
  · exact ends_bind (ends_record (ends_pure h'))
  · exact ends_bind (ends_record (ends_pure h'))

theorem keeps_lowerBound : Keeps (Booked m : Solver σ τ → Prop) (lowerBound m) :=
  keeps_of_spared fun _ => lowerBound_tables

/-! ### Snapshots and strategies -/

/-- What a snapshot is loaded into has its tables in order. -/
theorem Prepared.tabled {s₁ : Solver σ τ} (hp : Prepared m s s₁) (h : Booked m s) :
    Tabled m s₁ := by
  cases hp with
  | started hphase => exact h.tabled hphase
  | fresh g _ hv _ => exact tabled_allocate hv _

/-- A refused snapshot changes no table, and an accepted one was found consistent. -/
theorem restore_tables (p : Snapshot) (h : Booked m s) :
    Ends (restore m p) s (fun _ s' => Tabled m s') fun _ s' => Spared m s s' := by
  refine (restore_restores m p s).mono (fun _ s' h' => ?_) fun fault s' hr => ?_
  · obtain ⟨hshape, hcontent, s₁, hp, rfl⟩ := h'
    have htabled := hp.tabled h
    have hcert := certified_load htabled.toReady (Snapshot.shapeFault?_eq_none_iff.mp hshape)
      (Snapshot.contentFault?_eq_none_iff.mp hcontent)
    exact ⟨hcert.toReady, htabled.places_eq, htabled.proposal_lt⟩
  · cases hr with
    | shape => exact .inl ⟨s.graph, rfl⟩
    | tables g => exact .inl ⟨g, rfl⟩
    | content s₁ _ hp => exact .inr (hp.tabled h)

theorem keeps_restore (p : Snapshot) : Keeps (Booked m : Solver σ τ → Prop) (restore m p) :=
  keeps_of_spared fun _ => restore_tables p

theorem keeps_setStrategy (strategy : Strategy τ) :
    Keeps (Booked m : Solver σ τ → Prop) (setStrategy strategy) := by
  unfold setStrategy
  refine keeps_get_bind fun s _ => keeps_bind (keeps_record _ _) fun _ => keeps_modify fun s h => ?_
  rcases h with ⟨hphase, hfresh⟩ | htabled
  · refine .inl ⟨?_, hfresh⟩
    show (if s.phase = .converged then Phase.exhausted else s.phase) = .uninitialized
    rw [hphase, if_neg (by simp)]
  · exact .inr (htabled.of_eq rfl rfl rfl rfl rfl)

/-! ### Driven states -/

/-- The states that a solver comes to from `s₀` by operations, whether they succeed or fault. -/
inductive Driven (m : Model) (o : Cut.Oracle σ) (s₀ : Solver σ τ) : Solver σ τ → Prop
  | here : Driven m o s₀ s₀
  | iterate {s : Solver σ τ} (budget : Nat) : Driven m o s₀ s →
      Driven m o s₀ (Solver.iterate m o budget s).state
  | lowerBound {s : Solver σ τ} : Driven m o s₀ s → Driven m o s₀ (Solver.lowerBound m s).state
  | restore {s : Solver σ τ} (p : Snapshot) : Driven m o s₀ s →
      Driven m o s₀ (Solver.restore m p s).state
  | setStrategy {s : Solver σ τ} (strategy : Strategy τ) : Driven m o s₀ s →
      Driven m o s₀ (Solver.setStrategy strategy s).state

/-- Every operation keeps a solver booked. -/
theorem Driven.booked {o : Cut.Oracle σ} {s₀ : Solver σ τ} (hd : Driven m o s₀ s)
    (h₀ : Booked m s₀) : Booked m s := by
  induction hd with
  | here => exact h₀
  | iterate budget _ ih => exact keeps_iterate o budget _ ih
  | lowerBound _ ih => exact keeps_lowerBound _ ih
  | restore p _ ih => exact keeps_restore p _ ih
  | setStrategy strategy _ ih => exact keeps_setStrategy strategy _ ih

/-- So do the operations that lead to reached states. -/
theorem Reached.booked {o : Cut.Oracle σ} {s₀ : Solver σ τ} (hr : Reached m o s₀ s)
    (h₀ : Booked m s₀) : Booked m s := by
  induction hr with
  | here => exact h₀
  | iterate budget _ _ ih => exact keeps_iterate o budget _ ih
  | lowerBound _ _ ih => exact keeps_lowerBound _ ih
  | restore p _ ih => exact keeps_restore p _ ih
  | setStrategy strategy _ ih => exact keeps_setStrategy strategy _ ih
  | enter _ hok ih => exact .inr (keeps_enter .iterating _ ((ensureStarted_tables ih).of_ok hok))
  | round _ hphase _ ih => exact .inr (keeps_round o _ (ih.tabled (by rw [hphase]; simp)))

/-- A new solver has no tables. -/
theorem booked_new (engine : Cut.Engine σ) (config : Config) :
    Booked m (Solver.new engine config : Solver σ τ) :=
  .inl ⟨rfl, fun h => h rfl⟩

/-- What a solver with its heights in order shows: the places of every variable, each once, and at
    every label the unary cost plus the duals of these places as its height. -/
structure ShowsHeights (m : Model) (s : Solver σ τ) : Prop where
  nodup_adjacent : ∀ v, (s.adjacent v).Nodup
  mem_adjacent_iff : ∀ v c i, (c, i) ∈ s.adjacent v ↔
    ∃ clique, m.cliques[c]? = some clique ∧ clique.nodes[i]? = some v
  height_eq : ∀ v < m.numVars, ∀ l < m.numLabels, ∃ dual : Nat × Nat → Int,
    (∀ p ∈ s.adjacent v, s.dual? m p.1 p.2 l = some (dual p)) ∧
    s.height? v l = some (m.unary v l + ((s.adjacent v).map dual).sum)

/-- The cliques of a variable are its places. -/
theorem Tabled.adjacent_eq (h : Tabled m s) (v : Nat) : s.adjacent v = Certificate.places m v := by
  unfold adjacent
  rw [h.places_eq, Array.getD_eq_getD_getElem?, Array.getElem?_ofFn]
  split
  · rfl
  · -- what is no variable is no member
    rename_i hv
    refine (List.eq_nil_iff_forall_not_mem.mpr fun p hp => ?_).symm
    obtain ⟨clique, hclique, hi⟩ := mem_incidence_map.mp hp
    exact hv (h.wellFormed.mem_lt hclique (List.mem_of_getElem? hi))

/-- Tables in order show heights in order. -/
theorem Tabled.showsHeights (h : Tabled m s) : s.ShowsHeights m where
  nodup_adjacent v := by
    rw [h.adjacent_eq]
    exact nodup_incidence _ v
  mem_adjacent_iff v c i := by
    rw [h.adjacent_eq]
    exact mem_incidence_map
  height_eq v hv l hl := by
    refine ⟨fun p => s.certificate.dual.get p.1 p.2 l, fun p hp => ?_, ?_⟩
    · rw [h.adjacent_eq] at hp
      obtain ⟨clique, hclique, hi⟩ := mem_incidence_map.mp hp
      exact h.dual?_eq hclique (List.getElem?_eq_some_iff.mp hi).1 hl
    · rw [h.height?_eq hv hl, h.consistent v hv l hl, Certificate.heightFrom, h.adjacent_eq]

/-- Over any oracle and on any graph, a new solver shows heights in order after every operation
    that finds or leaves tables, whether operations succeed or fault.  A solver that has started
    has tables, and one without tables shows no height. -/
theorem driven_showsHeights {o : Cut.Oracle σ} {engine : Cut.Engine σ} {config : Config}
    (hd : Driven m o (Solver.new engine config) s) :
    (s.phase ≠ .uninitialized → s.Allocated) ∧ (s.Allocated → s.ShowsHeights m) ∧
      (¬ s.Allocated → ∀ v l, s.height? v l = none) := by
  have hbooked : Booked m s := hd.booked (booked_new _ _)
  refine ⟨fun hphase => ?_, fun hallocated => ?_, fun hfresh v l => ?_⟩
  · have htabled := hbooked.tabled hphase
    rw [Allocated, htabled.numLabels_eq]
    exact Nat.pos_iff_ne_zero.mp htabled.numLabels_pos
  · exact (hbooked.resolve_left fun h => h.2 hallocated).showsHeights
  · have hzero : s.numLabels = 0 := Decidable.of_not_not hfresh
    exact if_pos (.inr (by rw [hzero]; exact Nat.zero_le l))

/-- Potentials that are all one too small: the repair passes the first clique and stops at the
    second one, in which one variable is a member twice. -/
theorem driven_showsHeights_infeasible :
    let m : Model := .ofRows 2 #[#[0, 3], #[4, 1], #[0, 5]]
      [.affine [2] 2 [0], .potts [0, 1, 0] 6]
    let s₀ : Solver Cut.Skew Unit := Solver.new ⟨Cut.Graph.empty, ⟨-1, 0⟩⟩ .standard
    ∃ s, Driven m Cut.skewed s₀ s ∧ (∃ energy dualSum gap table,
        (iterate m Cut.skewed 2 s₀).result = .error (.dualInfeasible 1 energy dualSum gap table)) ∧
      s = (iterate m Cut.skewed 2 s₀).state ∧ s.labels = #[1, 1, 0] ∧ s.ShowsHeights m := by
  intro m s₀
  have hfault : (iterate m Cut.skewed 2 s₀).result
      = .error (.dualInfeasible 1 0 (-3) 3 [0, 2, 0, 2, 2, -2, 2, -2]) := by decide +kernel
  have hlabels : (iterate m Cut.skewed 2 s₀).state.labels = #[1, 1, 0] := by decide +kernel
  have hallocated : (iterate m Cut.skewed 2 s₀).state.numLabels ≠ 0 := by decide +kernel
  have hd : Driven m Cut.skewed s₀ (iterate m Cut.skewed 2 s₀).state := Driven.here.iterate 2
  exact ⟨_, hd, ⟨_, _, _, _, hfault⟩, rfl, hlabels, (driven_showsHeights hd).2.1 hallocated⟩

end Solver

end FusionMove
