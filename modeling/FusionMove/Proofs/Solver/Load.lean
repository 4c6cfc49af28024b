import FusionMove.Solver.Iterate
import FusionMove.Proofs.Fusion.Table
import FusionMove.Proofs.Mask.Lattice
import FusionMove.Proofs.Solver.Start

namespace FusionMove

/-!
# The fusion problem

What a ready solver with tight duals writes into its graph, and what the graph's energy then says.

* `Certificate.residual` — the residual of a clique at a mask, `Solver.residualTable_eq_ok` — the
  tables hold these;
* `Solver.loadTables_ends` — no table is refused, if there is room for it;
* `Solver.Loaded` — the graph holds the fusion problem of the labeling and the proposal;
* `Solver.Loaded.energy_sub` — up to a constant, the energy of a set of nodes is the energy of the
  labeling in which they have switched;
* `Solver.fusionProblem` — the graph that a move hands to the oracle, and
  `Solver.fusionProblem_energy_sub` — what its energy says.
-/

open FusionMove.Action
open scoped CoreArithmetic

/-! ### Residuals -/

/-- The labeling in which the variables of `S` have switched from `x` to `f`. -/
def fusedLabeling (x f : Nat → Nat) (S : Nat → Bool) (v : Nat) : Nat :=
  if S v then f v else x v

@[simp] theorem fusedLabeling_none (x f : Nat → Nat) : fusedLabeling x f (fun _ => false) = x := by
  ext v
  simp [fusedLabeling]

theorem fusedLabeling_lt {x f : Nat → Nat} {n : Nat} (hx : ∀ v, x v < n) (hf : ∀ v, f v < n)
    (S : Nat → Bool) (v : Nat) : fusedLabeling x f S v < n := by
  unfold fusedLabeling
  split
  · exact hf v
  · exact hx v

/-- What clique `c` costs above its duals when the members in `mask` hold their labels under `f`
    and the others those under `x`. -/
def Certificate.residual (t : Certificate) (c : Nat) (clique : Clique) (x f : Nat → Nat)
    (mask : Nat) : Int :=
  clique.energy (Fusion.mix (clique.labelsAt x) (clique.labelsAt f) mask)
    - sumTo clique.size fun p => t.dual.get c p
        (if mask.testBit p then f (clique.nodes.getD p 0) else x (clique.nodes.getD p 0))

section Residual

variable {m : Model} {c : Nat} {clique : Clique}

/-- The labels of a fusion along a set of variables are those of the fused labeling. -/
theorem mix_maskOf (hw : m.WellFormed) (hclique : m.cliques[c]? = some clique) (x f : Nat → Nat)
    (S : Nat → Bool) :
    Fusion.mix (clique.labelsAt x) (clique.labelsAt f) (Mask.ofBits (clique.nodes.map S))
      = clique.labelsAt (fusedLabeling x f S) := by
  rw [hw.labelsAt_eq hclique, hw.labelsAt_eq hclique, hw.labelsAt_eq hclique]
  apply List.ext_getElem?
  intro p
  rw [Fusion.getElem?_mix, List.getElem?_map, List.getElem?_map, Mask.testBit_ofBits_map,
    List.getD_eq_getElem?_getD, List.getElem?_map]
  cases hv : clique.nodes[p]? with
  | none => rfl
  | some v =>
    cases hS : S v <;> simp [fusedLabeling, hS]

/-- The residual along a set of variables is what the clique costs above its duals at the fused
    labeling. -/
theorem Certificate.residual_maskOf (hw : m.WellFormed) (hclique : m.cliques[c]? = some clique)
    (t : Certificate) (x f : Nat → Nat) (S : Nat → Bool) :
    t.residual c clique x f (Mask.ofBits (clique.nodes.map S))
      = clique.energyAt (fusedLabeling x f S)
        - t.dualSum c (clique.labelsAt (fusedLabeling x f S)) := by
  rw [residual, mix_maskOf hw hclique, dualSum_labelsAt hw hclique, Clique.energyAt]
  congr 1
  apply sumTo_congr
  intro p hp
  rw [Mask.testBit_ofBits_map, Clique.getElem?_nodes hp]
  rfl

/-- At the empty mask the residual is what the clique costs above its duals at `x`. -/
theorem Certificate.residual_zero (hw : m.WellFormed) (hclique : m.cliques[c]? = some clique)
    (t : Certificate) (x f : Nat → Nat) : t.residual c clique x f 0
      = clique.energyAt x - t.dualSum c (clique.labelsAt x) := by
  rw [residual, Fusion.mix_zero, dualSum_labelsAt hw hclique, Clique.energyAt]
  simp

end Residual

namespace Solver

variable {σ τ : Type} {m : Model} {s : Solver σ τ} {c : Nat} {clique : Clique}

/-! ### Proposing -/

/-- A strategy proposes labels in range, and a ready solver has what it needs for that. -/
theorem propose_ends (h : Ready m s) :
    Ends propose s (fun _ s' => ∃ f strategy,
      s.strategy.propose s.iteration s.certificate.heights s.labels s.proposed = .ok (f, strategy) ∧
        s' = { s with proposed := f, strategy := strategy } ∧ Ready m s' ∧
        ∀ v, s'.proposal v < m.numLabels) fun _ _ => False := by
  have hlabels : s.certificate.heights.numLabels = m.numLabels := h.shaped.heights.numLabels_eq
  -- the heights have the dimensions of the model, so the steepest choice reads no missing entry
  have hreaches : s.certificate.heights.reaches s.labels = true := by
    unfold Heights.reaches
    rw [Bool.or_eq_true]
    refine .inr (List.all_eq_true.mpr fun v hv => ?_)
    rw [List.mem_range, h.labels_size] at hv
    have hpos := h.numLabels_pos
    rw [Bool.and_eq_true, hlabels]
    exact ⟨h.shaped.heights.inBounds hv (h.labeling_lt v),
      h.shaped.heights.inBounds hv (by omega)⟩
  -- whatever the strategy chooses is clamped into range
  have hclamped : ∃ choice strategy,
      s.strategy.propose s.iteration s.certificate.heights s.labels s.proposed
        = .ok (Strategy.clamp m.numLabels m.numVars choice, strategy) := by
    rw [← hlabels, ← h.proposed_size]
    unfold Strategy.propose
    cases s.strategy with
    | cyclic => exact ⟨_, _, rfl⟩
    | steepest => exact ⟨_, _, if_pos hreaches⟩
    | custom callback memory => exact ⟨_, _, rfl⟩
  obtain ⟨choice, strategy, hpropose⟩ := hclamped
  unfold propose
  refine ends_bind (ends_get (ends_bind (ends_ofExcept (fun answer hanswer => ?_)
    fun fault hfault => ?_)))
  · rw [hpropose, Except.ok.injEq] at hanswer
    subst hanswer
    refine ends_modify ⟨_, _, hpropose, rfl, ⟨h.wellFormed, h.numLabels_pos, h.numLabels_eq,
      h.labels_size, Strategy.size_clamp _ _ _, h.labeling_lt, h.shaped, h.consistent⟩,
      fun v => ?_⟩
    exact Strategy.getD_clamp_lt h.numLabels_pos m.numVars choice v
  · rw [hpropose] at hfault
    exact absurd hfault (by simp)

/-! ### Tables -/

theorem getD_dualsAt (t : Certificate) (c : Nat) {labels : List Nat} {p : Nat}
    (hp : p < labels.length) :
    (dualsAt t c labels).getD p 0 = t.dual.get c p (labels.getD p 0) := by
  simp [dualsAt, List.getD_eq_getElem?_getD, hp]

@[simp] theorem length_dualsAt (t : Certificate) (c : Nat) (labels : List Nat) :
    (dualsAt t c labels).length = labels.length := by
  simp [dualsAt]

/-- Where there is room, a residual table holds the residuals. -/
theorem residualTable_eq_ok (hw : m.WellFormed) (hclique : m.cliques[c]? = some clique)
    (t : Certificate) (x f : Nat → Nat) {room : Array Int} (hroom : 2 ^ clique.size ≤ room.size) :
    ∃ table, residualTable t c clique x f room = .ok table ∧ table.size = room.size ∧
      ∀ mask < 2 ^ clique.size, table.getD mask 0 = t.residual c clique x f mask := by
  have hx := hw.length_labelsAt hclique x
  have hf := hw.length_labelsAt hclique f
  have hsize : 2 ^ (clique.labelsAt x).length ≤ room.size := by rw [hx]; exact hroom
  have hfill : (Fusion.tabulate clique.energy (clique.labelsAt x) (clique.labelsAt f) room).size
      = room.size := Fusion.size_tabulate hsize
  have htab : Fusion.tabulate? clique.energy (clique.labelsAt x) (clique.labelsAt f) room
      = .ok (Fusion.tabulate clique.energy (clique.labelsAt x) (clique.labelsAt f) room) :=
    if_pos ⟨by omega, hsize⟩
  generalize hfilled : Fusion.tabulate clique.energy (clique.labelsAt x) (clique.labelsAt f) room
    = filled at hfill htab
  have hlength : (dualsAt t c (clique.labelsAt x)).length = clique.size := by
    rw [length_dualsAt, hx]
  have hsize' : 2 ^ (dualsAt t c (clique.labelsAt x)).length ≤ filled.size := by
    rw [hlength, hfill]
    exact hroom
  have hlengths : (dualsAt t c (clique.labelsAt x)).length
      = (dualsAt t c (clique.labelsAt f)).length := by
    rw [hlength, length_dualsAt, hf]
  have hdisc : Fusion.discount? filled (dualsAt t c (clique.labelsAt f))
      (dualsAt t c (clique.labelsAt x)) = .ok (Fusion.discount filled
        (dualsAt t c (clique.labelsAt f)) (dualsAt t c (clique.labelsAt x))) :=
    if_pos ⟨Nat.le_of_eq hlengths, hsize'⟩
  refine ⟨Fusion.discount filled (dualsAt t c (clique.labelsAt f))
    (dualsAt t c (clique.labelsAt x)), ?_, by rw [Fusion.size_discount hsize', hfill],
    fun mask hmask => ?_⟩
  · unfold residualTable
    show (Fusion.tabulate? _ _ _ room >>= fun filled => Fusion.discount? filled _ _) = _
    rw [htab]
    exact hdisc
  · -- the energy of the fusion less one dual a member, the one of the label that it holds
    rw [Fusion.getD_discount hsize' (by rw [hlength]; exact hmask), ← hfilled,
      Fusion.getD_tabulate hsize (by rw [hx]; exact hmask), hlength, Certificate.residual,
      Fusion.linear]
    congr 1
    apply sumTo_congr
    intro p hp
    have hpf : p < (clique.labelsAt f).length := by rw [hf]; exact hp
    have hpx : p < (clique.labelsAt x).length := by rw [hx]; exact hp
    rw [getD_dualsAt t c hpf, getD_dualsAt t c hpx, hw.getD_labelsAt hclique f hp,
      hw.getD_labelsAt hclique x hp]
    split <;> rfl

/-- Where there is no room, no table is written. -/
theorem residualTable_eq_error (hw : m.WellFormed) (hclique : m.cliques[c]? = some clique)
    (t : Certificate) (x f : Nat → Nat) {room : Array Int} (hroom : ¬ 2 ^ clique.size ≤ room.size) :
    residualTable t c clique x f room = .error .outOfRange := by
  have htab : Fusion.tabulate? clique.energy (clique.labelsAt x) (clique.labelsAt f) room
      = .error .outOfRange :=
    if_neg fun h => hroom (by rw [← hw.length_labelsAt hclique x]; exact h.2)
  unfold residualTable
  show (Fusion.tabulate? _ _ _ room >>= fun filled => Fusion.discount? filled _ _) = _
  rw [htab]
  rfl

/-- A table over tight duals is not refused. -/
theorem loadTable_ends (h : Certified m s) (hclique : m.cliques[c]? = some clique) :
    Ends (loadTable c clique) s
      (fun _ s' => ∃ table, s' = s.withGraph (s.graph.setTable c table) ∧
        table.size = ((s.graph.factors[c]?.map (·.table)).getD #[]).size ∧
        ∀ mask < 2 ^ clique.size,
          table.getD mask 0 = s.certificate.residual c clique s.labeling s.proposal mask)
      (fun fault _ => fault = .outOfRange ∧
        ¬ 2 ^ clique.size ≤ ((s.graph.factors[c]?.map (·.table)).getD #[]).size) := by
  unfold loadTable
  refine ends_bind (ends_get (ends_bind (ends_ofExcept (fun table htable => ?_)
    fun fault hfault => ?_)))
  · by_cases hroom : 2 ^ clique.size ≤ ((s.graph.factors[c]?.map (·.table)).getD #[]).size
    · obtain ⟨table', hok, hsize, hentry⟩ := residualTable_eq_ok h.wellFormed hclique s.certificate
        s.labeling s.proposal hroom
      rw [hok, Except.ok.injEq] at htable
      subst htable
      refine ends_bind (ends_modify ?_)
      -- the guard reads the entry of the empty mask, which tight duals make zero
      have hzero : table'.getD 0 0 = 0 := by
        rw [hentry 0 (Nat.two_pow_pos _), Certificate.residual_zero h.wellFormed hclique,
          Certificate.tight_iff.mp h.tight c clique hclique]
        omega
      unfold checkResidual
      refine ends_bind (ends_get ?_)
      show Ends (if table'.getD 0 0 ≠ 0 then _ else _) _ _ _
      rw [if_neg (fun hne => hne hzero)]
      exact ends_pure ⟨table', rfl, hsize, hentry⟩
    · rw [residualTable_eq_error h.wellFormed hclique _ _ _ hroom] at htable
      exact absurd htable (by simp)
  · by_cases hroom : 2 ^ clique.size ≤ ((s.graph.factors[c]?.map (·.table)).getD #[]).size
    · obtain ⟨table', hok, -⟩ := residualTable_eq_ok h.wellFormed hclique s.certificate
        s.labeling s.proposal hroom
      rw [hok] at hfault
      exact absurd hfault (by simp)
    · rw [residualTable_eq_error h.wellFormed hclique _ _ _ hroom] at hfault
      obtain rfl := Except.error.inj hfault
      exact ⟨rfl, hroom⟩

/-! ### The loaded graph -/

/-- The graph holds the residuals of the fusion of labeling and proposal, and fixes the variables
    at which they agree. -/
structure Loaded (m : Model) (s : Solver σ τ) (g : Cut.Graph) : Prop where
  mirrors : g.Mirrors m
  isFixed_eq : ∀ v < m.numVars, g.isFixed v = decide (s.labeling v = s.proposal v)
  entry_eq : ∀ c clique f, m.cliques[c]? = some clique → g.factors[c]? = some f →
    ∀ mask < 2 ^ clique.size,
      f.entry mask = s.certificate.residual c clique s.labeling s.proposal mask

theorem factors_setTable (g : Cut.Graph) (c : Nat) (table : Array Int) (d : Nat) :
    (g.setTable c table).factors[d]?
      = if c = d then g.factors[d]?.map fun f => { f with table := table } else g.factors[d]? := by
  simp only [Cut.Graph.setTable, List.getElem?_modify]
  by_cases h : c = d <;> simp [h]

/-- A table of the right size keeps a graph a mirror of the model. -/
theorem mirrors_setTable {g : Cut.Graph} (hg : g.Mirrors m) (hclique : m.cliques[c]? = some clique)
    {table : Array Int} (hsize : table.size = 2 ^ clique.size) :
    (g.setTable c table).Mirrors m := by
  obtain ⟨f, hf, -, hfsize⟩ := hg.exists_factor hclique
  refine ⟨hg.numNodes_eq, ?_, Cut.Graph.wellFormed_setTable hg.wellFormed fun f' hf' => ?_⟩
  · rw [← hg.members_eq]
    apply List.ext_getElem?
    intro d
    rw [List.getElem?_map, List.getElem?_map, factors_setTable]
    by_cases hcd : c = d
    · rw [if_pos hcd, Option.map_map]
      rfl
    · rw [if_neg hcd]
  · rw [hf, Option.some.injEq] at hf'
    rw [← hf', hfsize, hsize]

/-- The flags of fixed nodes keep a graph a mirror of the model. -/
theorem mirrors_fixAgreeing (hg : s.graph.Mirrors m) : (fixAgreeing s).graph.Mirrors m :=
  ⟨hg.numNodes_eq, hg.members_eq, hg.wellFormed⟩

/-- Over tight duals no table is refused; a graph that mirrors the model has room for all. -/
theorem loadTables_ends (h : Certified m s) :
    Ends (loadTables m) s
      (fun _ s' => ∃ g, s' = s.withGraph g ∧ (s.graph.Mirrors m → Loaded m s g))
      (fun fault _ => fault.blamesTightness = false ∧ ¬ s.graph.Mirrors m) := by
  unfold loadTables
  refine ends_bind (ends_modify ?_)
  -- after `n` cliques: only the graph has changed, the flags are set and `n` tables are loaded
  let I : Nat → Solver σ τ → Prop := fun n s' => ∃ g, s' = s.withGraph g ∧
    (s.graph.Mirrors m → g.Mirrors m ∧
      (∀ v < m.numVars, g.isFixed v = decide (s.labeling v = s.proposal v)) ∧
      ∀ c < n, ∀ clique f, m.cliques[c]? = some clique → g.factors[c]? = some f →
        ∀ mask < 2 ^ clique.size,
          f.entry mask = s.certificate.residual c clique s.labeling s.proposal mask)
  have h0 : I 0 (fixAgreeing s) := by
    refine ⟨_, rfl, fun hg => ⟨mirrors_fixAgreeing hg, fun v hv => ?_,
      fun c hc => absurd hc (Nat.not_lt_zero c)⟩⟩
    rw [← h.labels_size] at hv
    simp [Cut.Graph.isFixed, hv]
  have hstep : ∀ n clique, m.cliques[n]? = some clique → ∀ s₁, I n s₁ →
      Ends (loadTable n clique) s₁ (fun _ s' => I (n + 1) s')
        (fun fault _ => fault.blamesTightness = false ∧ ¬ s.graph.Mirrors m) := by
    rintro n clique hclique s₁ ⟨g, rfl, hg⟩
    have hcert : Certified m (s.withGraph g) := h.of_eq rfl rfl rfl rfl
    refine (loadTable_ends hcert hclique).mono (fun _ s' hs' => ?_) fun fault _ hfault => ?_
    · obtain ⟨table, rfl, hsize, hentry⟩ := hs'
      refine ⟨g.setTable n table, rfl, fun hmirrors => ?_⟩
      obtain ⟨hgm, hfixed, hbelow⟩ := hg hmirrors
      obtain ⟨f, hf, hmembers, hfsize⟩ := hgm.exists_factor hclique
      have hroom : ((g.factors[n]?.map (·.table)).getD #[]).size = 2 ^ clique.size := by
        rw [hf]
        exact hfsize
      have htable : table.size = 2 ^ clique.size := by rw [hsize]; exact hroom
      refine ⟨mirrors_setTable hgm hclique htable, hfixed, fun c hc clique' f' hclique' hf' => ?_⟩
      rw [factors_setTable] at hf'
      -- the table just written, or one of those written before
      by_cases hcn : n = c
      · subst hcn
        rw [if_pos rfl, hf, Option.map_some, Option.some.injEq] at hf'
        rw [hclique, Option.some.injEq] at hclique'
        subst hf' hclique'
        exact hentry
      · rw [if_neg hcn] at hf'
        exact hbelow c (by omega) clique' f' hclique' hf'
    · obtain ⟨rfl, hroom⟩ := hfault
      refine ⟨rfl, fun hmirrors => hroom ?_⟩
      obtain ⟨f, hf, -, hfsize⟩ := (hg hmirrors).1.exists_factor hclique
      show 2 ^ clique.size ≤ ((g.factors[n]?.map (·.table)).getD #[]).size
      rw [hf]
      exact Nat.le_of_eq hfsize.symm
  refine (ends_forEach_zipIdx hstep h0).mono_ok fun _ s' hs' => ?_
  obtain ⟨g, rfl, hg⟩ := hs'
  refine ⟨g, rfl, fun hmirrors => ?_⟩
  obtain ⟨hgm, hfixed, hall⟩ := hg hmirrors
  exact ⟨hgm, hfixed, fun c clique f hclique =>
    hall c (List.getElem?_eq_some_iff.mp hclique).1 clique f hclique⟩

/-- The graph that a move hands to the oracle. -/
def fusionProblem (m : Model) (s : Solver σ τ) : Cut.Graph :=
  (loadTables m s).state.loadCosts.graph

/-- Loading the tables changes nothing but the graph. -/
theorem loadTables_problem (h : Certified m s) :
    Ends (loadTables m) s
      (fun _ s' => ∃ g, s' = s.withGraph g ∧ (s.withGraph g).loadCosts.graph = s.fusionProblem m ∧
        (s.graph.Mirrors m → Loaded m s g))
      (fun fault _ => fault.blamesTightness = false ∧ ¬ s.graph.Mirrors m) := by
  refine (loadTables_ends h).with_outcome.mono_ok fun _ s' h' => ?_
  obtain ⟨⟨g, rfl, hg⟩, -, hstate⟩ := h'
  exact ⟨g, rfl, by rw [hstate]; rfl, hg⟩

/-- On a graph that mirrors the model no table is refused. -/
theorem loadTables_ok (h : Certified m s) (hg : s.graph.Mirrors m) :
    (loadTables m s).result = .ok () := by
  obtain ⟨⟨⟩, hok, -⟩ := (loadTables_problem h).exists_ok_of fun _ _ hf => hf.2 hg
  exact hok

/-- The oracle is handed the fusion problem then. -/
theorem exists_loaded (h : Certified m s) (hg : s.graph.Mirrors m) :
    ∃ g, Loaded m s g ∧ (s.withGraph g).loadCosts.graph = s.fusionProblem m := by
  obtain ⟨g, -, hproblem, hloaded⟩ := (loadTables_problem h).of_ok (loadTables_ok h hg)
  exact ⟨g, hloaded hg, hproblem⟩

/-! ### What the loaded graph says -/

/-- The costs do not touch members or tables. -/
theorem mirrors_loadCosts (hg : s.graph.Mirrors m) : s.loadCosts.graph.Mirrors m := by
  have hnodes : s.loadCosts.graph.numNodes = s.graph.numNodes := Array.size_ofFn
  refine ⟨hnodes.trans hg.numNodes_eq, hg.members_eq, fun f hf => ?_⟩
  rw [hnodes]
  exact hg.wellFormed f hf

/-- Nor do they touch fixed nodes. -/
theorem Loaded.loadCosts {g : Cut.Graph} (hg : Loaded m s g) :
    Loaded m s (s.withGraph g).loadCosts.graph :=
  ⟨mirrors_loadCosts (s := s.withGraph g) hg.mirrors, hg.isFixed_eq, hg.entry_eq⟩

/-- The fusion problem holds the residuals. -/
theorem loaded_fusionProblem (h : Certified m s) (hg : s.graph.Mirrors m) :
    Loaded m s (s.fusionProblem m) := by
  obtain ⟨g, hloaded, hproblem⟩ := exists_loaded h hg
  rw [← hproblem]
  exact hloaded.loadCosts

/-- The two costs of a node differ by the height difference of its two labels. -/
theorem cost_sub_loadCosts {v : Nat} (hv : v < s.graph.numNodes) :
    s.loadCosts.graph.cost1 v - s.loadCosts.graph.cost0 v
      = s.certificate.heights.get v (s.proposal v)
        - s.certificate.heights.get v (s.labeling v) := by
  have h1 : s.loadCosts.graph.cost1 v = max (-s.drop v) 0 := by
    show ((Array.ofFn fun v : Fin s.graph.numNodes => (⟨max (s.drop v) 0, max (-s.drop v) 0,
      s.graph.chosen v⟩ : Cut.Node)).getD v Cut.Node.blank).cost1 = _
    simp [hv]
  have h0 : s.loadCosts.graph.cost0 v = max (s.drop v) 0 := by
    show ((Array.ofFn fun v : Fin s.graph.numNodes => (⟨max (s.drop v) 0, max (-s.drop v) 0,
      s.graph.chosen v⟩ : Cut.Node)).getD v Cut.Node.blank).cost0 = _
    simp [hv]
  rw [h1, h0, drop]
  omega

/-- The energy of a factor of the loaded graph is what its clique costs above its duals. -/
theorem Loaded.factor_energy (h : Ready m s) {g : Cut.Graph} (hg : Loaded m s g)
    (S : Nat → Bool) {f : Cut.Factor} (hclique : m.cliques[c]? = some clique)
    (hf : g.factors[c]? = some f) :
    f.energy S = clique.energyAt (fusedLabeling s.labeling s.proposal S)
      - s.certificate.dualSum c (clique.labelsAt (fusedLabeling s.labeling s.proposal S)) := by
  obtain ⟨f', hf', hmembers, -⟩ := hg.mirrors.exists_factor hclique
  rw [hf, Option.some.injEq] at hf'
  subst hf'
  have hmask : Mask.ofBits (clique.nodes.map S) < 2 ^ clique.size := Mask.ofBits_map_lt _ _
  rw [Cut.Factor.energy, Cut.Factor.maskOf, hmembers, hg.entry_eq c clique f hclique hf _ hmask,
    Certificate.residual_maskOf h.wellFormed hclique]

/-- The factors of the loaded graph make up what the cliques cost above their duals. -/
theorem Loaded.sum_factors (h : Ready m s) {g : Cut.Graph} (hg : Loaded m s g) (S : Nat → Bool) :
    (g.factors.map (·.energy S)).sum
      = s.certificate.excess m (fusedLabeling s.labeling s.proposal S) := by
  rw [sum_map_eq_sumTo, hg.mirrors.length_factors, Certificate.excess]
  apply sumTo_congr
  intro c hc
  have hclique : m.cliques[c]? = some m.cliques[c] := List.getElem?_eq_getElem hc
  obtain ⟨f, hf, -, -⟩ := hg.mirrors.exists_factor hclique
  rw [hf, hclique, Option.map_some, Option.map_some, Option.getD_some, Option.getD_some,
    hg.factor_energy h S hclique hf]

/-- The nodes of the loaded graph make up the heights, up to those of the labeling. -/
theorem Loaded.sum_nodes {g : Cut.Graph} (hg : Loaded m s g) (S : Nat → Bool) :
    sumTo (s.withGraph g).loadCosts.graph.numNodes (fun v => if S v
        then (s.withGraph g).loadCosts.graph.cost1 v else (s.withGraph g).loadCosts.graph.cost0 v)
      - sumTo (s.withGraph g).loadCosts.graph.numNodes (s.withGraph g).loadCosts.graph.cost0
      = sumTo m.numVars (fun v => s.certificate.heights.get v
          (fusedLabeling s.labeling s.proposal S v))
        - sumTo m.numVars fun v => s.certificate.heights.get v (s.labeling v) := by
  rw [hg.loadCosts.mirrors.numNodes_eq, ← sumTo_sub, ← sumTo_sub]
  apply sumTo_congr
  intro v hv
  have hnode : v < (s.withGraph g).graph.numNodes := by
    show v < g.numNodes
    rw [hg.mirrors.numNodes_eq]
    exact hv
  have hdiff : (s.withGraph g).loadCosts.graph.cost1 v - (s.withGraph g).loadCosts.graph.cost0 v
      = s.certificate.heights.get v (s.proposal v) - s.certificate.heights.get v (s.labeling v) :=
    cost_sub_loadCosts hnode
  cases hS : S v
  · simp [fusedLabeling, hS]
  · have hfv : fusedLabeling s.labeling s.proposal S v = s.proposal v := by
      simp [fusedLabeling, hS]
    rw [hfv]
    simpa using hdiff

/-- Up to its value at the empty set, the energy of the loaded graph is the energy of the labeling
    in which the chosen variables have switched. -/
theorem Loaded.energy_sub (h : Ready m s) (hp : ∀ v, s.proposal v < m.numLabels) {g : Cut.Graph}
    (hg : Loaded m s g) (S : Nat → Bool) :
    (s.withGraph g).loadCosts.graph.energy S
        - (s.withGraph g).loadCosts.graph.energy (fun _ => false)
      = m.energy (fusedLabeling s.labeling s.proposal S) - m.energy s.labeling := by
  have hfused := fusedLabeling_lt h.labeling_lt hp S
  have hnodes := hg.sum_nodes S
  -- no node of the empty set pays for being chosen
  have hempty : ∀ g' : Cut.Graph, g'.energy (fun _ => false)
      = g'.constant + sumTo g'.numNodes g'.cost0 + (g'.factors.map (·.energy fun _ => false)).sum :=
    fun _ => rfl
  rw [Certificate.energy_eq h.wellFormed h.consistent hfused,
    Certificate.energy_eq h.wellFormed h.consistent h.labeling_lt, hempty, Cut.Graph.energy,
    hg.loadCosts.sum_factors h, hg.loadCosts.sum_factors h, fusedLabeling_none]
  omega

/-- Over tight duals and consistent heights, loading a proposal succeeds, and the fusion problem is
    the energy itself: by how much a set of nodes costs more than none is by how much the labeling
    in which these variables have switched costs more.  This holds for every set of nodes, fixed
    ones included, and asks nothing of the cliques. -/
theorem fusionProblem_energy_sub (h : Certified m s) (hg : s.graph.Mirrors m)
    (hp : ∀ v, s.proposal v < m.numLabels) :
    (loadTables m s).result = .ok () ∧ ∀ S : Nat → Bool,
      (s.fusionProblem m).energy S - (s.fusionProblem m).energy (fun _ => false)
        = m.energy (fusedLabeling s.labeling s.proposal S) - m.energy s.labeling := by
  obtain ⟨g, hloaded, hproblem⟩ := exists_loaded h hg
  refine ⟨loadTables_ok h hg, fun S => ?_⟩
  rw [← hproblem]
  exact hloaded.energy_sub h.toReady hp S

/-- Three variables, the first of which is a member of one clique twice; the last is fixed, and no
    fusion of the first clique is submodular. -/
theorem fusionProblem_energy_sub_repeated :
    let m : Model := .ofRows 2 #[#[1, 0], #[2, 0], #[0, 4]]
      [.lookup [0, 1, 0] 2 #[5, 0, 1, 0, 0, 7, 0, 3], .potts [1, 2] 6]
    ∃ s : Solver Unit Unit, Certified m s ∧ s.labels = #[1, 1, 0] ∧ s.proposed = #[0, 0, 0] ∧
      (loadTables m s).result = .ok () ∧
      ∀ S : Nat → Bool, (s.fusionProblem m).energy S - (s.fusionProblem m).energy (fun _ => false)
        = m.energy (fusedLabeling s.labeling s.proposal S) - m.energy s.labeling := by
  intro m
  let s₀ : Solver Unit Unit := Solver.new ⟨Cut.Graph.empty, ()⟩ ⟨.cyclic, false⟩
  have hok : (start m s₀).result = .ok () := by decide +kernel
  have hlabels : (start m s₀).state.labels = #[1, 1, 0] := by decide +kernel
  have hproposed : ((start m s₀).state.strategy.propose (start m s₀).state.iteration
      (start m s₀).state.certificate.heights (start m s₀).state.labels
      (start m s₀).state.proposed).toOption.map (·.1) = some #[0, 0, 0] := by decide +kernel
  have hfits : s₀.graph.Fits m := Cut.Graph.fits_empty m
  obtain ⟨hcert, hg⟩ := certified_start hok hfits
  generalize (start m s₀).state = s at hcert hg hlabels hproposed
  obtain ⟨⟨⟩, -, f, strategy, hpropose, hstate, hready, hp⟩ :=
    (propose_ends hcert.toReady).exists_ok
  rw [hpropose] at hproposed
  obtain rfl : f = #[0, 0, 0] := Option.some.inj hproposed
  rw [hstate] at hready hp
  have hcert' : Certified m { s with proposed := #[0, 0, 0], strategy := strategy } :=
    ⟨hready, hcert.tight⟩
  obtain ⟨hload, henergy⟩ := fusionProblem_energy_sub hcert' hg hp
  exact ⟨_, hcert', hlabels, rfl, hload, henergy⟩

end Solver

end FusionMove
