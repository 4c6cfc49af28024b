import FusionMove.Proofs.Solver.Ready

namespace FusionMove

/-!
# Starting

* `Cut.Graph.Mirrors` — the graph is one for the model;
* `Cut.Graph.Fits` — the graph can be made one, since it has no factors or is one already;
* `Solver.buildTables_ends`, `Solver.start_ends` — a start either leaves a ready solver with tight
  duals, or says why not; a valid model without negative energies on a graph that fits starts.
-/

open FusionMove.Action
open scoped CoreArithmetic

/-! ### Faults of member lists -/

theorem memberFault?_blames {index numVars : Nat} {members : List Nat} {fault : Fault}
    (h : memberFault? index members numVars = some fault) : fault.blamesTightness = false := by
  unfold memberFault? at h
  split at h
  · obtain rfl := Option.some.inj h
    rfl
  · split at h
    · obtain rfl := Option.some.inj h
      rfl
    · obtain ⟨v, -, rfl⟩ := Option.map_eq_some_iff.mp h
      rfl

theorem Model.fault?_blames {m : Model} {fault : Fault} (h : m.fault? = some fault) :
    fault.blamesTightness = false := by
  obtain ⟨p, -, hp⟩ := List.exists_of_findSome?_eq_some h
  exact memberFault?_blames hp

/-! ### The graph of a model -/

namespace Cut

namespace Graph

/-- One node a variable, one factor a clique with its members, and tables of the right size. -/
structure Mirrors (m : Model) (g : Graph) : Prop where
  numNodes_eq : g.numNodes = m.numVars
  members_eq : g.factors.map (·.members) = m.cliques.map (·.nodes)
  wellFormed : g.WellFormed

/-- The graph has no factors yet, and no nodes or one a variable; or it mirrors the model. -/
def Fits (m : Model) (g : Graph) : Prop :=
  (g.factors = [] ∧ (g.numNodes = 0 ∨ g.numNodes = m.numVars)) ∨ g.Mirrors m

theorem Mirrors.fits {m : Model} {g : Graph} (h : g.Mirrors m) : g.Fits m := .inr h

theorem fits_empty (m : Model) : Graph.empty.Fits m := .inl ⟨rfl, .inl rfl⟩

/-- A graph that mirrors the model has as many factors as the model has cliques. -/
theorem Mirrors.length_factors {m : Model} {g : Graph} (h : g.Mirrors m) :
    g.factors.length = m.numCliques := by
  have hlength : (g.factors.map (·.members)).length = (m.cliques.map (·.nodes)).length := by
    rw [h.members_eq]
  rwa [List.length_map, List.length_map] at hlength

/-- It has a factor for every clique. -/
theorem Mirrors.exists_factor {m : Model} {g : Graph} (h : g.Mirrors m) {c : Nat} {clique : Clique}
    (hclique : m.cliques[c]? = some clique) :
    ∃ f, g.factors[c]? = some f ∧ f.members = clique.nodes ∧ f.table.size = 2 ^ clique.size := by
  have hmem : (g.factors.map (·.members))[c]? = some clique.nodes := by
    rw [h.members_eq, List.getElem?_map, hclique]
    rfl
  rw [List.getElem?_map, Option.map_eq_some_iff] at hmem
  obtain ⟨f, hf, hnodes⟩ := hmem
  refine ⟨f, hf, hnodes, ?_⟩
  rw [(h.wellFormed f (List.mem_of_getElem? hf)).2, Factor.size, hnodes, Clique.size]

/-- The graph has no factors yet, and no nodes or one a variable; or it has as many nodes and factors
    as the model has variables and cliques. -/
def Counts (m : Model) (g : Graph) : Prop :=
  (g.factors = [] ∧ (g.numNodes = 0 ∨ g.numNodes = m.numVars)) ∨
    (g.factors.length = m.numCliques ∧ g.numNodes = m.numVars)

instance (m : Model) (g : Graph) : Decidable (g.Counts m) :=
  inferInstanceAs (Decidable (_ ∨ _))

theorem Fits.counts {m : Model} {g : Graph} (h : g.Fits m) : g.Counts m :=
  h.imp_right fun hg => ⟨hg.length_factors, hg.numNodes_eq⟩

/-- How a graph is refused.  One without factors may have too few nodes for a clique. -/
inductive Refusal (m : Model) (g : Graph) : Fault → Prop
  | counts (got : Nat) : (g.factors ≠ [] → got = g.factors.length) →
      Refusal m g (.graphMismatch m.numCliques got)
  | member (v : Nat) : g.factors = [] → g.numNodes ≤ v → v < m.numVars →
      Refusal m g (.variableOutOfRange v g.numNodes)

theorem Refusal.blames {m : Model} {g : Graph} {fault : Fault} (h : g.Refusal m fault) :
    fault.blamesTightness = false := by
  cases h <;> rfl

end Graph

variable {m : Model} {g : Graph}

theorem addBlankFactor_ends (members : List Nat) (g : Graph) :
    Ends (addBlankFactor members) g
      (fun _ g' => g' = { g with factors := g.factors ++
        [Factor.ofTable members (Array.replicate (2 ^ members.length) 0)] })
      (fun fault _ => memberFault? g.factors.length members g.numNodes = some fault) := by
  unfold addBlankFactor
  refine ends_bind (ends_get (ends_bind (ends_ofExcept (fun added hadded => ?_)
    fun fault hfault => ?_)))
  · obtain ⟨c, g'⟩ := added
    obtain ⟨-, -, -, rfl⟩ := Graph.addFactor_eq_ok_iff.mp hadded
    exact ends_modify rfl
  · unfold Graph.addFactor at hfault
    split at hfault
    · rename_i hmember
      rw [hmember, Except.error.inj hfault]
    · rw [if_pos Array.size_replicate] at hfault
      exact absurd hfault (by simp)

/-- How many nodes a graph has after it has been grown. -/
def Graph.grownNodes (m : Model) (g : Graph) : Nat :=
  if g.numNodes = 0 then m.numVars else g.numNodes

/-- A graph without factors gets one node a variable iff its counts pass. -/
theorem Graph.grownNodes_eq_iff (hempty : g.factors = []) :
    g.grownNodes m = m.numVars ↔ g.Counts m := by
  unfold grownNodes
  constructor
  · intro h
    refine .inl ⟨hempty, ?_⟩
    split at h
    · exact .inl ‹_›
    · exact .inr h
  · rintro (⟨-, hzero | heq⟩ | ⟨-, heq⟩) <;> split <;> omega

/-- If they do not, it keeps its nodes. -/
theorem Graph.grownNodes_of_not_counts (hempty : g.factors = []) (h : ¬ g.Counts m) :
    g.grownNodes m = g.numNodes :=
  if_neg fun hzero => h (.inl ⟨hempty, .inl hzero⟩)

/-- Growing appends a blank factor for every clique of a well-formed model, or stops at one with a
    member that is no node. -/
theorem grow_grows (hw : m.WellFormed) (g : Graph) :
    Ends (grow m) g
      (fun _ g' => g'.numNodes = g.grownNodes m ∧ g'.factors = g.factors ++ m.cliques.map fun c =>
        Factor.ofTable c.nodes (Array.replicate (2 ^ c.nodes.length) 0))
      (fun fault _ => ∃ v, fault = .variableOutOfRange v (g.grownNodes m) ∧
        g.grownNodes m ≤ v ∧ v < m.numVars) := by
  unfold grow
  refine ends_bind (ends_modify ?_)
  have h0 : (if g.numNodes = 0 then (g.addNodes m.numVars).2 else g).numNodes = g.grownNodes m ∧
      (if g.numNodes = 0 then (g.addNodes m.numVars).2 else g).factors = g.factors := by
    unfold Graph.grownNodes
    split
    · rename_i hzero
      refine ⟨?_, rfl⟩
      show (g.nodes ++ Array.replicate m.numVars Node.blank).size = m.numVars
      rw [Array.size_append, Array.size_replicate]
      show g.numNodes + m.numVars = m.numVars
      rw [hzero, Nat.zero_add]
    · exact ⟨rfl, rfl⟩
  refine (ends_forEach (I := fun n g' => g'.numNodes = g.grownNodes m ∧ g'.factors = g.factors ++
    (m.cliques.take n).map fun c => Factor.ofTable c.nodes (Array.replicate (2 ^ c.nodes.length) 0))
    (fun n clique hclique g₁ h₁ => ?_) ⟨h0.1, by rw [h0.2]; simp⟩).mono_ok fun _ g' h' => ?_
  · obtain ⟨hnodes, hfactors⟩ := h₁
    have hmembers := hw.of_getElem? hclique
    refine (addBlankFactor_ends clique.nodes g₁).mono (fun _ g' hg' => ?_) fun fault _ hfault => ?_
    · rw [hg', List.take_add_one, hclique, List.map_append, ← List.append_assoc, ← hfactors]
      exact ⟨hnodes, rfl⟩
    · -- the sizes of cliques are within the limits, so a member is to blame
      have hne : clique.nodes.length ≠ 0 := Nat.pos_iff_ne_zero.mp hmembers.1
      have hle : ¬ cliqueSizeLimit < clique.nodes.length := Nat.not_lt.mpr hmembers.2.1
      rw [memberFault?, if_neg hne, if_neg hle, Option.map_eq_some_iff] at hfault
      obtain ⟨v, hv, rfl⟩ := hfault
      rw [hnodes] at hv ⊢
      have hnode : decide (g.grownNodes m ≤ v) = true := by
        have := List.find?_some hv
        exact this
      exact ⟨v, rfl, of_decide_eq_true hnode, hmembers.2.2 v (List.mem_of_find?_eq_some hv)⟩
  · rwa [List.take_length] at h'

/-- A graph whose factors are blank ones over the cliques of a model mirrors the model. -/
theorem mirrors_of_grown (hw : m.WellFormed) (hnodes : g.numNodes = m.numVars)
    (hfactors : g.factors = m.cliques.map fun c =>
      Factor.ofTable c.nodes (Array.replicate (2 ^ c.nodes.length) 0)) : g.Mirrors m := by
  refine ⟨hnodes, ?_, fun f hf => ?_⟩
  · rw [hfactors, List.map_map]
    rfl
  · rw [hfactors] at hf
    obtain ⟨clique, hclique, rfl⟩ := List.mem_map.mp hf
    refine ⟨fun v hv => ?_, Array.size_replicate⟩
    rw [hnodes]
    exact (hw clique hclique).2.2 v hv

theorem checkCounts_ends (m : Model) (g g' : Graph) :
    Ends (checkCounts m g) g'
      (fun _ g'' => g'' = g' ∧ g.factors.length = m.numCliques ∧ g.numNodes = m.numVars)
      (fun fault _ => fault = .graphMismatch m.numCliques g.factors.length ∧
        ¬ (g.factors.length = m.numCliques ∧ g.numNodes = m.numVars)) := by
  unfold checkCounts
  split
  · rename_i hcounts
    exact ends_pure ⟨rfl, hcounts⟩
  · rename_i hcounts
    exact ends_bind (ends_record (ends_fail ⟨rfl, hcounts⟩))

/-- A graph passes iff its counts do.  One without factors is then made to mirror the model; any
    other one is taken as it is. -/
theorem fit_counts (hw : m.WellFormed) (g : Graph) :
    Ends (fit m) g
      (fun _ g' => g.Counts m ∧ (g.factors = [] → g'.Mirrors m) ∧ (g.factors ≠ [] → g' = g))
      (fun fault _ => ¬ g.Counts m ∧ g.Refusal m fault) := by
  unfold fit
  refine ends_bind (ends_get ?_)
  by_cases hempty : g.factors = []
  · have hgrown : g.grownNodes m = m.numVars ↔ g.Counts m := Graph.grownNodes_eq_iff hempty
    rw [List.isEmpty_iff.mpr hempty]
    refine ends_bind ((grow_grows hw g).mono (fun _ g₁ h₁ => ?_) fun fault _ hfault => ?_)
    · obtain ⟨hnodes, hfactors⟩ := h₁
      rw [hempty, List.nil_append] at hfactors
      refine ends_bind (ends_get ((checkCounts_ends m g₁ g₁).mono (fun _ g' h' => ?_)
        fun fault _ hfault => ?_))
      · obtain ⟨rfl, -, hvars⟩ := h'
        exact ⟨hgrown.mp (hnodes.symm.trans hvars), fun _ => mirrors_of_grown hw hvars hfactors,
          fun hne => absurd hempty hne⟩
      · obtain ⟨rfl, hnot⟩ := hfault
        refine ⟨fun hcounts => hnot ⟨?_, hnodes.trans (hgrown.mpr hcounts)⟩,
          .counts _ fun hne => absurd hempty hne⟩
        rw [hfactors, List.length_map, Model.numCliques]
    · obtain ⟨v, rfl, hle, hlt⟩ := hfault
      have hnot : ¬ g.Counts m := fun hcounts => by
        rw [hgrown.mpr hcounts] at hle
        exact absurd hlt (Nat.not_lt.mpr hle)
      rw [Graph.grownNodes_of_not_counts hempty hnot] at hle ⊢
      exact ⟨hnot, .member v hempty hle hlt⟩
  · have hfalse : g.factors.isEmpty = false := by
      rw [Bool.eq_false_iff, ne_eq, List.isEmpty_iff]
      exact hempty
    rw [hfalse]
    refine ends_bind (ends_get ((checkCounts_ends m g g).mono (fun _ g' h' => ?_)
      fun fault _ hfault => ?_))
    · obtain ⟨rfl, hcounts⟩ := h'
      exact ⟨.inr hcounts, fun heq => absurd heq hempty, fun _ => rfl⟩
    · obtain ⟨rfl, hnot⟩ := hfault
      exact ⟨fun hcounts => hcounts.elim (fun h => hempty h.1) hnot, .counts _ fun _ => rfl⟩

/-- A graph that fits is made one for the model. -/
theorem fit_ends (hw : m.WellFormed) (g : Graph) :
    Ends (fit m) g (fun _ g' => g.Fits m → g'.Mirrors m)
      (fun fault _ => fault.blamesTightness = false ∧ ¬ g.Fits m) := by
  refine (fit_counts hw g).mono (fun _ g' h' hfits => ?_) fun fault _ hfault => ?_
  · obtain ⟨-, hgrown, hkept⟩ := h'
    by_cases hempty : g.factors = []
    · exact hgrown hempty
    · rw [hkept hempty]
      exact hfits.resolve_left fun h => hempty h.1
  · exact ⟨hfault.2.blames, fun hfits => hfault.1 hfits.counts⟩

end Cut

namespace Solver

variable {σ τ : Type} {m : Model} {s : Solver σ τ}

/-! ### Tables -/

theorem checkModel_ends (m : Model) (s : Solver σ τ) :
    Ends (checkModel m) s (fun _ s' => s' = s ∧ m.WellFormed)
      (fun fault s' => s' = s ∧ fault.blamesTightness = false ∧ ¬ m.WellFormed) := by
  unfold checkModel
  cases hfault : m.fault? with
  | none => exact ends_pure ⟨rfl, Model.fault?_eq_none_iff.mp hfault⟩
  | some fault =>
    refine ends_bind (ends_record (ends_fail ⟨rfl, Model.fault?_blames hfault, fun hw => ?_⟩))
    rw [Model.fault?_eq_none_iff.mpr hw] at hfault
    exact absurd hfault (by simp)

/-- Fresh tables are ready. -/
theorem ready_allocate (hv : m.Valid) (s : Solver σ τ) : Ready m (allocate m s) where
  wellFormed := hv.wellFormed
  numLabels_pos := hv.numLabels_pos
  numLabels_eq := rfl
  labels_size := Array.size_replicate
  proposed_size := Array.size_replicate
  labeling_lt := by
    refine getD_lt_of_forall_mem hv.numLabels_pos fun l hl => ?_
    obtain ⟨-, rfl⟩ := Array.mem_replicate.mp hl
    exact hv.numLabels_pos
  shaped := Certificate.shaped_initial m
  consistent := Certificate.consistent_initial m

/-- Tables are built for a valid model if the graph fits.  Up to then nothing but the graph
    changes. -/
theorem buildTables_ends (m : Model) (s : Solver σ τ) :
    Ends (buildTables m) s
      (fun _ s' => m.Valid ∧ (s.graph.Fits m → s'.graph.Mirrors m) ∧
        ∃ g, s' = allocate m (s.withGraph g))
      (fun fault s' => fault.blamesTightness = false ∧ (∃ g, s' = s.withGraph g) ∧
        (s.graph.Fits m → s'.graph.Fits m) ∧ ¬ (m.Valid ∧ s.graph.Fits m)) := by
  unfold buildTables
  refine ends_bind (ends_require (fun hlabels => ?_) fun hlabels => ?_)
  · refine ends_bind ((checkModel_ends m s).mono (fun _ s₁ ⟨heq, hw⟩ => ?_) fun fault s₁ h => ?_)
    · subst heq
      have hfit : Ends (onGraph (Cut.fit m)) s₁
          (fun _ s' => ∃ g, s' = s₁.withGraph g ∧ (s₁.graph.Fits m → g.Mirrors m))
          (fun fault s' => fault.blamesTightness = false ∧ (∃ g, s' = s₁.withGraph g) ∧
            ¬ s₁.graph.Fits m) := by
        refine ends_zoom ((Cut.fit_ends hw s₁.graph).mono (fun _ g hg => ⟨g, rfl, hg⟩)
          fun fault g h => ⟨h.1, ⟨g, rfl⟩, h.2⟩)
      refine ends_bind (hfit.mono (fun _ s₂ h₂ => ?_) fun fault s₂ h => ?_)
      · obtain ⟨g, rfl, hg⟩ := h₂
        refine ends_bind (ends_require (fun hcomplete => ?_) fun hcomplete => ?_)
        · exact ends_modify ⟨⟨hw, hcomplete, Nat.pos_of_ne_zero hlabels⟩, hg, g, rfl⟩
        · exact ⟨rfl, ⟨g, rfl⟩, fun hfits => (hg hfits).fits, fun h => hcomplete h.1.complete⟩
      · exact ⟨h.1, h.2.1, fun hfits => absurd hfits h.2.2, fun hboth => h.2.2 hboth.2⟩
    · obtain ⟨rfl, hblame, hw⟩ := h
      exact ⟨hblame, ⟨s₁.graph, rfl⟩, id, fun hboth => hw hboth.1.wellFormed⟩
  · exact ⟨rfl, ⟨s.graph, rfl⟩, id, fun hboth => hlabels (Nat.pos_iff_ne_zero.mp hboth.1.numLabels_pos)⟩

/-! ### The first labeling and its duals -/

/-- The cheapest label is a label. -/
theorem cheapest_lt (hL : 0 < m.numLabels) (v : Nat) : cheapest m v < m.numLabels := by
  have key : ∀ (ls : List Nat) (best : Nat), (∀ l ∈ ls, l < m.numLabels) → best < m.numLabels →
      ls.foldl (fun best l => if m.unary v l < m.unary v best then l else best) best
        < m.numLabels := by
    intro ls
    induction ls with
    | nil => exact fun best _ hbest => hbest
    | cons l ls ih =>
      intro best hls hbest
      refine ih _ (fun k hk => hls k (by simp [hk])) ?_
      show (if m.unary v l < m.unary v best then l else best) < m.numLabels
      split
      · exact hls l (by simp)
      · exact hbest
  exact key _ 0 (fun l hl => List.mem_range.mp hl) hL

/-- With the cheapest labels a ready solver stays ready. -/
theorem ready_chooseLabels (h : Ready m s) : Ready m (chooseLabels m s) where
  wellFormed := h.wellFormed
  numLabels_pos := h.numLabels_pos
  numLabels_eq := h.numLabels_eq
  labels_size := by simp [chooseLabels, h.labels_size]
  proposed_size := h.proposed_size
  labeling_lt := by
    refine getD_lt_of_forall_mem h.numLabels_pos fun l hl => ?_
    obtain ⟨v, rfl⟩ := Array.mem_ofFn.mp hl
    exact cheapest_lt h.numLabels_pos v
  shaped := h.shaped
  consistent := h.consistent

theorem checkEnergy_ends (c : Nat) (labels : List Nat) (energy : Int) (s : Solver σ τ) :
    Ends (checkEnergy c labels energy) s (fun _ s' => s' = s ∧ 0 ≤ energy)
      (fun fault s' => s' = s ∧ fault = .negativeEnergy c energy ∧ energy < 0) := by
  unfold checkEnergy
  split
  · rename_i hneg
    exact ends_bind (ends_record (ends_fail ⟨rfl, rfl, hneg⟩))
  · rename_i hneg
    exact ends_pure ⟨rfl, Int.not_lt.mp hneg⟩

/-- Splitting the energies over zero duals makes them tight. -/
theorem seeds_end (h : Ready m s)
    (hzero : ∀ c clique, m.cliques[c]? = some clique →
      s.certificate.dualSum c (clique.labelsAt s.labeling) = 0) :
    Ends (forEach m.cliques.zipIdx fun p => seed p.2 p.1) s
      (fun _ s' => ∃ t, s' = { s with certificate := t } ∧
        Certificate.TightUpTo m s.labeling s.certificate m.numCliques t)
      (fun fault s' => fault.blamesTightness = false ∧ s'.phase = s.phase ∧ s'.graph = s.graph ∧
        ¬ m.NonNegative) := by
  refine ends_forEach_zipIdx (I := fun n s' => ∃ t, s' = { s with certificate := t } ∧
    Certificate.TightUpTo m s.labeling s.certificate n t) (fun n clique hclique s₁ h₁ => ?_)
    ⟨s.certificate, rfl, .zero h.shaped h.consistent _⟩
  obtain ⟨t, rfl, ht⟩ := h₁
  unfold seed
  refine ends_bind (ends_get (ends_bind ((checkEnergy_ends n _ _ _).mono (fun _ s₂ h₂ => ?_)
    fun fault s₂ h₂ => ?_)))
  · obtain ⟨rfl, -⟩ := h₂
    -- clique `n` has not been seeded yet, so its duals lack the whole energy
    have hsum := ht.dualSum_eq n clique hclique
    rw [if_neg (Nat.lt_irrefl n), hzero n clique hclique] at hsum
    have hnext := ht.succ h.wellFormed h.labeling_lt hclique
    rw [hsum, Int.sub_zero] at hnext
    exact ends_modify ⟨_, rfl, hnext⟩
  · obtain ⟨rfl, rfl, hneg⟩ := h₂
    refine ⟨rfl, rfl, rfl, fun hnonneg => ?_⟩
    have : 0 ≤ clique.energyAt s.labeling :=
      hnonneg clique (List.mem_of_getElem? hclique) s.labeling h.labeling_lt
    have hlt : clique.energyAt s.labeling < 0 := hneg
    omega

/-- A start leaves a ready solver with tight duals.  It succeeds for a valid model without negative
    energies on a graph that fits. -/
theorem start_ends (m : Model) (s : Solver σ τ) :
    Ends (start m) s
      (fun _ s' => s'.phase = .iterating ∧ Certified m s' ∧
        (s.graph.Fits m → s'.graph.Mirrors m))
      (fun fault s' => fault.blamesTightness = false ∧ s'.phase = s.phase ∧
        (s.graph.Fits m → s'.graph.Fits m) ∧
        ¬ (m.Valid ∧ m.NonNegative ∧ s.graph.Fits m)) := by
  unfold start
  refine ends_bind ((buildTables_ends m s).mono (fun _ s₁ h₁ => ?_) fun fault s₁ h₁ => ?_)
  · obtain ⟨hv, hmirrors, g, rfl⟩ := h₁
    refine ends_bind (ends_modify ?_)
    have hready := ready_chooseLabels (ready_allocate hv (s.withGraph g))
    generalize hs₂ : chooseLabels m (allocate m (s.withGraph g)) = s₂ at hready
    have hzero : ∀ c clique, m.cliques[c]? = some clique →
        s₂.certificate.dualSum c (clique.labelsAt s₂.labeling) = 0 := by
      intro c clique _
      rw [← hs₂]
      simp [Certificate.dualSum, chooseLabels, allocate, Certificate.initial]
    have hphase : s₂.phase = s.phase := by rw [← hs₂]; rfl
    have hgraph : s₂.graph = g := by rw [← hs₂]; rfl
    have hg : s.graph.Fits m → g.Mirrors m := hmirrors
    refine ends_bind ((seeds_end hready hzero).mono (fun _ s₃ h₃ => ?_) fun fault s₃ h₃ => ?_)
    · obtain ⟨t, rfl, ht⟩ := h₃
      refine ends_bind (ends_modify (ends_bind (ends_get (ends_record ⟨rfl, ⟨?_, ht.tight⟩, ?_⟩))))
      · exact (hready.withCertificate ht.shaped ht.consistent).of_eq rfl rfl rfl rfl
      · intro hfits
        show s₂.graph.Mirrors m
        rw [hgraph]
        exact hg hfits
    · obtain ⟨hblame, hph, hgr, hneg⟩ := h₃
      refine ⟨hblame, by rw [hph, hphase], fun hfits => ?_, fun hall => hneg hall.2.1⟩
      rw [hgr, hgraph]
      exact (hg hfits).fits
  · obtain ⟨hblame, ⟨g, rfl⟩, hfits, hnot⟩ := h₁
    exact ⟨hblame, rfl, hfits, fun hall => hnot ⟨hall.1, hall.2.2⟩⟩

/-- A solver that has started on a graph that fits is certified, and its graph mirrors the model. -/
theorem certified_start (hok : (start m s).result = .ok ()) (hfits : s.graph.Fits m) :
    Certified m (start m s).state ∧ (start m s).state.graph.Mirrors m := by
  obtain ⟨-, hcert, hmirrors⟩ := (start_ends m s).of_ok hok
  exact ⟨hcert, hmirrors hfits⟩

end Solver

end FusionMove
