import FusionMove.Proofs.Cut.Contract

namespace FusionMove.Cut

/-!
# The potentials that a cut leaves

A cut leaves in every factor one potential a member.  The fixed members get none, and the free ones
share out what the table gives all of them together; for this the tables may be any.  If they are
submodular, no set of free members gets more than the table gives that set, so the potentials are a
base of the polyhedron of the table, and the members that were chosen get just what it gives them.

* `Factor.SharesOut`, `Factor.BaseAt` — the two parts of this, on a factor that records a cut;
* `minimumCut_sum_free`, `minimumCut_sum_chosen` — the sums over the free and the chosen members;
* `minimumCut_costWithPotentials` — the costs of the nodes once the potentials are added to them;
* `maxFlow_run_bases` — what a run of the oracle leaves.
-/

open scoped CoreArithmetic

namespace Factor

/-- The potential that the last cut has left at member `p`. -/
def potentialAt (f : Factor) (p : Nat) : Int :=
  f.potential.getD p 0

/-- The members that are not fixed. -/
def freeMask (f : Factor) (fixed : Nat → Bool) : Nat :=
  f.maskOf fun v => !fixed v

/-- Fixed members have no potential, and the free ones have together what the table gives all of
    them. -/
structure SharesOut (f : Factor) (fixed : Nat → Bool) : Prop where
  size_eq : f.potential.size = f.size
  fixed_eq : ∀ p v, f.members[p]? = some v → fixed v = true → f.potentialAt p = 0
  sum_free : Mask.sum f.size f.potentialAt (f.freeMask fixed)
    = f.entry (f.freeMask fixed) - f.entry 0

/-- No set of free members has more than the table gives it, and the members in `S` have just
    that. -/
structure BaseAt (f : Factor) (fixed S : Nat → Bool) : Prop where
  sum_le : ∀ t, Mask.Within t (f.freeMask fixed) →
    Mask.sum f.size f.potentialAt t ≤ f.entry t - f.entry 0
  sum_eq : Mask.sum f.size f.potentialAt (f.maskOf S) = f.entry (f.maskOf S) - f.entry 0

end Factor

variable {g : Graph} {c : Nat} {f : Factor}

/-! ### Potentials of a minimum cut -/

/-- Over the free members the potentials sum to what the table gives them, whatever it is. -/
theorem minimumCut_sum_free (hw : g.WellFormed) (hfac : g.factors[c]? = some f) :
    Mask.sum f.size ((minimumCut g).potential c) (f.freeMask g.isFixed)
      = f.entry (f.freeMask g.isFixed) - f.entry 0 := by
  obtain ⟨h, hh, hc⟩ := (Network.residual_saturated hw).1.exists_channel hfac
  have hpotential : (minimumCut g).potential c = h.potential := by
    ext p
    rw [minimumCut, Run.answer_potential, Network.potentialAt, hh]
    rfl
  have hsum := hc.sum_potential
  rw [hc.free_eq] at hsum
  rw [hpotential]
  exact hsum

/-- Over the chosen members they do so too if the tables are submodular. -/
theorem minimumCut_sum_chosen (hw : g.WellFormed) (hg : g.Submodular)
    (hfac : g.factors[c]? = some f) :
    Mask.sum f.size ((minimumCut g).potential c) (f.maskOf (minimumCut g).chosen)
      = f.entry (f.maskOf (minimumCut g).chosen) - f.entry 0 := by
  have hcut := minimumCut_factor_energy hw hfac
  rw [minimumCut_slackOn hw hg c, ← f.sum_maskOf ((minimumCut g).potential c), Factor.energy,
    Factor.energy, f.maskOf_none] at hcut
  omega

/-! ### Costs of the nodes -/

/-- What it costs more to take `v` than to leave it, with the potentials of its places. -/
def Answer.costWithPotentials (g : Graph) (a : Answer) (v : Nat) : Int :=
  g.cost1 v - g.cost0 v + ((g.places v).map fun p => a.potential p.1 p.2).sum

/-- With the potentials it does not pay to leave a node that was chosen, nor to take a free one that
    was not. -/
theorem minimumCut_costWithPotentials (hw : g.WellFormed) (hg : g.Submodular) {v : Nat}
    (hv : v < g.numNodes) :
    ((minimumCut g).chosen v = true → (minimumCut g).costWithPotentials g v ≤ 0) ∧
      (g.isFixed v = false → (minimumCut g).chosen v = false →
        0 ≤ (minimumCut g).costWithPotentials g v) := by
  obtain ⟨hf, hnone, -⟩ := Network.feasible_saturated hw hg
  -- what is left on the terminal arcs of the node
  have hleft : (minimumCut g).costWithPotentials g v
      = (Network.ofGraph g).saturated.network.demand v
        - (Network.ofGraph g).saturated.network.supply v := by
    rw [hf.demand_sub_supply hv]
    rfl
  have hsupply := hf.supply_nonneg hv
  have hdemand := hf.demand_nonneg hv
  rw [hleft, minimumCut, Run.answer_chosen, ← hf.fixed_eq v hv]
  refine ⟨fun hchosen => ?_, fun hfree hout => ?_⟩
  · have := Network.demand_of_visited hnone hchosen
    omega
  · have hdry : ¬ 0 < (Network.ofGraph g).saturated.network.supply v := fun hpos => by
      rw [Network.visited_of_supply hfree hpos] at hout
      exact Bool.noConfusion hout
    omega

/-! ### Recorded potentials -/

/-- A recorded answer stands in the factors. -/
theorem factors_record (a : Answer) (hfac : g.factors[c]? = some f) :
    (g.record a).factors[c]?
      = some { f with potential := Array.ofFn fun p : Fin f.size => a.potential c p } := by
  simp [Graph.record, hfac]

/-- The potentials of a recorded answer are those of the answer. -/
theorem sum_potentialAt_ofFn (f : Factor) (potential : Nat → Int) (t : Nat) :
    Mask.sum f.size
      ({ f with potential := Array.ofFn fun p : Fin f.size => potential p } : Factor).potentialAt t
      = Mask.sum f.size potential t :=
  Mask.sum_congr fun p hp _ => by simp [Factor.potentialAt, hp]

/-- A run of the oracle changes neither members nor tables.  It leaves potentials that share out, in
    every factor, what the table gives the free members.  If the tables are submodular, the
    potentials are a base of each table that is tight at the chosen members. -/
theorem maxFlow_run_bases (hw : g.WellFormed) :
    (maxFlow.run ⟨g, ()⟩).result = .ok (minimumCut g) ∧
      ∀ (c : Nat) (f : Factor), g.factors[c]? = some f →
        ∃ f', (maxFlow.run ⟨g, ()⟩).state.graph.factors[c]? = some f' ∧
          f'.members = f.members ∧ f'.table = f.table ∧ f'.SharesOut g.isFixed ∧
          (g.Submodular → f'.BaseAt g.isFixed (maxFlow.run ⟨g, ()⟩).state.graph.chosen) := by
  obtain ⟨hresult, hstate⟩ := maxFlow_run hw
  refine ⟨hresult, fun c f hfac => ?_⟩
  have hchosen : (g.record (minimumCut g)).chosen = (minimumCut g).chosen :=
    chosen_record fun v hv => (minimumCut_freeSet hw v hv).1
  have hsum := sum_potentialAt_ofFn f ((minimumCut g).potential c)
  rw [hstate]
  refine ⟨_, factors_record _ hfac, rfl, rfl, ⟨Array.size_ofFn, fun p v hp hfixed => ?_, ?_⟩,
    fun hg => ⟨fun t ht => ?_, ?_⟩⟩
  · have hlt : p < f.size := (List.getElem?_eq_some_iff.mp hp).1
    have hzero := minimumCut_potential_fixed hw hfac hp hfixed
    simpa [Factor.potentialAt, hlt] using hzero
  · exact (hsum _).trans (minimumCut_sum_free hw hfac)
  · exact (hsum t).trans_le (minimumCut_potential_le hw hg hfac ht)
  · rw [hchosen]
    exact (hsum _).trans (minimumCut_sum_chosen hw hg hfac)

/-- Four nodes, the third of them fixed, in two overlapping factors; one of them has its last node
    twice.  The first node is chosen, and the factors charge it 2 and 3. -/
theorem maxFlow_run_bases_overlapping :
    let g : Graph := ⟨#[⟨9, 0, false⟩, ⟨0, 2, false⟩, ⟨2, 0, false⟩, ⟨0, 4, false⟩],
      [.ofTable [0, 1, 2] #[0, 2, 2, 2, 2, 2, 2, 0], .ofTable [3, 0, 3] #[1, 4, 4, 4, 1, 4, 4, 4]],
      0, #[false, false, true]⟩
    (g.WellFormed ∧ g.Submodular) ∧
      (maxFlow.run ⟨g, ()⟩).state.graph.factors.map (·.potential) = [#[2, 0, 0], #[0, 3, 0]] ∧
      (maxFlow.run ⟨g, ()⟩).result = .ok (minimumCut g) ∧
      ∀ (c : Nat) (f : Factor), g.factors[c]? = some f →
        ∃ f', (maxFlow.run ⟨g, ()⟩).state.graph.factors[c]? = some f' ∧
          f'.members = f.members ∧ f'.table = f.table ∧ f'.SharesOut g.isFixed ∧
          (g.Submodular → f'.BaseAt g.isFixed (maxFlow.run ⟨g, ()⟩).state.graph.chosen) :=
  ⟨by decide, by decide +kernel, maxFlow_run_bases (by decide)⟩

end FusionMove.Cut
