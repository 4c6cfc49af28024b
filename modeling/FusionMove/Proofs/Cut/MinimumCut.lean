import FusionMove.Proofs.Cut.Augment

namespace FusionMove.Cut

/-!
# Minimum cuts

When a search finds no path, the nodes it reached are a cut without capacity: they cannot send to
the sink, the free nodes outside get nothing from the source, and no channel has slack for its
members inside.

* `Network.Closes` — such a cut;
* `Residual.energy_le_empty` — in any network, a set that cannot send to the sink and leaves no slack
  costs no more than the empty set;
* `Closes.energy_le` — in a feasible network it has the least energy of all sets of free nodes;
* `minimumCut_leastMinimiser` — the set that the last search reached has the least energy, and lies
  in every set that has it;
* `maxFlow_run_leastMinimiser` — the same of what the oracle leaves in the graph.
-/

namespace Graph

/-- Sets of free nodes. -/
def FreeSet (g : Graph) (S : Nat → Bool) : Prop :=
  ∀ v, S v = true → v < g.numNodes ∧ g.isFixed v = false

/-- A set of free nodes of least energy that lies in every other one. -/
structure LeastMinimiser (g : Graph) (S : Nat → Bool) : Prop where
  free : g.FreeSet S
  energy_le : ∀ T, g.FreeSet T → g.energy S ≤ g.energy T
  least : ∀ T, g.FreeSet T → g.energy T = g.energy S → ∀ v, S v = true → T v = true

end Graph

namespace Network

/-- A search reaches free nodes only. -/
theorem fixed_of_visited {net : Network} {v : Nat} (hv : net.search.visited v = true) :
    net.fixed v = false := by
  obtain ⟨level, done, w, hs, hp, -⟩ := net.search_sound
  exact (hs.traced_pathTo hp ((visited_iff_reached hs hp v).mp hv)).leads.last_free

/-- When a search finds no path, no node that it reached can send to the sink. -/
theorem demand_of_visited {net : Network} (hnone : net.search.found = none) {v : Nat}
    (hv : net.search.visited v = true) : net.demand v ≤ 0 := by
  obtain ⟨level, done, w, hs, hp, hend⟩ := net.search_sound
  rw [hnone] at hend
  rw [visited_iff_reached hs hp, hend, List.append_nil] at hv
  exact hs.dry v hv

/-- It reached every free node that the source can still supply. -/
theorem visited_of_supply {net : Network} {v : Nat} (hfree : net.fixed v = false)
    (hpos : 0 < net.supply v) : net.search.visited v = true := by
  obtain ⟨level, done, w, hs, hp, -⟩ := net.search_sound
  rw [visited_iff_reached hs hp, ← hs.reached_iff,
    (hs.source_iff v).mpr (isStart_iff.mpr ⟨hfree, hpos⟩)]
  exact Parent.noConfusion

/-- It reached the head of every arrow out of a node that it reached. -/
theorem visited_of_arrow {net : Network} (hnone : net.search.found = none) {u : Nat} {a : Arc}
    (hu : net.search.visited u = true) (ha : net.Arrow u a) :
    net.search.visited a.target = true := by
  obtain ⟨level, done, w, hs, hp, hend⟩ := net.search_sound
  rw [hnone] at hend
  -- the queue is empty, so every arrow out of a reached node has been followed
  rw [visited_iff_reached hs hp, hend, List.append_nil] at hu ⊢
  have := hs.closed u hu a ha
  rwa [hend, List.append_nil] at this

/-- It started at a node that the source can still supply. -/
theorem exists_supply_of_visited {net : Network} {v : Nat} (hv : net.search.visited v = true) :
    ∃ u, net.search.visited u = true ∧ 0 < net.supply u := by
  obtain ⟨level, done, w, hs, hp, -⟩ := net.search_sound
  have ht := hs.traced_pathTo hp ((visited_iff_reached hs hp v).mp hv)
  obtain ⟨hfree, hpos⟩ := isStart_iff.mp ht.isStart_first
  exact ⟨_, visited_of_supply hfree hpos, hpos⟩

/-- A set of nodes that are not fixed is one of free nodes of the graph. -/
theorem Residual.freeSet {g : Graph} {net : Network} (hr : Residual g net) {S : Nat → Bool}
    (hfree : ∀ v, S v = true → net.fixed v = false) : g.FreeSet S := by
  intro v hv
  have hlt := hr.lt_of_free (hfree v hv)
  exact ⟨hlt, by rw [← hr.fixed_eq v hlt]; exact hfree v hv⟩

/-- The members of a free set are free. -/
theorem Residual.within_free {g : Graph} {net : Network} (hr : Residual g net) {T : Nat → Bool}
    {c : Nat} {h : Channel} (hh : net.channels[c]? = some h) (hT : g.FreeSet T) :
    Mask.Within (Mask.ofBits (h.members.map T)) h.free := by
  obtain ⟨f, -, hc⟩ := hr.exists_factor hh
  rw [hc.free_eq, hc.members_eq]
  exact Mask.ofBits_map_within fun v _ hv => by rw [(hT v hv).2]; rfl

/-- No arc with capacity leads from the members of a free set to the free members outside, if the
    set holds with a tail the head of every arrow. -/
theorem Residual.exchangeCapacity_le_of_closed {g : Graph} {net : Network} (hr : Residual g net)
    (hw : g.WellFormed) {T : Nat → Bool} (hT : g.FreeSet T)
    (hclosed : ∀ u a, T u = true → net.Arrow u a → T a.target = true) {c : Nat} {h : Channel}
    (hh : net.channels[c]? = some h) {p q : Nat}
    (hp : (Mask.ofBits (h.members.map T)).testBit p = true) (hfq : h.free.testBit q = true)
    (hq : (Mask.ofBits (h.members.map T)).testBit q = false) : h.exchangeCapacity p q ≤ 0 := by
  obtain ⟨f, hfac, hc⟩ := hr.exists_factor hh
  have hpq : p ≠ q := by
    rintro rfl
    exact absurd (hp.symm.trans hq) (by simp)
  have hfp := (hr.within_free hh hT).testBit hp
  have hmember : ∀ i, h.free.testBit i = true → ∃ v, h.members[i]? = some v := by
    intro i hi
    rw [hc.members_eq]
    exact ⟨_, List.getElem?_eq_getElem (Mask.lt_of_testBit hc.free_lt hi)⟩
  obtain ⟨u, hu⟩ := hmember p hfp
  obtain ⟨v, hv⟩ := hmember q hfq
  rw [Mask.testBit_ofBits_map, hu] at hp
  rw [Mask.testBit_ofBits_map, hv] at hq
  have hvfree : net.fixed v = false := by
    have hv' : f.members[q]? = some v := by rw [← hc.members_eq]; exact hv
    rw [hr.fixed_eq v ((hw f (List.mem_of_getElem? hfac)).1 v (List.mem_of_getElem? hv'))]
    have hbit := hc.testBit_free hv'
    rw [hfq] at hbit
    simpa using hbit.symm
  -- an arc with capacity would be an arrow, and its head lies outside
  by_contra hpos
  have harrow : net.Arrow u ⟨c, p, q, v⟩ :=
    ⟨mem_arcsFrom.mpr ⟨h, hh, hu, hv, hpq⟩, hvfree, by
      rw [capacity_eq ⟨c, p, q, v⟩ hh]
      simpa using hpos⟩
  have hhead : T v = true := hclosed u _ hp harrow
  exact absurd (hhead.symm.trans hq) (by simp)

/-- A set of free nodes that cannot send to the sink costs no more than the empty set, if it leaves
    no channel with slack. -/
theorem Residual.energy_le_empty {g : Graph} {net : Network} (hr : Residual g net)
    (hw : g.WellFormed) {S : Nat → Bool} (hdry : ∀ v, S v = true → net.demand v ≤ 0)
    (hslack : ∀ c < g.factors.length, net.slackOn S c ≤ 0) :
    g.energy S ≤ g.energy fun _ => false := by
  have hnodes : sumTo g.numNodes (fun v => if S v then net.demand v - net.supply v else 0) ≤ 0 := by
    refine sumTo_nonpos fun v hv => ?_
    split
    · rename_i hSv
      have := hdry v hSv
      have := hr.supply_nonneg hv
      omega
    · exact Int.le_refl _
  have hslacks := sumTo_nonpos hslack
  have := hr.energy_sub hw S
  omega

/-- The set `S` is a cut of the network without capacity. -/
structure Closes (net : Network) (S : Nat → Bool) : Prop where
  free : ∀ v, S v = true → net.fixed v = false
  dry : ∀ v, S v = true → net.demand v ≤ 0
  supplied : ∀ v, net.fixed v = false → 0 < net.supply v → S v = true
  slackOn_eq_zero : ∀ c, net.slackOn S c = 0

namespace Feasible

variable {g : Graph} {net : Network} {S T : Nat → Bool}

/-- Free sets have no negative slack. -/
theorem slackOn_nonneg (hf : Feasible g net) (hT : g.FreeSet T) (c : Nat) :
    0 ≤ net.slackOn T c := by
  rw [slackOn]
  cases hh : net.channels[c]? with
  | none => exact Int.le_refl _
  | some h => exact hf.nonneg c h hh _ (hf.within_free hh hT)

/-- What the network leaves of a node's costs is least for the sides of a cut without capacity. -/
theorem node_le (hf : Feasible g net) (hS : net.Closes S) (hT : g.FreeSet T) {v : Nat}
    (hv : v < g.numNodes) :
    (if S v then net.demand v - net.supply v else 0)
      ≤ if T v then net.demand v - net.supply v else 0 := by
  have hdemand := hf.demand_nonneg hv
  have hsupply := hf.supply_nonneg hv
  -- only where the two sets differ there is something to compare
  cases hSv : S v <;> cases hTv : T v
  · exact Int.le_refl _
  · -- outside of the cut a free node has no supply left
    have hfree : net.fixed v = false := by rw [hf.fixed_eq v hv]; exact (hT v hTv).2
    have : ¬ 0 < net.supply v := fun hpos => by simp [hS.supplied v hfree hpos] at hSv
    simp only [Bool.false_eq_true, if_false, if_true]
    omega
  · -- inside of the cut no node has demand left
    have := hS.dry v hSv
    simp only [Bool.false_eq_true, if_false, if_true]
    omega
  · exact Int.le_refl _

/-- A cut without capacity has the least energy of all sets of free nodes. -/
theorem energy_le (hf : Feasible g net) (hw : g.WellFormed) (hS : net.Closes S)
    (hT : g.FreeSet T) : g.energy S ≤ g.energy T := by
  have hnodes : sumTo g.numNodes (fun v => if S v then net.demand v - net.supply v else 0)
      ≤ sumTo g.numNodes fun v => if T v then net.demand v - net.supply v else 0 :=
    sumTo_le_sumTo fun v hv => hf.node_le hS hT hv
  have hslacks : sumTo g.factors.length (net.slackOn S) ≤ sumTo g.factors.length (net.slackOn T) :=
    sumTo_le_sumTo fun c _ => by rw [hS.slackOn_eq_zero]; exact hf.slackOn_nonneg hT c
  -- both energies are node terms plus slacks, up to the same constant
  have h1 := hf.energy_sub hw S
  have h2 := hf.energy_sub hw T
  omega

/-- A set with the least energy is a cut without capacity as well. -/
theorem closes_of_energy_eq (hf : Feasible g net) (hw : g.WellFormed) (hS : net.Closes S)
    (hT : g.FreeSet T) (heq : g.energy T = g.energy S) :
    (∀ v, net.fixed v = false → 0 < net.supply v → T v = true) ∧
      ∀ c < g.factors.length, net.slackOn T c = 0 := by
  -- no term of the difference is negative and they sum to zero, so each one is zero
  have hnode : ∀ v < g.numNodes, 0 ≤ (if T v then net.demand v - net.supply v else 0)
      - if S v then net.demand v - net.supply v else 0 :=
    fun v hv => by have := hf.node_le hS hT hv; omega
  have hslack : ∀ c < g.factors.length, 0 ≤ net.slackOn T c - net.slackOn S c :=
    fun c _ => by rw [hS.slackOn_eq_zero]; have := hf.slackOn_nonneg hT c; omega
  have h1 := hf.energy_sub hw S
  have h2 := hf.energy_sub hw T
  have hsum := sumTo_nonneg hnode
  have hsum' := sumTo_nonneg hslack
  rw [sumTo_sub] at hsum hsum'
  refine ⟨fun v hfree hpos => ?_, fun c hc => ?_⟩
  · have hv := hf.lt_of_free hfree
    have hzero := eq_zero_of_sumTo_eq_zero hnode (by rw [sumTo_sub]; omega) v hv
    have hSv := hS.supplied v hfree hpos
    have hdry := hS.dry v hSv
    by_contra hTv
    rw [hSv, Bool.eq_false_iff.mpr hTv] at hzero
    simp only [Bool.false_eq_true, if_false, if_true] at hzero
    omega
  · have hzero := eq_zero_of_sumTo_eq_zero hslack (by rw [sumTo_sub]; omega) c hc
    rw [hS.slackOn_eq_zero] at hzero
    omega

/-- A free set without slack that holds the tail of an arrow holds its head. -/
theorem mem_head (hf : Feasible g net) (hT : g.FreeSet T)
    (hslack : ∀ c < g.factors.length, net.slackOn T c = 0) {u : Nat} {a : Arc}
    (ha : net.Arrow u a) (hu : T u = true) : T a.target = true := by
  obtain ⟨h, hh, hp, hq, -⟩ := mem_arcsFrom.mp ha.mem
  obtain ⟨f, hfac, hc⟩ := hf.exists_factor hh
  -- otherwise the arrow leaves `T`, and its capacity is at most the slack of `T`
  by_contra htarget
  have hle : net.capacity a ≤ net.slackOn T a.c := by
    rw [capacity_eq a hh, slackOn, hh]
    refine Channel.exchangeCapacity_le hc (hf.within_free hh hT) ?_ ?_
    · rw [Mask.testBit_ofBits_map, hp]
      exact hu
    · rw [Mask.testBit_ofBits_map, hq]
      simpa using htarget
  have := ha.capacity_pos
  rw [hslack a.c (List.getElem?_eq_some_iff.mp hfac).1] at hle
  omega

/-- The members of a free set are kept apart from the free members outside, if the set holds with a
    tail the head of every arrow. -/
theorem blocked_of_closed (hf : Feasible g net) (hw : g.WellFormed) (hT : g.FreeSet T)
    (hclosed : ∀ u a, T u = true → net.Arrow u a → T a.target = true) {c : Nat} {h : Channel}
    (hh : net.channels[c]? = some h) {p q : Nat}
    (hp : (Mask.ofBits (h.members.map T)).testBit p = true) (hfq : h.free.testBit q = true)
    (hq : (Mask.ofBits (h.members.map T)).testBit q = false) :
    Mask.Blocked h.free h.slackAt p q := by
  obtain ⟨f, -, hc⟩ := hf.exists_factor hh
  have hpq : p ≠ q := by
    rintro rfl
    exact absurd (hp.symm.trans hq) (by simp)
  exact Channel.blocked_of_capacity_le hc (hf.nonneg c h hh) ((hf.within_free hh hT).testBit hp) hpq
    (hf.exchangeCapacity_le_of_closed hw hT hclosed hh hp hfq hq)

/-- Where the tables are submodular, such a set has no slack. -/
theorem slackOn_eq_zero (hf : Feasible g net) (hw : g.WellFormed) (hg : g.Submodular)
    (hT : g.FreeSet T) (hclosed : ∀ u a, T u = true → net.Arrow u a → T a.target = true) (c : Nat) :
    net.slackOn T c = 0 := by
  rw [slackOn]
  cases hh : net.channels[c]? with
  | none => rfl
  | some h =>
    obtain ⟨f, hfac, hc⟩ := hf.exists_factor hh
    have hsize := (hw f (List.mem_of_getElem? hfac)).2
    exact (hf.submodular hw hg hh).eq_zero_of_blocked (hf.nonneg c h hh) (hc.slackAt_zero hsize)
      (hc.slackAt_free hsize) hc.free_lt (hf.within_free hh hT) fun p q hp hfq hq =>
        hf.blocked_of_closed hw hT hclosed hh hp hfq hq

/-- When a search finds no path, the nodes it reached are a cut without capacity. -/
theorem closes_search (hf : Feasible g net) (hw : g.WellFormed) (hg : g.Submodular)
    (hnone : net.search.found = none) : net.Closes net.search.visited where
  free _ := fixed_of_visited
  dry _ := demand_of_visited hnone
  supplied _ := visited_of_supply
  slackOn_eq_zero := hf.slackOn_eq_zero hw hg (hf.freeSet fun _ => fixed_of_visited)
    fun _ _ hu ha => visited_of_arrow hnone hu ha

/-- When a search finds no path, the nodes it reached are the least set of least energy. -/
theorem leastMinimiser_search (hf : Feasible g net) (hw : g.WellFormed) (hg : g.Submodular)
    (hnone : net.search.found = none) : g.LeastMinimiser net.search.visited := by
  have hS := hf.closes_search hw hg hnone
  refine ⟨hf.freeSet hS.free, fun T hT => hf.energy_le hw hS hT, fun T hT heq v hv => ?_⟩
  -- a set of least energy holds the starts and is closed under the arcs of the search
  obtain ⟨hstart, hslack⟩ := hf.closes_of_energy_eq hw hS hT heq
  obtain ⟨level, done, w, hs, hp, -⟩ := net.search_sound
  have ht := hs.traced_pathTo hp ((visited_iff_reached hs hp v).mp hv)
  obtain ⟨hfree, hpos⟩ := isStart_iff.mp ht.isStart_first
  exact ht.leads.mem_last (hstart _ hfree hpos) fun u a hu ha => hf.mem_head hT hslack ha hu

end Feasible

end Network

/-! ### The answer of the oracle -/

variable {g : Graph}

@[simp] theorem Run.answer_chosen (g : Graph) (r : Run) :
    (r.answer g).chosen = r.network.search.visited := rfl

@[simp] theorem Run.answer_potential (g : Graph) (r : Run) (c p : Nat) :
    (r.answer g).potential c p = r.network.potentialAt (c, p) := rfl

@[simp] theorem Run.answer_energy (g : Graph) (r : Run) :
    (r.answer g).energy = g.energy r.network.search.visited := rfl

/-- The set that the oracle reports is the least set of least energy. -/
theorem minimumCut_leastMinimiser (hw : g.WellFormed) (hg : g.Submodular) :
    g.LeastMinimiser (minimumCut g).chosen := by
  obtain ⟨hf, hnone, -⟩ := Network.feasible_saturated hw hg
  rw [minimumCut, Run.answer_chosen]
  exact hf.leastMinimiser_search hw hg hnone

/-- The set that the oracle reports is one of free nodes, whatever the tables. -/
theorem minimumCut_freeSet (hw : g.WellFormed) : g.FreeSet (minimumCut g).chosen := by
  rw [minimumCut, Run.answer_chosen]
  exact (Network.residual_saturated hw).1.freeSet fun _ => Network.fixed_of_visited

/-- At the set that it reports, the potentials account for the energy of every factor up to the slack
    that the run left. -/
theorem minimumCut_factor_energy (hw : g.WellFormed) {c : Nat} {f : Factor}
    (hfac : g.factors[c]? = some f) :
    f.energy (minimumCut g).chosen - f.energy (fun _ => false)
      = (Network.ofGraph g).saturated.network.slackOn (minimumCut g).chosen c
        + sumTo f.size fun p => if (minimumCut g).chosen (f.members.getD p 0)
            then (minimumCut g).potential c p else 0 := by
  simp only [minimumCut, Run.answer_potential]
  exact (Network.residual_saturated hw).1.factor_energy_sub hw _ hfac

/-- Over submodular tables no slack is left at this set. -/
theorem minimumCut_slackOn (hw : g.WellFormed) (hg : g.Submodular) (c : Nat) :
    (Network.ofGraph g).saturated.network.slackOn (minimumCut g).chosen c = 0 := by
  obtain ⟨hf, hnone, -⟩ := Network.feasible_saturated hw hg
  rw [minimumCut, Run.answer_chosen]
  exact (hf.closes_search hw hg hnone).slackOn_eq_zero c

/-- A fixed member reports no potential. -/
theorem minimumCut_potential_fixed (hw : g.WellFormed) {c p v : Nat} {f : Factor}
    (hfac : g.factors[c]? = some f) (hp : f.members[p]? = some v)
    (hfixed : g.isFixed v = true) : (minimumCut g).potential c p = 0 := by
  have hr := (Network.residual_saturated hw).1
  rw [minimumCut]
  generalize (Network.ofGraph g).saturated = r at hr ⊢
  rw [Run.answer_potential, Network.potentialAt]
  cases hh : r.network.channels[c]? with
  | none => rfl
  | some h =>
    have hc : h.Carries g.isFixed f := hr.carries c f h hfac hh
    exact hc.potential_fixed (by rw [hc.testBit_free hp, hfixed]; rfl)

/-- Unless the run warned of a path that carries nothing, the set that it reports costs no more than
    the empty set, if it is left with no slack. -/
theorem minimumCut_energy_le (hw : g.WellFormed)
    (hquiet : ∀ sink flow, Event.noCapacity sink flow ∉ (Network.ofGraph g).saturated.events)
    (hslack : ∀ c < g.factors.length,
      (Network.ofGraph g).saturated.network.slackOn (minimumCut g).chosen c ≤ 0) :
    g.energy (minimumCut g).chosen ≤ g.energy fun _ => false := by
  obtain ⟨hr, hend⟩ := Network.residual_saturated hw
  have hnone := hend.resolve_right fun ⟨sink, flow, hwarn⟩ => hquiet sink flow hwarn
  rw [minimumCut, Run.answer_chosen] at hslack ⊢
  exact hr.energy_le_empty hw (fun _ => Network.demand_of_visited hnone) hslack

/-- What the oracle does with a well-formed graph. -/
theorem maxFlow_solve (hw : g.WellFormed) :
    (maxFlow.solve g ()).result = .ok (minimumCut g) := by
  show ((Action.require g.WellFormed .outOfRange >>= _ : Action Unit Answer) ()).result = _
  rw [Action.require, if_pos hw]
  rfl

/-- What the oracle leaves in a well-formed graph. -/
theorem maxFlow_run (hw : g.WellFormed) :
    (maxFlow.run ⟨g, ()⟩).result = .ok (minimumCut g) ∧
      (maxFlow.run ⟨g, ()⟩).state = ⟨g.record (minimumCut g), ()⟩ := by
  have hsolve := maxFlow_solve hw
  show ((Action.get >>= _ : Action (Engine Unit) Answer) ⟨g, ()⟩).result = _ ∧
    ((Action.get >>= _ : Action (Engine Unit) Answer) ⟨g, ()⟩).state = _
  simp only [Action.bind_apply, Action.get_apply, Action.zoom, hsolve, Action.modify_apply]
  exact ⟨rfl, rfl⟩

/-- A recorded answer stands in the nodes. -/
theorem chosen_record {a : Answer} (ha : ∀ v, a.chosen v = true → v < g.numNodes) :
    (g.record a).chosen = a.chosen := by
  ext v
  by_cases hv : v < g.numNodes
  · simp [Graph.chosen, Graph.record, hv]
  · have hout : a.chosen v = false := Bool.eq_false_iff.mpr fun h => hv (ha v h)
    simp [Graph.chosen, Graph.record, hv, hout, Node.blank]

/-- On a graph with submodular tables the oracle does not fault.  It reports the energy of the set
    that it leaves in the graph, and that set is the least one of least energy among the sets of
    free nodes. -/
theorem maxFlow_run_leastMinimiser (hw : g.WellFormed) (hg : g.Submodular) :
    ∃ answer, (maxFlow.run ⟨g, ()⟩).result = .ok answer ∧
      answer.energy = g.energy (maxFlow.run ⟨g, ()⟩).state.graph.chosen ∧
      g.LeastMinimiser (maxFlow.run ⟨g, ()⟩).state.graph.chosen := by
  obtain ⟨hresult, hstate⟩ := maxFlow_run hw
  have hleast := minimumCut_leastMinimiser hw hg
  have hchosen : (maxFlow.run ⟨g, ()⟩).state.graph.chosen = (minimumCut g).chosen := by
    rw [hstate]
    exact chosen_record fun v hv => (hleast.free v hv).1
  refine ⟨minimumCut g, hresult, ?_, ?_⟩
  · rw [hchosen, minimumCut, Run.answer_energy, Run.answer_chosen]
  · rw [hchosen]
    exact hleast

/-- Three nodes in a factor that costs 4 unless all or none of them are chosen; the last node is
    fixed. -/
theorem maxFlow_run_leastMinimiser_potts :
    let g : Graph := ⟨#[⟨5, 0, false⟩, ⟨0, 1, false⟩, ⟨2, 0, false⟩],
      [.ofTable [0, 1, 2] #[0, 4, 4, 4, 4, 4, 4, 0]], 0, #[false, false, true]⟩
    g.WellFormed ∧ g.Submodular ∧ ∃ answer, (maxFlow.run ⟨g, ()⟩).result = .ok answer ∧
      answer.energy = g.energy (maxFlow.run ⟨g, ()⟩).state.graph.chosen ∧
      g.LeastMinimiser (maxFlow.run ⟨g, ()⟩).state.graph.chosen :=
  ⟨by decide, by decide, maxFlow_run_leastMinimiser (by decide) (by decide)⟩

end FusionMove.Cut
