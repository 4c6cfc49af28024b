import FusionMove.Proofs.Cut.Channel

namespace FusionMove.Cut

/-!
# Residual networks — what every push keeps

A network on the way to a maximum flow stays tied to its graph by `Network.Residual`: every
channel carries a flow of its factor, the flow on the terminal arcs lies between zero and their
capacity, and at every node what comes from the source is what goes to the sink and into the
channels.

* `Network.Framed`, `Network.excess` — the part of this that does not mention the flow on the terminal
  arcs, and what a node is left with under any such flow;
* `Framed.energy_sub` — up to the energy of the empty set and the excess of the chosen nodes, the
  graph's energy is what is left on their terminal arcs plus the slacks of the chosen members; no
  table has to be submodular for it;
* `Residual.energy_sub` — in a residual network there is no excess.
-/

open scoped CoreArithmetic

/-- No member is in the empty set. -/
theorem Factor.maskOf_none (f : Factor) : f.maskOf (fun _ => false) = 0 := by
  apply Nat.eq_of_testBit_eq
  intro p
  rw [Factor.maskOf, Mask.testBit_ofBits_map]
  cases f.members[p]? <;> simp

/-- The sum over the mask of a set of nodes is the one over the members in it. -/
theorem Factor.sum_maskOf (f : Factor) (potential : Nat → Int) (S : Nat → Bool) :
    Mask.sum f.size potential (f.maskOf S)
      = sumTo f.size fun p => if S (f.members.getD p 0) then potential p else 0 := by
  apply sumTo_congr
  intro p hp
  rw [Factor.size] at hp
  rw [Factor.maskOf, Mask.testBit_ofBits_map]
  simp [hp]

/-- The places of `v` in the factors. -/
def Graph.places (g : Graph) (v : Nat) : List (Nat × Nat) :=
  incidence (g.factors.map (·.members)) v

namespace Network

/-- The flow through a place: a channel and a position in it. -/
def carriedAt (net : Network) (place : Nat × Nat) : Int :=
  (net.channels[place.1]?.map (·.carriedAt place.2)).getD 0

/-- The potential at a place. -/
def potentialAt (net : Network) (place : Nat × Nat) : Int :=
  (net.channels[place.1]?.map (·.potential place.2)).getD 0

theorem potentialAt_eq (net : Network) (place : Nat × Nat) :
    net.potentialAt place = net.carriedAt place + baseOf net.channels place := by
  rw [potentialAt, carriedAt, baseOf]
  cases net.channels[place.1]? with
  | none => rfl
  | some h => rfl

/-- The slack of the members of channel `c` that are in `S`. -/
def slackOn (net : Network) (S : Nat → Bool) (c : Nat) : Int :=
  (net.channels[c]?.map fun h => h.slackAt (Mask.ofBits (h.members.map S))).getD 0

/-- The network holds a flow of the graph. -/
structure Residual (g : Graph) (net : Network) : Prop where
  numNodes_eq : net.numNodes = g.numNodes
  length_eq : net.channels.length = g.factors.length
  carries : ∀ (c : Nat) (f : Factor) (h : Channel), g.factors[c]? = some f →
    net.channels[c]? = some h → h.Carries g.isFixed f
  fixed_eq : ∀ v < g.numNodes, net.fixed v = g.isFixed v
  caps : ∀ v < g.numNodes, (net.terminal v).sinkCap - (net.terminal v).sourceCap
    = g.cost1 v - g.cost0 v + ((g.places v).map (baseOf net.channels)).sum
  source_nonneg : ∀ v < g.numNodes, 0 ≤ (net.terminal v).sourceFlow
  source_le : ∀ v < g.numNodes, (net.terminal v).sourceFlow ≤ (net.terminal v).sourceCap
  sink_nonneg : ∀ v < g.numNodes, 0 ≤ (net.terminal v).sinkFlow
  sink_le : ∀ v < g.numNodes, (net.terminal v).sinkFlow ≤ (net.terminal v).sinkCap
  conserved : ∀ v < g.numNodes, (net.terminal v).sourceFlow - (net.terminal v).sinkFlow
    = ((g.places v).map net.carriedAt).sum

/-- The network of the graph with some flow in its channels.  The terminal arcs have their capacities,
    and may have any flow. -/
structure Framed (g : Graph) (net : Network) : Prop where
  numNodes_eq : net.numNodes = g.numNodes
  length_eq : net.channels.length = g.factors.length
  carries : ∀ (c : Nat) (f : Factor) (h : Channel), g.factors[c]? = some f →
    net.channels[c]? = some h → h.Carries g.isFixed f
  caps : ∀ v < g.numNodes, (net.terminal v).sinkCap - (net.terminal v).sourceCap
    = g.cost1 v - g.cost0 v + ((g.places v).map (baseOf net.channels)).sum

/-- Factors and channels go together. -/
theorem Framed.exists_channel {g : Graph} {net : Network} (hr : Framed g net) {c : Nat} {f : Factor}
    (hf : g.factors[c]? = some f) : ∃ h, net.channels[c]? = some h ∧ h.Carries g.isFixed f := by
  have hlt : c < net.channels.length := by
    rw [hr.length_eq]
    exact (List.getElem?_eq_some_iff.mp hf).1
  exact ⟨net.channels[c], List.getElem?_eq_getElem hlt,
    hr.carries c f _ hf (List.getElem?_eq_getElem hlt)⟩

/-- What comes to `v` from the source and goes on neither to the sink nor into the channels. -/
def excess (g : Graph) (net : Network) (v : Nat) : Int :=
  (net.terminal v).sourceFlow - (net.terminal v).sinkFlow - ((g.places v).map net.carriedAt).sum

namespace Residual

theorem framed {g : Graph} {net : Network} (hr : Residual g net) : Framed g net :=
  ⟨hr.numNodes_eq, hr.length_eq, hr.carries, hr.caps⟩

theorem excess_eq_zero {g : Graph} {net : Network} (hr : Residual g net) {v : Nat}
    (hv : v < g.numNodes) : excess g net v = 0 := by
  rw [excess, hr.conserved v hv, Int.sub_self]

end Residual

/-! ### Before any flow -/

theorem terminal_ofGraph (g : Graph) {v : Nat} (hv : v < g.numNodes) :
    (ofGraph g).terminal v = Terminal.ofCosts (g.isFixed v) (g.cost0 v)
      (g.cost1 v + ((g.places v).map (baseOf (ofGraph g).channels)).sum) := by
  simp [terminal, ofGraph, hv, Graph.places]

/-- The network of a graph holds the flow that is zero everywhere. -/
theorem residual_ofGraph (g : Graph) : Residual g (ofGraph g) where
  numNodes_eq := by simp [ofGraph, numNodes]
  length_eq := by simp [ofGraph]
  carries c f h hf hh := by
    simp only [ofGraph, List.getElem?_map, hf, Option.map_some, Option.some.injEq] at hh
    rw [← hh]
    exact Channel.carries_ofFactor _ f
  fixed_eq v hv := by rw [fixed, terminal_ofGraph g hv]; rfl
  caps v hv := by
    rw [terminal_ofGraph g hv]
    simp only [Terminal.ofCosts]
    omega
  source_nonneg v hv := by rw [terminal_ofGraph g hv]; exact Int.le_refl _
  source_le v hv := by rw [terminal_ofGraph g hv]; exact Int.le_max_right _ _
  sink_nonneg v hv := by rw [terminal_ofGraph g hv]; exact Int.le_refl _
  sink_le v hv := by rw [terminal_ofGraph g hv]; exact Int.le_max_right _ _
  conserved v hv := by
    -- nothing flows through any place
    have hzero : ∀ place, (ofGraph g).carriedAt place = 0 := by
      intro place
      simp only [carriedAt, ofGraph, List.getElem?_map]
      cases g.factors[place.1]? <;> simp
    rw [terminal_ofGraph g hv, List.map_congr_left fun place _ => hzero place]
    simp [Terminal.ofCosts]

namespace Residual

variable {g : Graph} {net : Network}

/-- The same of a residual network. -/
theorem exists_channel (hr : Residual g net) {c : Nat} {f : Factor} (hf : g.factors[c]? = some f) :
    ∃ h, net.channels[c]? = some h ∧ h.Carries g.isFixed f :=
  hr.framed.exists_channel hf

theorem exists_factor (hr : Residual g net) {c : Nat} {h : Channel}
    (hh : net.channels[c]? = some h) : ∃ f, g.factors[c]? = some f ∧ h.Carries g.isFixed f := by
  have hlt : c < g.factors.length := by
    rw [← hr.length_eq]
    exact (List.getElem?_eq_some_iff.mp hh).1
  exact ⟨g.factors[c], List.getElem?_eq_getElem hlt,
    hr.carries c _ h (List.getElem?_eq_getElem hlt) hh⟩

/-- Channels have the members of their factors. -/
theorem members_eq (hr : Residual g net) :
    net.channels.map (·.members) = g.factors.map (·.members) := by
  apply List.ext_getElem?
  intro c
  rw [List.getElem?_map, List.getElem?_map]
  cases hf : g.factors[c]? with
  | none =>
    rw [List.getElem?_eq_none_iff, ← hr.length_eq, ← List.getElem?_eq_none_iff] at hf
    rw [hf]; rfl
  | some f =>
    obtain ⟨h, hh, hc⟩ := hr.exists_channel hf
    rw [hh, Option.map_some, Option.map_some, hc.members_eq]

theorem supply_nonneg (hr : Residual g net) {v : Nat} (hv : v < g.numNodes) : 0 ≤ net.supply v := by
  have := hr.source_le v hv
  rw [supply]
  omega

theorem demand_nonneg (hr : Residual g net) {v : Nat} (hv : v < g.numNodes) : 0 ≤ net.demand v := by
  have := hr.sink_le v hv
  rw [demand]
  omega

/-- A node past the end counts as fixed. -/
theorem lt_of_free (hr : Residual g net) {v : Nat} (hv : net.fixed v = false) : v < g.numNodes := by
  by_contra h
  rw [← hr.numNodes_eq] at h
  have : net.terminals[v]? = none := Array.getElem?_eq_none (Nat.not_lt.mp h)
  simp [fixed, terminal, Array.getD_eq_getD_getElem?, this, Terminal.closed] at hv

end Residual

/-! ### The energy of the graph -/

namespace Framed

variable {g : Graph} {net : Network}

/-- What is left on the terminal arcs is the node's costs with the potentials of its places, and its
    excess. -/
theorem demand_sub_supply (hr : Framed g net) {v : Nat} (hv : v < g.numNodes) :
    net.demand v - net.supply v
      = g.cost1 v - g.cost0 v + ((g.places v).map net.potentialAt).sum + excess g net v := by
  have hsum : ((g.places v).map net.potentialAt).sum
      = ((g.places v).map net.carriedAt).sum + ((g.places v).map (baseOf net.channels)).sum := by
    rw [← sum_map_add]
    exact congrArg List.sum (List.map_congr_left fun place _ => net.potentialAt_eq place)
  have hcaps := hr.caps v hv
  rw [hsum, demand, supply, excess]
  omega

/-- The energy of a factor is its slack with the potentials of the chosen members. -/
theorem factor_energy_sub (hr : Framed g net) (hw : g.WellFormed) (S : Nat → Bool) {c : Nat}
    {f : Factor} (hf : g.factors[c]? = some f) :
    f.energy S - f.energy (fun _ => false)
      = net.slackOn S c + sumTo f.size fun p =>
          if S (f.members.getD p 0) then net.potentialAt (c, p) else 0 := by
  obtain ⟨h, hh, hc⟩ := hr.exists_channel hf
  have hsize : f.table.size = 2 ^ f.size := (hw f (List.mem_of_getElem? hf)).2
  have hmask : f.maskOf S < f.table.size := by
    rw [hsize]
    exact Mask.ofBits_map_lt _ _
  have hslack := hc.slackAt_eq _ hmask
  have hpotential : ∀ p, net.potentialAt (c, p) = h.potential p := fun p => by
    rw [potentialAt, hh]
    rfl
  simp only [hpotential]
  rw [slackOn, hh, Option.map_some, Option.getD_some, hc.members_eq, ← f.sum_maskOf]
  show f.entry (f.maskOf S) - f.entry (f.maskOf fun _ => false) = h.slackAt (f.maskOf S) + _
  rw [f.maskOf_none]
  omega

/-- Summed over all factors, the potentials of the chosen members are those at the places of the
    chosen nodes. -/
theorem sum_potential (hw : g.WellFormed) (S : Nat → Bool) :
    (sumTo g.factors.length fun c => sumTo (g.factors[c]?.map (·.size)|>.getD 0) fun p =>
        if S (((g.factors[c]?.map (·.members)).getD []).getD p 0)
          then net.potentialAt (c, p) else 0)
      = sumTo g.numNodes fun v => if S v then ((g.places v).map net.potentialAt).sum else 0 := by
  have hmem : ∀ ms ∈ g.factors.map (·.members), ∀ v ∈ ms, v < g.numNodes := by
    intro ms hms v hv
    obtain ⟨f, hf, rfl⟩ := List.mem_map.mp hms
    exact (hw f hf).1 v hv
  -- sum by members first, then by the places of every node
  have hplaces : ∀ v, (if S v then ((g.places v).map net.potentialAt).sum else 0)
      = ((incidence (g.factors.map (·.members)) v).map fun place =>
          if S v then net.potentialAt place else 0).sum := by
    intro v
    cases S v
    · simp
    · rfl
  simp only [hplaces]
  rw [sumTo_sum_incidence hmem fun v place => if S v then net.potentialAt place else 0,
    List.length_map]
  apply sumTo_congr
  intro c hc
  simp [hc, Factor.size]

/-- Up to the energy of the empty set and the excess of the chosen nodes, the graph's energy is what is
    left on the terminal arcs of these nodes plus the slacks of the chosen members. -/
theorem energy_sub (hr : Framed g net) (hw : g.WellFormed) (S : Nat → Bool) :
    g.energy S - g.energy (fun _ => false)
        + sumTo g.numNodes (fun v => if S v then excess g net v else 0)
      = sumTo g.numNodes (fun v => if S v then net.demand v - net.supply v else 0)
        + sumTo g.factors.length (net.slackOn S) := by
  -- unary costs, factors and terminal arcs, each over the chosen nodes
  have hcosts : sumTo g.numNodes (fun v => if S v then g.cost1 v else g.cost0 v)
      - sumTo g.numNodes (fun v => if false = true then g.cost1 v else g.cost0 v)
      = sumTo g.numNodes fun v => if S v then g.cost1 v - g.cost0 v else 0 := by
    rw [← sumTo_sub]
    apply sumTo_congr
    intro v _
    cases S v <;> simp
  have hfactors : (g.factors.map (·.energy S)).sum
      - (g.factors.map (·.energy fun _ => false)).sum
      = sumTo g.factors.length (net.slackOn S)
        + sumTo g.numNodes fun v => if S v then ((g.places v).map net.potentialAt).sum else 0 := by
    rw [← sum_potential hw, sum_map_eq_sumTo, sum_map_eq_sumTo, ← sumTo_sub, ← sumTo_add]
    apply sumTo_congr
    intro c hc
    have hf : g.factors[c]? = some g.factors[c] := List.getElem?_eq_getElem hc
    rw [hf]
    exact hr.factor_energy_sub hw S hf
  have hnodes : sumTo g.numNodes (fun v => if S v then net.demand v - net.supply v else 0)
      = sumTo g.numNodes (fun v => if S v then g.cost1 v - g.cost0 v else 0)
        + sumTo g.numNodes (fun v => if S v then ((g.places v).map net.potentialAt).sum else 0)
        + sumTo g.numNodes fun v => if S v then excess g net v else 0 := by
    rw [← sumTo_add, ← sumTo_add]
    apply sumTo_congr
    intro v hv
    cases S v
    · simp
    · simpa using hr.demand_sub_supply hv
  rw [Graph.energy, Graph.energy, hnodes]
  omega

end Framed

namespace Residual

variable {g : Graph} {net : Network}

/-- Without excess, what is left on the terminal arcs is the node's costs with the potentials of its
    places. -/
theorem demand_sub_supply (hr : Residual g net) {v : Nat} (hv : v < g.numNodes) :
    net.demand v - net.supply v
      = g.cost1 v - g.cost0 v + ((g.places v).map net.potentialAt).sum := by
  rw [hr.framed.demand_sub_supply hv, hr.excess_eq_zero hv, Int.add_zero]

theorem factor_energy_sub (hr : Residual g net) (hw : g.WellFormed) (S : Nat → Bool) {c : Nat}
    {f : Factor} (hf : g.factors[c]? = some f) :
    f.energy S - f.energy (fun _ => false)
      = net.slackOn S c + sumTo f.size fun p =>
          if S (f.members.getD p 0) then net.potentialAt (c, p) else 0 :=
  hr.framed.factor_energy_sub hw S hf

/-- Up to the energy of the empty set, the graph's energy is what is left on the terminal arcs of
    the chosen nodes plus the slacks of the chosen members. -/
theorem energy_sub (hr : Residual g net) (hw : g.WellFormed) (S : Nat → Bool) :
    g.energy S - g.energy (fun _ => false)
      = sumTo g.numNodes (fun v => if S v then net.demand v - net.supply v else 0)
        + sumTo g.factors.length (net.slackOn S) := by
  have hzero : ∀ v < g.numNodes, (if S v then excess g net v else 0) = 0 := fun v hv => by
    rw [hr.excess_eq_zero hv, ite_self]
  have hnone := (sumTo_congr hzero).trans (sumTo_const_zero g.numNodes)
  have hframed := hr.framed.energy_sub hw S
  omega

end Residual

end Network

end FusionMove.Cut
