import FusionMove.Proofs.Cut.Loops
import FusionMove.Proofs.Cut.MinimumCut

namespace FusionMove.Cut

/-!
# Every turn keeps the energy

Rewriting a graph into a network splits its energy: a part of what a set costs lies on the terminal
arcs of its nodes and the rest is slack of its members.  Every push moves cost between the two, and
the sum stays what it is, whatever the tables.  That it does so is one statement with the
conservation of flow: a set is off by just the excess of its nodes.

* `Network.Represents` — the sum for a set of nodes;
* `Framed.represents_iff` — it is right for all sets iff there is no excess;
* `Run.residual_of_turns` — every network on the way of the loop is residual;
* `turns_keep_energy` — so the sum is right on the whole way.
-/

open scoped CoreArithmetic

namespace Network

variable {g : Graph} {net : Network}

/-- What the nodes of `S` have left on their terminal arcs and its members have left as slack is what
    `S` costs more than the empty set. -/
def Represents (g : Graph) (net : Network) (S : Nat → Bool) : Prop :=
  g.energy S - g.energy (fun _ => false)
    = sumTo g.numNodes (fun v => if S v then net.demand v - net.supply v else 0)
      + sumTo g.factors.length (net.slackOn S)

/-- Flow is conserved at `v`: what comes from the source and does not go to the sink is what the
    channels carry at the places of `v`. -/
def Conserved (g : Graph) (net : Network) (v : Nat) : Prop :=
  (net.terminal v).sourceFlow - (net.terminal v).sinkFlow = ((g.places v).map net.carriedAt).sum

theorem conserved_iff {v : Nat} : Conserved g net v ↔ excess g net v = 0 := by
  rw [Conserved, excess]
  omega

/-- The sum is right for all sets of free nodes iff flow is conserved at all of them. -/
theorem Framed.represents_iff (hr : Framed g net) (hw : g.WellFormed) :
    (∀ S, g.FreeSet S → Represents g net S) ↔
      ∀ v < g.numNodes, g.isFixed v = false → Conserved g net v := by
  constructor
  · intro hall v hv hfree
    -- a single node is off by its excess
    have hsingle : g.FreeSet fun u => decide (v = u) := by
      intro u hu
      obtain rfl := of_decide_eq_true hu
      exact ⟨hv, hfree⟩
    have hrepresents := hall _ hsingle
    have henergy := hr.energy_sub hw fun u => decide (v = u)
    have hexcess := sumTo_single g.numNodes v (excess g net)
    rw [if_pos hv] at hexcess
    simp only [decide_eq_true_eq] at henergy
    simp only [Represents, decide_eq_true_eq] at hrepresents
    rw [conserved_iff]
    omega
  · intro hall S hS
    have hzero : ∀ v < g.numNodes, (if S v then excess g net v else 0) = 0 := by
      intro v hv
      split
      · rename_i hSv
        exact conserved_iff.mp (hall v hv (hS v hSv).2)
      · rfl
    have hnone := (sumTo_congr hzero).trans (sumTo_const_zero g.numNodes)
    have henergy := hr.energy_sub hw S
    rw [Represents]
    omega

end Network

namespace Run

variable {g : Graph} {r r' : Run}

/-- A turn keeps the network residual. -/
theorem Turn.residual (h : r.Turn r') (hw : g.WellFormed) (hr : Network.Residual g r.network) :
    Network.Residual g r'.network := by
  obtain ⟨sink, hfound, hroom, rfl⟩ := turn_iff.mp h
  exact hr.push_room hw hfound hroom

/-- Every network on the way is residual. -/
theorem residual_of_turns (hw : g.WellFormed)
    (h : Relation.ReflTransGen Turn (start (Network.ofGraph g)) r) :
    Network.Residual g r.network := by
  induction h with
  | refl => exact Network.residual_ofGraph g
  | tail _ hturn ih => exact hturn.residual hw ih

/-- Stopping leaves the network as it is. -/
theorem Stops.network_eq (h : r.Stops r') : r'.network = r.network := by
  cases h with
  | dry => rfl
  | stuck => rfl

end Run

/-- Whatever the tables, at every point of the loop and for every set of nodes, the costs left on the
    terminal arcs and the slacks together are the energy of the set.  Flow is conserved at every node,
    and the flow on its terminal arcs lies between zero and their capacities.  With the channels and
    capacities of a graph, the first is the same as conservation at all free nodes.  The network that
    the loop ends with is one of those on the way. -/
theorem turns_keep_energy {g : Graph} (hw : g.WellFormed) :
    (∀ r, Relation.ReflTransGen Run.Turn (Run.start (Network.ofGraph g)) r →
      (∀ S, Network.Represents g r.network S) ∧
      Network.Framed g r.network ∧
      ∀ v < g.numNodes, Network.Conserved g r.network v ∧
        (0 ≤ (r.network.terminal v).sourceFlow ∧
          (r.network.terminal v).sourceFlow ≤ (r.network.terminal v).sourceCap) ∧
        0 ≤ (r.network.terminal v).sinkFlow ∧
          (r.network.terminal v).sinkFlow ≤ (r.network.terminal v).sinkCap) ∧
    (∀ net, Network.Framed g net →
      ((∀ S, g.FreeSet S → Network.Represents g net S) ↔
        ∀ v < g.numNodes, g.isFixed v = false → Network.Conserved g net v)) ∧
    ∃ r, Relation.ReflTransGen Run.Turn (Run.start (Network.ofGraph g)) r ∧
      r.network = (Network.ofGraph g).saturated.network := by
  refine ⟨fun r hturns => ?_, fun net hr => hr.represents_iff hw, ?_⟩
  · have hr := Run.residual_of_turns hw hturns
    exact ⟨hr.energy_sub hw, hr.framed, fun v hv => ⟨hr.conserved v hv,
      ⟨hr.source_nonneg v hv, hr.source_le v hv⟩, hr.sink_nonneg v hv, hr.sink_le v hv⟩⟩
  · obtain ⟨r, hturns, hstops⟩ := (Network.ofGraph g).saturated_turns
    exact ⟨r, hturns, hstops.network_eq.symm⟩

/-- Four nodes, the last of them fixed.  The first table is not submodular, and its factor has node 0
    twice. -/
def tangled : Graph where
  nodes := #[⟨0, 0, false⟩, ⟨4, 0, false⟩, ⟨0, 5, false⟩, ⟨3, 0, false⟩]
  factors := [.ofTable [0, 1, 0] #[0, 0, 4, 0, -1, -6, 2, 0], .ofTable [3, 1] #[0, 1, 2, 0],
    .ofTable [2, 0] #[0, 0, 3, 0]]
  constant := 0
  fixed := #[false, false, false, true]

/-- Two units go from node 1 by node 0 to node 2, through one of the two places of node 0 in the
    first factor.  Slacks below zero stay there. -/
theorem turns_keep_energy_tangled :
    (tangled.WellFormed ∧ ¬ tangled.Submodular) ∧
    ∃ r, Relation.ReflTransGen Run.Turn (Run.start (Network.ofGraph tangled)) r ∧
      r.network.channels.map (·.carried) = [#[-2, 2, 0], #[0, 0], #[-2, 2]] ∧
      r.network.channels.map (·.slack)
        = [#[0, 2, 2, 0, -1, -4, 0, 0], #[0, 1, 0, -2], #[0, 2, 1, 0]] ∧
      (∀ S, Network.Represents tangled r.network S) ∧
      ∀ v < 4, Network.Conserved tangled r.network v := by
  have hw : tangled.WellFormed := by decide
  have hg : ¬ tangled.Submodular := by decide +kernel
  have hchannels : (Network.ofGraph tangled).saturated.network.channels.map (·.carried)
        = [#[-2, 2, 0], #[0, 0], #[-2, 2]] ∧
      (Network.ofGraph tangled).saturated.network.channels.map (·.slack)
        = [#[0, 2, 2, 0, -1, -4, 0, 0], #[0, 1, 0, -2], #[0, 2, 1, 0]] := by decide +kernel
  obtain ⟨hway, -, r, hturns, hlast⟩ := turns_keep_energy hw
  obtain ⟨hrepresents, -, hnodes⟩ := hway r hturns
  rw [← hlast] at hchannels
  exact ⟨⟨hw, hg⟩, r, hturns, hchannels.1, hchannels.2, hrepresents, fun v hv => (hnodes v hv).1⟩

end FusionMove.Cut
