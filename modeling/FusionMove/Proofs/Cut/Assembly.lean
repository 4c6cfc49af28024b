import FusionMove.Proofs.Cut.Checked
import FusionMove.Proofs.Cut.Loops
import FusionMove.Proofs.Cut.Potential
import Mathlib.Algebra.BigOperators.Ring.Finset

namespace FusionMove.Cut

/-!
# A maximum flow ends on every graph

Whatever is done to a graph, in whatever order, it stays well formed, and on a well-formed graph
all loops of a maximum flow end; its tables need not be submodular.  The number of pushes is bounded
by what the source can supply, which the costs of the nodes and the marginals of the tables say.

* `Graph.Operation` — what may be done to a graph, `Graph.assembled` — a graph made that way;
* `Graph.wellFormed_assembled` — it is well formed;
* `Graph.surplus` — what the source can supply in the beginning;
* `assembled_flow_ends` — the loops end, within this bound, and no access misses an entry.
-/

open scoped CoreArithmetic

namespace Graph

/-! ### Operations -/

/-- What may be done to a graph. -/
inductive Operation where
  | addNodes (count : Nat)
  | addFactor (members : List Nat) (table : Array Int)
  | clearCosts
  | addCosts (v : Nat) (e0 e1 : Int)
  | setEntry (c mask : Nat) (value : Int)
  | addConstant (delta : Int)
  | setFixed (fixed : Array Bool)
  | solve

/-- The graph after an operation.  One that is refused leaves the graph as it is. -/
def Operation.apply (g : Graph) : Operation → Graph
  | addNodes count => (g.addNodes count).2
  | addFactor members table => ((g.addFactor members table).toOption.map (·.2)).getD g
  | clearCosts => g.clearCosts
  | addCosts v e0 e1 => (g.addCosts? v e0 e1).toOption.getD g
  | setEntry c mask value => (g.setEntry? c mask value).toOption.getD g
  | addConstant delta => g.addConstant delta
  | setFixed fixed => { g with fixed := fixed }
  | solve => (maxFlow.run ⟨g, ()⟩).state.graph

/-- The graph that a sequence of operations makes. -/
def assembled (operations : List Operation) : Graph :=
  operations.foldl Operation.apply empty

/-- Every operation keeps a graph well formed. -/
theorem wellFormed_apply {g : Graph} (hw : g.WellFormed) (operation : Operation) :
    (operation.apply g).WellFormed := by
  cases operation with
  | addNodes count => exact wellFormed_addNodes hw count
  | addFactor members table =>
    rw [Operation.apply]
    cases h : g.addFactor members table with
    | error fault => exact hw
    | ok added => exact wellFormed_addFactor hw h
  | clearCosts => exact wellFormed_clearCosts hw
  | addCosts v e0 e1 =>
    rw [Operation.apply, addCosts?]
    split
    · exact wellFormed_addCosts hw v e0 e1
    · exact hw
  | setEntry c mask value =>
    rw [Operation.apply]
    cases h : g.setEntry? c mask value with
    | error fault => exact hw
    | ok edited => exact wellFormed_setEntry hw h
  | addConstant delta => exact wellFormed_addConstant hw delta
  | setFixed fixed => exact hw
  | solve =>
    rw [Operation.apply, (maxFlow_run hw).2]
    exact wellFormed_record hw _

theorem wellFormed_assembled (operations : List Operation) : (assembled operations).WellFormed := by
  suffices h : ∀ g : Graph, g.WellFormed → (operations.foldl Operation.apply g).WellFormed from
    h empty wellFormed_empty
  induction operations with
  | nil => exact fun g hw => hw
  | cons operation operations ih => exact fun g hw => ih _ (wellFormed_apply hw operation)

/-! ### What the source can supply -/

/-- What the member at a place adds to the table, after the free members before it. -/
def marginalAt (g : Graph) (place : Nat × Nat) : Int :=
  (g.factors[place.1]?.map fun f =>
    Channel.greedyBase f.entry (f.freeMask g.isFixed) place.2).getD 0

/-- Over all free nodes, what it costs more to leave a node outside than to take it with the
    marginals of its places. -/
def surplus (g : Graph) : Int :=
  sumTo g.numNodes fun v => if g.isFixed v then 0 else
    max 0 (g.cost0 v - g.cost1 v - ((g.places v).map g.marginalAt).sum)

end Graph

namespace Network

theorem baseOf_ofGraph (g : Graph) (place : Nat × Nat) :
    baseOf (ofGraph g).channels place = g.marginalAt place := by
  rw [baseOf, ofGraph, Graph.marginalAt, List.getElem?_map, Option.map_map]
  congr 2
  ext f
  exact Channel.baseAt_ofFactor g.isFixed f place.2

/-- The surplus is what the source can supply before any flow. -/
theorem totalSupply_ofGraph (g : Graph) : ((ofGraph g).totalSupply : Int) = g.surplus := by
  have hnodes : (ofGraph g).numNodes = g.numNodes := Array.size_ofFn
  rw [totalSupply, Graph.surplus, hnodes, Nat.cast_list_sum, List.map_map, sum_map_range]
  refine sumTo_congr fun v hv => ?_
  have hterminal := terminal_ofGraph g hv
  simp only [List.map_congr_left fun place _ => baseOf_ofGraph g place] at hterminal
  simp only [Function.comp_apply, fixed, supply, hterminal, Terminal.ofCosts]
  split <;> omega

end Network

/-- On every graph that operations make, the loop of a maximum flow goes through turns and stops.
    In every turn on the way the search ends, and where it has found a node the parents lead back to
    one that the source supplies.  There are no more turns than the surplus has units.  No access
    misses an entry, and the oracle answers. -/
theorem assembled_flow_ends (operations : List Graph.Operation) :
    let g := Graph.assembled operations
    let net := Network.ofGraph g
    (∃ r, Relation.ReflTransGen Run.Turn (Run.start net) r ∧ r.Stops net.saturated) ∧
    (∀ r, Relation.ReflTransGen Run.Turn (Run.start net) r →
      (r.augmentations : Int) ≤ g.surplus ∧
      ∃ s, r.network.Explores r.network.start s ∧ ∀ sink, s.found = some sink →
        ∃ path, s.LeadsBack sink path ∧ r.network.isStart path.first = true) ∧
    checkedFlow.run ⟨g, ()⟩ = maxFlow.run ⟨g, ()⟩ ∧
    (checkedFlow.run ⟨g, ()⟩).result = .ok (minimumCut g) := by
  intro g net
  have hw : g.WellFormed := Graph.wellFormed_assembled operations
  refine ⟨net.saturated_turns, fun r hturns => ⟨?_, ?_⟩, checkedFlow_run hw, ?_⟩
  · rw [← Network.totalSupply_ofGraph g]
    exact Int.ofNat_le.mpr (Run.augmentations_le hturns)
  · refine ⟨_, r.network.explores_search, fun sink hfound => ?_⟩
    exact ⟨_, Network.leadsBack_pathTo hfound,
      (Network.traced_search hfound).1.isStart_first⟩
  · rw [checkedFlow_run hw]
    exact (maxFlow_run hw).1

end FusionMove.Cut
