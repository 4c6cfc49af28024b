import FusionMove.Proofs.Cut.MinimumCut

namespace FusionMove.Cut

/-!
# What the last cut has left behind

A graph remembers the last cut: the nodes that it chose, and the potentials.  The next cut neither
reads this nor leaves anything of it.

* `Graph.unsolved` — the graph that no cut has seen;
* `ofGraph_unsolved`, `minimumCut_unsolved` — network and minimum cut are those of that graph;
* `record_unsolved` — so is the graph once an answer is recorded.
-/

/-- The factor that no cut has seen. -/
def Factor.unsolved (f : Factor) : Factor :=
  Factor.ofTable f.members f.table

namespace Graph

/-- The graph that no cut has seen. -/
def unsolved (g : Graph) : Graph where
  nodes := g.nodes.map fun n => { n with chosen := false }
  factors := g.factors.map (·.unsolved)
  constant := g.constant
  fixed := g.fixed

@[simp] theorem numNodes_unsolved (g : Graph) : g.unsolved.numNodes = g.numNodes := by
  simp [numNodes, unsolved]

@[simp] theorem cost0_unsolved (g : Graph) : g.unsolved.cost0 = g.cost0 := by
  ext v
  by_cases hv : v < g.nodes.size <;> simp [cost0, unsolved, hv, Node.blank]

@[simp] theorem cost1_unsolved (g : Graph) : g.unsolved.cost1 = g.cost1 := by
  ext v
  by_cases hv : v < g.nodes.size <;> simp [cost1, unsolved, hv, Node.blank]

@[simp] theorem isFixed_unsolved (g : Graph) : g.unsolved.isFixed = g.isFixed := rfl

theorem energy_unsolved (g : Graph) : g.unsolved.energy = g.energy := by
  ext S
  have hfactors : g.unsolved.factors.map (·.energy S) = g.factors.map (·.energy S) := by
    rw [unsolved, List.map_map]
    rfl
  simp only [energy, numNodes_unsolved, cost0_unsolved, cost1_unsolved, hfactors]
  rfl

/-- Recording an answer overwrites all that the last cut has left. -/
theorem record_unsolved (g : Graph) (a : Answer) : g.unsolved.record a = g.record a := by
  have hnodes : (Array.ofFn fun v : Fin g.unsolved.numNodes =>
      (⟨g.unsolved.cost0 v, g.unsolved.cost1 v, a.chosen v⟩ : Node))
      = Array.ofFn fun v : Fin g.numNodes => ⟨g.cost0 v, g.cost1 v, a.chosen v⟩ := by
    simp only [cost0_unsolved, cost1_unsolved]
    exact Array.ext (by simp) fun v _ _ => by simp
  rw [record, record, hnodes]
  congr 1
  simp only [unsolved, List.zipIdx_map, List.map_map]
  rfl

end Graph

/-- The network before any flow does not depend on the last cut. -/
theorem Network.ofGraph_unsolved (g : Graph) : Network.ofGraph g.unsolved = Network.ofGraph g := by
  have hmembers : g.unsolved.factors.map (·.members) = g.factors.map (·.members) := by
    rw [Graph.unsolved, List.map_map]
    rfl
  have hchannels : g.unsolved.factors.map (Channel.ofFactor g.isFixed)
      = g.factors.map (Channel.ofFactor g.isFixed) := by
    rw [Graph.unsolved, List.map_map]
    rfl
  simp only [Network.ofGraph, hmembers, hchannels, Graph.cost0_unsolved, Graph.cost1_unsolved,
    Graph.isFixed_unsolved]
  congr 1
  exact Array.ext (by simp) fun v _ _ => by simp

/-- Neither does the minimum cut. -/
theorem minimumCut_unsolved (g : Graph) : minimumCut g.unsolved = minimumCut g := by
  rw [minimumCut, minimumCut, Network.ofGraph_unsolved, Run.answer, Run.answer,
    Graph.energy_unsolved]

/-- Graphs that differ in the last cut only have one minimum cut, and are the same graph once it is
    recorded. -/
theorem minimumCut_congr {g g' : Graph} (h : g'.unsolved = g.unsolved) :
    minimumCut g' = minimumCut g ∧ g'.record (minimumCut g') = g.record (minimumCut g) := by
  have hcut : minimumCut g' = minimumCut g := by
    rw [← minimumCut_unsolved g', h, minimumCut_unsolved]
  refine ⟨hcut, ?_⟩
  rw [hcut, ← Graph.record_unsolved g', h, Graph.record_unsolved]

end FusionMove.Cut
