import FusionMove.Action
import FusionMove.Cut.Augment

namespace FusionMove.Cut

/-!
# Oracles — who solves the cut problem

An oracle is asked for a set of nodes of least energy and answers with the set, its energy, and a
potential for every member of every factor.  Any oracle can drive the optimiser; it may keep a
memory `σ` and may fault.

* `minimumCut` — the answer read off a maximum flow: the nodes that the last search reached, and
  as potentials the flow through each member plus its base;
* `maxFlow` — the oracle that answers so;
* `skewed` — the same with a constant added to every potential, which counts its answers.

`Engine` is a graph with the memory of the oracle that works on it; `Oracle.run` asks and records
the answer in the graph.
-/

/-- What an oracle says about a graph. -/
structure Answer where
  energy : Int
  chosen : Nat → Bool
  /-- By factor and member. -/
  potential : Nat → Nat → Int

/-- A solver for cut problems with a memory. -/
structure Oracle (σ : Type) where
  solve : Graph → Action σ Answer

/-! ### The maxFlow oracle -/

/-- The potential that a channel reports for member `p`. -/
def Channel.potential (h : Channel) (p : Nat) : Int :=
  h.carriedAt p + h.baseAt p

/-- The answer that a finished run stands for. -/
def Run.answer (g : Graph) (r : Run) : Answer :=
  let reached := r.network.search
  let channels := r.network.channels
  { energy := g.energy reached.visited
    chosen := reached.visited
    potential := fun c p => (channels[c]?.map (·.potential p)).getD 0 }

/-- A set of free nodes of least energy, if the tables are submodular. -/
def minimumCut (g : Graph) : Answer :=
  (Network.ofGraph g).saturated.answer g

/-- The oracle that works with augmenting paths.  It refuses a graph that is not well formed. -/
def maxFlow : Oracle Unit where
  solve g := do
    Action.require g.WellFormed .outOfRange
    let run := (Network.ofGraph g).saturated
    let answer := run.answer g
    Action.recordAll run.events
    Action.record (.cutFound g.numNodes g.factors.length run.augmentations run.flow answer.energy)
    return answer

/-- A constant to add to potentials, and how many answers were given. -/
structure Skew where
  offset : Int
  solves : Nat
  deriving DecidableEq, Repr

/-- An answer with `offset` added to every potential. -/
def Answer.skew (a : Answer) (offset : Int) : Answer :=
  { a with potential := fun c p => a.potential c p + offset }

/-- The maxFlow oracle with skewed potentials. -/
def skewed : Oracle Skew where
  solve g := do
    let answer ← Action.zoom (fun _ => ()) (fun _ s => s) (maxFlow.solve g)
    let skew ← Action.get
    Action.modify fun s => { s with solves := s.solves + 1 }
    return answer.skew skew.offset

/-! ### Asking -/

/-- The graph with an answer recorded in its nodes and factors. -/
def Graph.record (g : Graph) (a : Answer) : Graph :=
  { g with
    nodes := Array.ofFn fun v : Fin g.numNodes => ⟨g.cost0 v, g.cost1 v, a.chosen v⟩
    factors := g.factors.zipIdx.map fun f =>
      { f.1 with potential := Array.ofFn fun p : Fin f.1.size => a.potential f.2 p } }

/-- Recording an answer adds no node. -/
@[simp] theorem numNodes_record (g : Graph) (a : Answer) : (g.record a).numNodes = g.numNodes :=
  Array.size_ofFn

/-- Recording an answer keeps a graph well formed. -/
theorem wellFormed_record {g : Graph} (hw : g.WellFormed) (a : Answer) :
    (g.record a).WellFormed := by
  intro f hf
  obtain ⟨p, hp, rfl⟩ := List.mem_map.mp hf
  rw [numNodes_record]
  exact hw p.1 (List.fst_mem_of_mem_zipIdx hp)

/-- A graph with the memory of the oracle that works on it. -/
structure Engine (σ : Type) where
  graph : Graph
  memory : σ

/-- Ask the oracle about the graph and record its answer there. -/
def Oracle.run {σ : Type} (o : Oracle σ) : Action (Engine σ) Answer := do
  let engine ← Action.get
  let answer ← Action.zoom Engine.memory (fun m e => { e with memory := m }) (o.solve engine.graph)
  Action.modify fun e => { e with graph := e.graph.record answer }
  return answer

end FusionMove.Cut
