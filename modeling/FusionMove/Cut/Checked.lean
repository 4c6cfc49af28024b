import FusionMove.Access
import FusionMove.Cut.Oracle

namespace FusionMove.Cut

/-!
# The flow solver, access by access

The checked forms of everything that a maximum flow is made of: the network of a graph, the
breadth-first search, the path back, the room on it, the push, and the answer that is read off in
the end.  Fixed flags, terminals, parents and slacks are tables here, and so are the loads of a
path; members, parents and masks are used as indices into them.

* `Network.ofGraph?`, `Network.search?`, `Search.trace?`, `Network.push?` — the parts;
* `Run.saturate?`, `Run.answer?` — the whole;
* `checkedFlow` — the oracle that works so.
-/

open scoped CoreArithmetic

/-! ### The network of a graph -/

/-- The channel of a factor.  The flags tell which nodes are fixed. -/
def Channel.ofFactor? (flags : Array Bool) (f : Factor) : Except Fault Channel := do
  let free ← f.members.mapM fun v => do return !(← present flags[v]?)
  let mask := Mask.ofBits free
  let base ← arrayOf? f.size fun p => do
    let upper ← present f.table[mask % 2 ^ (p + 1)]?
    let lower ← present f.table[mask % 2 ^ p]?
    return upper - lower
  let empty ← present f.table[0]?
  let slack ← arrayOf? f.table.size fun t => do
    let entry ← present f.table[t]?
    return entry - empty - Mask.sum f.size (base.getD · 0) t
  return ⟨f.members, mask, base, slack, Array.replicate f.size 0⟩

/-- The base of every member, with its node. -/
def Network.bases? (channels : List Channel) : Except Fault (List (Nat × Int)) :=
  (memberPlaces (channels.map (·.members))).mapM fun p => do
    let h ← present channels[p.2.1]?
    let base ← present h.base[p.2.2]?
    return (p.1, base)

/-- What the nodes cost inside of the set: every base is added to the cost of its node. -/
def Network.costs? (g : Graph) (channels : List Channel) : Except Fault (Array Int) := do
  let bases ← bases? channels
  modifyAll? (fun base cost => cost + base) bases (g.nodes.map (·.cost1))

/-- The network of a graph, before any flow. -/
def Network.ofGraph? (g : Graph) : Except Fault Network := do
  let flags := Array.ofFn fun v : Fin g.numNodes => g.isFixed v
  let channels ← g.factors.mapM (Channel.ofFactor? flags)
  let costs ← costs? g channels
  let terminals ← arrayOf? g.numNodes fun v => do
    let fixed ← present flags[v]?
    let node ← present g.nodes[v]?
    let cost ← present costs[v]?
    return Terminal.ofCosts fixed node.cost0 cost
  return ⟨terminals, channels⟩

/-! ### Searching -/

/-- The least slack of the free sets that contain `p` but not `q`. -/
def Channel.exchangeCapacity? (h : Channel) (p q : Nat) : Except Fault Int := do
  let slacks ← (h.freeSets.filter fun t => t.testBit p && !t.testBit q).mapM fun t =>
    present h.slack[t]?
  return slacks.min?.getD 0

namespace Network

/-- The capacity of an exchange arc. -/
def capacity? (net : Network) (a : Arc) : Except Fault Int := do
  let h ← present net.channels[a.c]?
  h.exchangeCapacity? a.p a.q

/-- What `v` can still send to the sink. -/
def demand? (net : Network) (v : Nat) : Except Fault Int := do
  let t ← present net.terminals[v]?
  return t.sinkCap - t.sinkFlow

/-- What the source can still send to `v`. -/
def supply? (net : Network) (v : Nat) : Except Fault Int := do
  let t ← present net.terminals[v]?
  return t.sourceCap - t.sourceFlow

/-- Whether `v` has to stay outside. -/
def fixed? (net : Network) (v : Nat) : Except Fault Bool := do
  let t ← present net.terminals[v]?
  return t.fixed

/-- The exchange arcs out of `u`, by its places. -/
def arcsFrom? (net : Network) (adjacency : Array (List (Nat × Nat))) (u : Nat) :
    Except Fault (List Arc) := do
  let places ← present adjacency[u]?
  let arcs ← places.mapM fun place => do
    let h ← present net.channels[place.1]?
    return h.members.zipIdx.filterMap fun m =>
      if m.2 = place.2 then none else some ⟨place.1, place.2, m.2, m.1⟩
  return arcs.flatten

/-- Reach the target of an arc out of `u`, if it is free and new and the arc has capacity. -/
def follow? (net : Network) (u : Nat) (w : Frontier) (a : Arc) : Except Fault Frontier := do
  let fixed ← net.fixed? a.target
  let parent ← present w.parents[a.target]?
  if fixed ∨ parent ≠ .unvisited then return w
  else
    let capacity ← net.capacity? a
    if 0 < capacity then
      let parents ← setAt? w.parents a.target (.exchange u a.c a.p a.q)
      return ⟨w.queue ++ [a.target], parents⟩
    else return w

/-- Reach everything that lies one arc from `u`. -/
def expand? (net : Network) (adjacency : Array (List (Nat × Nat))) (w : Frontier) (u : Nat) :
    Except Fault Frontier := do
  let arcs ← net.arcsFrom? adjacency u
  arcs.foldlM (net.follow? u) w

/-- Start at `v`, if it is free and the source can still supply it. -/
def enter? (net : Network) (w : Frontier) (v : Nat) : Except Fault Frontier := do
  let fixed ← net.fixed? v
  let supply ← net.supply? v
  if !fixed && 0 < supply then
    let parents ← setAt? w.parents v .source
    return ⟨w.queue ++ [v], parents⟩
  else return w

/-- The search before its first step. -/
def start? (net : Network) : Except Fault Frontier :=
  (List.range net.numNodes).foldlM net.enter? ⟨[], Array.replicate net.numNodes .unvisited⟩

/-- Take nodes from the queue until one reaches the sink or none is left. -/
def explore? (net : Network) (adjacency : Array (List (Nat × Nat))) :
    Nat → Frontier → Except Fault Search
  | 0, w => return ⟨none, w.parents⟩
  | fuel + 1, w =>
    match w.queue with
    | [] => return ⟨none, w.parents⟩
    | u :: rest => do
      let demand ← net.demand? u
      if 0 < demand then return ⟨some u, w.parents⟩
      else
        let next ← net.expand? adjacency ⟨rest, w.parents⟩ u
        net.explore? adjacency fuel next

/-- The search. -/
def search? (net : Network) : Except Fault Search := do
  let adjacency ← placeTable? (net.channels.map (·.members)) net.numNodes
  let first ← net.start?
  net.explore? adjacency net.numNodes first

end Network

/-- Follow the parents back from `v`. -/
def Search.trace? (s : Search) : Nat → Nat → Except Fault Path
  | 0, v => return ⟨v, []⟩
  | fuel + 1, v => do
    match ← present s.parents[v]? with
    | .exchange origin c p q =>
      let path ← s.trace? fuel origin
      return ⟨path.first, ⟨c, p, q, v⟩ :: path.arcs⟩
    | _ => return ⟨v, []⟩

/-! ### Augmenting -/

/-- The load of a path on the `size` members of channel `c`, arc by arc. -/
def Path.load? (path : Path) (c size : Nat) : Except Fault (Array Int) :=
  (path.arcs.filter (·.c = c)).foldlM (fun load a => do
    let left ← modifyAt? load a.p (· + 1)
    modifyAt? left a.q (· - 1)) (Array.replicate size 0)

/-- How much a free set with slack left to `load` allows, up to `bound`. -/
def Channel.room? (h : Channel) (load : Array Int) (bound : Int) : Except Fault Int :=
  h.freeSets.foldlM (fun b t => do
    let m := Mask.sum h.size (load.getD · 0) t
    if 0 < m then
      let slack ← present h.slack[t]?
      let most ← divide? slack m
      return min b most
    else return b) bound

namespace Network

/-- Every channel with the load of a path on it. -/
def loads? (net : Network) (path : Path) : Except Fault (List (Channel × Array Int)) := do
  let _ ← path.arcs.mapM fun a => present net.channels[a.c]?
  net.channels.zipIdx.mapM fun h => do
    let load ← path.load? h.2 h.1.size
    return (h.1, load)

/-- How much a path to `sink` carries, given its loads. -/
def room? (net : Network) (loads : List (Channel × Array Int)) (path : Path) (sink : Nat) :
    Except Fault Int := do
  let demand ← net.demand? sink
  let supply ← net.supply? path.first
  loads.foldlM (fun b h => h.1.room? h.2 b) (min demand supply)

/-- The network after `amount` has passed along a path to `sink`, given its loads. -/
def push? (net : Network) (loads : List (Channel × Array Int)) (path : Path) (sink : Nat)
    (amount : Int) : Except Fault Network := do
  let left ← modifyAt? net.terminals path.first fun t =>
    { t with sourceFlow := t.sourceFlow + amount }
  let terminals ← modifyAt? left sink fun t => { t with sinkFlow := t.sinkFlow + amount }
  return ⟨terminals, loads.map fun h => h.1.push (h.2.getD · 0) amount⟩

end Network

namespace Run

/-- Push along paths until the search finds none or one that carries nothing. -/
def saturate? : Nat → Run → Except Fault Run
  | 0, r => return r
  | fuel + 1, r => do
    let s ← r.network.search?
    match s.found with
    | none => return r
    | some sink =>
      let path ← s.trace? s.parents.size sink
      let loads ← r.network.loads? path
      let amount ← r.network.room? loads path sink
      if amount ≤ 0 then return { r with events := r.events ++ [.noCapacity sink r.flow] }
      else
        let network ← r.network.push? loads path sink amount
        saturate? fuel { r.push path sink amount with network := network }

end Run

/-! ### Answering -/

/-- The potentials that a channel reports. -/
def Channel.potentials? (h : Channel) : Except Fault (Array Int) :=
  arrayOf? h.size fun p => do
    let carried ← present h.carried[p]?
    let base ← present h.base[p]?
    return carried + base

/-- The energy of the set of the chosen nodes. -/
def Graph.energy? (g : Graph) (chosen : Array Bool) : Except Fault Int := do
  let costs ← chosen.toList.zipIdx.mapM fun x => do
    let node ← present g.nodes[x.2]?
    return if x.1 then node.cost1 else node.cost0
  let entries ← g.factors.mapM fun f => do
    let bits ← f.members.mapM fun v => present chosen[v]?
    present f.table[Mask.ofBits bits]?
  return g.constant + costs.sum + entries.sum

/-- The answer that a finished run stands for. -/
def Run.answer? (g : Graph) (r : Run) : Except Fault Answer := do
  let s ← r.network.search?
  let chosen ← arrayOf? g.numNodes fun v => do
    let parent ← present s.parents[v]?
    return decide (parent ≠ .unvisited)
  let potentials ← r.network.channels.mapM (·.potentials?)
  let energy ← g.energy? chosen
  return ⟨energy, (chosen.getD · false), fun c p => (potentials.getD c #[]).getD p 0⟩

/-- The oracle that works with augmenting paths, access by access. -/
def checkedFlow : Oracle Unit where
  solve g := do
    let net ← Action.ofExcept (Network.ofGraph? g)
    let run ← Action.ofExcept ((Run.start net).saturate? net.totalSupply)
    let answer ← Action.ofExcept (run.answer? g)
    Action.recordAll run.events
    Action.record (.cutFound g.numNodes g.factors.length run.augmentations run.flow answer.energy)
    return answer

end FusionMove.Cut
