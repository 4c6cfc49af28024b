import FusionMove.Cut.Network

namespace FusionMove.Cut

/-!
# Breadth-first search in a residual network

The search starts at the free nodes that the source can still supply, in node order, and follows
exchange arcs of positive capacity to free nodes, first come first served.  It ends at the first
node taken from the queue that can still send to the sink.

* `Parent` — how a node was reached;
* `Network.search` — the end, if any, and how every node was reached;
* `Network.pathTo` — the path back from a node.
-/

/-- How a search reached a node. -/
inductive Parent where
  | unvisited
  /-- Straight from the source. -/
  | source
  /-- From node `origin` over the exchange arc from member `p` to member `q` of channel `c`. -/
  | exchange (origin c p q : Nat)
  deriving DecidableEq, Repr

/-- An exchange arc from member `p` to member `q` of channel `c`, whose member `q` is `target`. -/
structure Arc where
  c : Nat
  p : Nat
  q : Nat
  target : Nat
  deriving DecidableEq, Repr

/-- A search under way: nodes to look at, and how each node was reached. -/
structure Frontier where
  queue : List Nat
  parents : Array Parent

/-- How a search ended. -/
structure Search where
  /-- The node from which the sink can be reached. -/
  found : Option Nat
  parents : Array Parent

/-- How `v` was reached. -/
def Frontier.parent (w : Frontier) (v : Nat) : Parent :=
  w.parents.getD v .unvisited

/-- How `v` was reached. -/
def Search.parent (s : Search) (v : Nat) : Parent :=
  s.parents.getD v .unvisited

/-- Whether `v` was reached at all. -/
def Search.visited (s : Search) (v : Nat) : Bool :=
  s.parent v ≠ .unvisited

namespace Network

/-- The exchange arcs out of `u`, by channel, position of `u` and position of the target. -/
def arcsFrom (net : Network) (u : Nat) : List Arc :=
  (incidence (net.channels.map (·.members)) u).flatMap fun place =>
    ((net.channels[place.1]?.map (·.members)).getD []).zipIdx.filterMap fun m =>
      if m.2 = place.2 then none else some ⟨place.1, place.2, m.2, m.1⟩

/-- The capacity of an exchange arc. -/
def capacity (net : Network) (a : Arc) : Int :=
  (net.channels[a.c]?.map (·.exchangeCapacity a.p a.q)).getD 0

/-- Reach the target of an arc out of `u`, if it is free and new and the arc has capacity. -/
def follow (net : Network) (u : Nat) (w : Frontier) (a : Arc) : Frontier :=
  -- the capacity ranges over all free sets, so it is looked at last
  if net.fixed a.target ∨ w.parent a.target ≠ .unvisited then w
  else if 0 < net.capacity a then
    ⟨w.queue ++ [a.target], w.parents.setIfInBounds a.target (.exchange u a.c a.p a.q)⟩
  else w

/-- Reach everything that lies one arc from `u`. -/
def expand (net : Network) (w : Frontier) (u : Nat) : Frontier :=
  (net.arcsFrom u).foldl (net.follow u) w

/-- Whether the search starts at `v`. -/
def isStart (net : Network) (v : Nat) : Bool :=
  !net.fixed v && 0 < net.supply v

/-- The search before its first step. -/
def start (net : Network) : Frontier where
  queue := (List.range net.numNodes).filter net.isStart
  parents := Array.ofFn fun v : Fin net.numNodes => if net.isStart v then .source else .unvisited

/-- Take nodes from the queue until one reaches the sink or none is left. -/
def explore (net : Network) : Nat → Frontier → Search
  | 0, w => ⟨none, w.parents⟩
  | fuel + 1, w =>
    match w.queue with
    | [] => ⟨none, w.parents⟩
    | u :: rest =>
      if 0 < net.demand u then ⟨some u, w.parents⟩
      else net.explore fuel (net.expand ⟨rest, w.parents⟩ u)

/-- The search.  A node enters the queue at most once. -/
def search (net : Network) : Search :=
  net.explore net.numNodes net.start

end Network

/-- A path from the source: the node it enters first, and its arcs from the last one back. -/
structure Path where
  first : Nat
  arcs : List Arc
  deriving DecidableEq, Repr

/-- Follow the parents back from `v`. -/
def Search.trace (s : Search) : Nat → Nat → Path
  | 0, v => ⟨v, []⟩
  | fuel + 1, v =>
    match s.parent v with
    | .exchange origin c p q =>
      let path := s.trace fuel origin
      ⟨path.first, ⟨c, p, q, v⟩ :: path.arcs⟩
    | _ => ⟨v, []⟩

/-- The path on which the search reached `v`.  It meets no node twice. -/
def Search.pathTo (s : Search) (v : Nat) : Path :=
  s.trace s.parents.size v

end FusionMove.Cut
