import FusionMove.Event
import FusionMove.Cut.Search

namespace FusionMove.Cut

/-!
# Augmenting paths

A path loads the members of the channels it crosses: one unit more at the member where an arc
leaves, one unit less where it arrives.  Pushing `d` along the path lowers the slack of every set
by `d` times the set's load, so a path carries as much as the terminal arcs at its ends and the
slack of every free set divided by its load allow.

* `Network.room` — how much a path carries;
* `Network.push` — the network after pushing;
* `Run.saturate` — pushes along paths of breadth-first search until there is none, or one that
  carries nothing.
-/

open scoped CoreArithmetic

namespace Path

/-- The load of a path on member `p` of channel `c`. -/
def load (path : Path) (c p : Nat) : Int :=
  (path.arcs.map fun a =>
    if a.c = c then (if a.p = p then 1 else 0) - (if a.q = p then 1 else 0) else 0).sum

/-- The channels that a path crosses. -/
def channels (path : Path) : List Nat :=
  (path.arcs.map (·.c)).eraseDups

end Path

namespace Channel

/-- How much a free set with slack left to `load` allows, up to `bound`. -/
def room (h : Channel) (load : Nat → Int) (bound : Int) : Int :=
  h.freeSets.foldl
    (fun b t =>
      let m := Mask.sum h.size load t
      if 0 < m then min b (h.slackAt t / m) else b) bound

/-- The channel after `amount` times `load` has passed. -/
def push (h : Channel) (load : Nat → Int) (amount : Int) : Channel :=
  { h with
    slack := Array.ofFn fun t : Fin h.slack.size =>
      h.slackAt t - amount * Mask.sum h.size load t
    carried := Array.ofFn fun p : Fin h.carried.size => h.carriedAt p + amount * load p }

end Channel

namespace Network

/-- How much a path to `sink` carries. -/
def room (net : Network) (path : Path) (sink : Nat) : Int :=
  net.channels.zipIdx.foldl (fun b h => h.1.room (path.load h.2) b)
    (min (net.demand sink) (net.supply path.first))

/-- The network after `amount` has passed along a path to `sink`. -/
def push (net : Network) (path : Path) (sink : Nat) (amount : Int) : Network where
  terminals :=
    (net.terminals.modify path.first fun t => { t with sourceFlow := t.sourceFlow + amount }).modify
      sink fun t => { t with sinkFlow := t.sinkFlow + amount }
  channels := net.channels.zipIdx.map fun h => h.1.push (path.load h.2) amount

end Network

/-- A network on the way to a maximum flow, with what was pushed so far. -/
structure Run where
  network : Network
  flow : Int
  augmentations : Nat
  events : List Event

namespace Run

/-- The run before its first push. -/
def start (net : Network) : Run :=
  ⟨net, 0, 0, []⟩

/-- The run after pushing `amount` along a path to `sink`. -/
def push (r : Run) (path : Path) (sink : Nat) (amount : Int) : Run where
  network := r.network.push path sink amount
  flow := r.flow + amount
  augmentations := r.augmentations + 1
  events := r.events ++ [.pushed amount path.first sink path.channels.length]

/-- Push along paths until the search finds none or one that carries nothing. -/
def saturate : Nat → Run → Run
  | 0, r => r
  | fuel + 1, r =>
    let s := r.network.search
    match s.found with
    | none => r
    | some sink =>
      let path := s.pathTo sink
      let amount := r.network.room path sink
      -- every arc has capacity, but several arcs in one channel may share a slack
      if amount ≤ 0 then { r with events := r.events ++ [.noCapacity sink r.flow] }
      else saturate fuel (r.push path sink amount)

end Run

/-- The flow of a network.  Every push takes at least one unit from the supply. -/
def Network.saturated (net : Network) : Run :=
  (Run.start net).saturate net.totalSupply

end FusionMove.Cut
