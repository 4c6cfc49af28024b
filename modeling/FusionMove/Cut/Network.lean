import FusionMove.Incidence
import FusionMove.Cut.Graph

namespace FusionMove.Cut

/-!
# Residual networks

A graph is rewritten for augmenting paths.  Walking through the free members of a factor in order,
each member takes the marginal of its entry as a cost of its own, its *base*; what is left of the
table is the *slack*

    slack(T) = table(T) − table(∅) − Σ_{p ∈ T} base p.

The costs of a node, bases included, become one terminal arc: from the source if leaving the node
outside is dearer, to the sink otherwise.  Inside a factor, flow moves from member `p` to member
`q` over an exchange arc, whose capacity is the least slack of the sets of free members that
contain `p` but not `q`.

* `Channel` — a factor with its slacks and the flow it carries;
* `Terminal` — the terminal arcs of a node;
* `Network.ofGraph` — the network before any flow.
-/

open scoped CoreArithmetic

/-- A factor during a search for a cut. -/
structure Channel where
  members : List Nat
  /-- The mask of the members that are free. -/
  free : Nat
  base : Array Int
  slack : Array Int
  /-- The flow through each member. -/
  carried : Array Int
  deriving DecidableEq, Repr

namespace Channel

/-- Number of members. -/
def size (h : Channel) : Nat :=
  h.members.length

/-- The marginal of member `p` over the free members before it; zero for a member that is not
    free. -/
def greedyBase (table : Nat → Int) (free p : Nat) : Int :=
  table (free % 2 ^ (p + 1)) - table (free % 2 ^ p)

/-- The channel of a factor, before any flow. -/
def ofFactor (fixed : Nat → Bool) (f : Factor) : Channel :=
  let free := Mask.ofBits (f.members.map fun v => !fixed v)
  { members := f.members
    free := free
    base := Array.ofFn fun p : Fin f.size => greedyBase f.entry free p
    slack := Array.ofFn fun t : Fin f.table.size =>
      f.entry t - f.entry 0 - Mask.sum f.size (greedyBase f.entry free) t
    carried := Array.replicate f.size 0 }

/-- The base of member `p`. -/
def baseAt (h : Channel) (p : Nat) : Int :=
  h.base.getD p 0

/-- The slack of a mask. -/
def slackAt (h : Channel) (mask : Nat) : Int :=
  h.slack.getD mask 0

/-- The flow through member `p`. -/
def carriedAt (h : Channel) (p : Nat) : Int :=
  h.carried.getD p 0

/-- The sets of free members. -/
def freeSets (h : Channel) : List Nat :=
  Mask.subsets h.size h.free

/-- The least slack of the free sets that contain `p` but not `q`. -/
def exchangeCapacity (h : Channel) (p q : Nat) : Int :=
  ((h.freeSets.filter fun t => t.testBit p && !t.testBit q).map h.slackAt).min?.getD 0

end Channel

/-- The arcs between a node and the two terminals, with the flow on them. -/
structure Terminal where
  fixed : Bool
  sourceCap : Int
  sinkCap : Int
  sourceFlow : Int
  sinkFlow : Int
  deriving DecidableEq, Repr

namespace Terminal

/-- The terminal arcs of a node that costs `e0` outside and `e1` inside. -/
def ofCosts (fixed : Bool) (e0 e1 : Int) : Terminal :=
  ⟨fixed, max (e0 - e1) 0, max (e1 - e0) 0, 0, 0⟩

/-- A node without arcs. -/
def closed : Terminal :=
  ⟨true, 0, 0, 0, 0⟩

end Terminal

/-- A graph rewritten for augmenting paths. -/
structure Network where
  terminals : Array Terminal
  channels : List Channel
  deriving DecidableEq, Repr

namespace Network

/-- Number of nodes. -/
def numNodes (net : Network) : Nat :=
  net.terminals.size

/-- The terminal arcs of `v`. -/
def terminal (net : Network) (v : Nat) : Terminal :=
  net.terminals.getD v Terminal.closed

/-- Whether `v` has to stay outside. -/
def fixed (net : Network) (v : Nat) : Bool :=
  (net.terminal v).fixed

/-- What the source can still send to `v`. -/
def supply (net : Network) (v : Nat) : Int :=
  (net.terminal v).sourceCap - (net.terminal v).sourceFlow

/-- What `v` can still send to the sink. -/
def demand (net : Network) (v : Nat) : Int :=
  (net.terminal v).sinkCap - (net.terminal v).sinkFlow

/-- The base at a place: a channel and a position in it. -/
def baseOf (channels : List Channel) (place : Nat × Nat) : Int :=
  (channels[place.1]?.map (·.baseAt place.2)).getD 0

/-- The network of a graph, before any flow. -/
def ofGraph (g : Graph) : Network :=
  let channels := g.factors.map (Channel.ofFactor g.isFixed)
  let places := incidence (g.factors.map (·.members))
  { terminals := Array.ofFn fun v : Fin g.numNodes =>
      Terminal.ofCosts (g.isFixed v) (g.cost0 v)
        (g.cost1 v + ((places v).map (baseOf channels)).sum)
    channels := channels }

/-- What the source can still send to the free nodes. -/
def totalSupply (net : Network) : Nat :=
  ((List.range net.numNodes).map fun v => if net.fixed v then 0 else (net.supply v).toNat).sum

end Network

end FusionMove.Cut
