import FusionMove.Proofs.Cut.Loops
import FusionMove.Proofs.Cut.MinimumCut

namespace FusionMove.Cut

/-!
# What a search finds

A search that finds no node has been to everything within reach, and to nothing else.  One that finds
a node has come to it on a shortest path: levels count the arcs of the way back, and on any other path
from a start, the first node that still waits in the queue is no nearer than the node found, which
stands in front of it.

* `Network.ArrowClosed`, `Network.ReachableSet` — closed under arcs with capacity, and least so;
* `Search.LeadsBack.length_eq` — the way back has as many arcs as the level says;
* `Sound.level_le_length` — no path is shorter than the level of the node found;
* `Network.Joined`, `Residual.leads_of_joined` — arcs with capacity between any nodes; in the network
  of a graph they pass through free nodes only;
* `search_shortest` — both ends that a search can come to.
-/

namespace Network

variable {net : Network}

/-! ### Reachability -/

/-- The set holds every start and, with the tail of an arrow, its head. -/
structure ArrowClosed (net : Network) (T : Nat → Bool) : Prop where
  start : ∀ v, net.isStart v = true → T v = true
  head : ∀ u a, T u = true → net.Arrow u a → T a.target = true

/-- The least set of this kind. -/
structure ReachableSet (net : Network) (T : Nat → Bool) : Prop extends ArrowClosed net T where
  least : ∀ T', net.ArrowClosed T' → ∀ v, T v = true → T' v = true

/-- Whatever a search has visited lies in every such set. -/
theorem ArrowClosed.of_visited {T : Nat → Bool} (hT : net.ArrowClosed T) {v : Nat}
    (hv : net.search.visited v = true) : T v = true := by
  obtain ⟨level, done, w, hs, hp, -⟩ := net.search_sound
  have ht := hs.traced_pathTo hp ((visited_iff_reached hs hp v).mp hv)
  exact ht.leads.mem_last (hT.start _ ht.isStart_first) hT.head

/-- A search that finds no node visits what can be reached. -/
theorem reachableSet_visited (hnone : net.search.found = none) :
    net.ReachableSet net.search.visited where
  start v hv := by
    obtain ⟨hfree, hsupply⟩ := isStart_iff.mp hv
    exact visited_of_supply hfree hsupply
  head _ _ := visited_of_arrow hnone
  least _ hT _ := hT.of_visited

end Network

/-! ### Lengths of paths -/

namespace Frontier.Sound

variable {net : Network} {level : Nat → Nat} {done rest : List Nat} {w : Frontier} {u : Nat}

/-- The way back from a node has as many arcs as its level says. -/
theorem length_leadsBack (hs : Sound net level done w) {s : Search} (hp : s.parents = w.parents)
    {v : Nat} {path : Path} (h : s.LeadsBack v path) : path.arcs.length = level v := by
  have hparent : ∀ v, s.parent v = w.parent v := fun v => by
    rw [Search.parent, Frontier.parent, hp]
  induction h with
  | source hv => exact (hs.level_start _ ((hs.source_iff _).mp ((hparent _).symm.trans hv))).symm
  | exchange hv _ ih =>
    obtain ⟨-, -, hlevel⟩ := hs.exchange _ _ _ _ _ ((hparent _).symm.trans hv)
    rw [List.length_cons, ih, hlevel]

/-- Nothing in the queue is nearer than what stands in front. -/
theorem level_front_le (hs : Sound net level done w) (hq : w.queue = u :: rest) {v : Nat}
    (hv : v ∈ w.queue) : level u ≤ level v := by
  have hsorted := (List.pairwise_append.mp hs.sorted).2.1
  rw [hq] at hsorted hv
  rcases List.mem_cons.mp hv with rfl | hv
  · exact Nat.le_refl _
  · exact List.rel_of_pairwise_cons hsorted hv

/-- A path from a start stays among the nodes that are done, and then no level exceeds its length; or
    it has come through the queue, and then it is no shorter than the way to what stands in front. -/
theorem done_or_level_le (hs : Sound net level done w) (hq : w.queue = u :: rest) {first v : Nat}
    {arcs : List Arc} (hstart : net.isStart first = true) (hl : net.Leads first arcs v) :
    (v ∈ done ∧ level v ≤ arcs.length) ∨ level u ≤ arcs.length := by
  induction hl with
  | here =>
    have hzero := hs.level_start first hstart
    have hreached : first ∈ done ++ w.queue :=
      (hs.reached_iff first).mp (by rw [(hs.source_iff first).mpr hstart]; exact Parent.noConfusion)
    rcases List.mem_append.mp hreached with hdone | hqueue
    · exact .inl ⟨hdone, by rw [hzero]; exact Nat.zero_le _⟩
    · have hle := hs.level_front_le hq hqueue
      exact .inr (by omega)
  | @step arcs x a _ ha hfree hcap ih =>
    rw [List.length_cons]
    rcases ih with ⟨hdone, hle⟩ | hle
    · -- the tail of the arc is done, so its head was reached
      have harrow : net.Arrow x a := ⟨ha, hfree, hcap⟩
      have hnear := hs.near x hdone a harrow
      rcases List.mem_append.mp (hs.closed x hdone a harrow) with hhead | hqueue
      · exact .inl ⟨hhead, by omega⟩
      · have := hs.level_front_le hq hqueue
        exact .inr (by omega)
    · exact .inr (by omega)

/-- No path from a start to the front of the queue has fewer arcs than its level says. -/
theorem level_le_length (hs : Sound net level done w) (hq : w.queue = u :: rest) {first : Nat}
    {arcs : List Arc} (hstart : net.isStart first = true) (hl : net.Leads first arcs u) :
    level u ≤ arcs.length := by
  -- what waits is not done
  have hwaits : u ∉ done := fun hdone =>
    (List.nodup_append.mp hs.nodup).2.2 u hdone u (by rw [hq]; exact List.mem_cons_self) rfl
  exact (hs.done_or_level_le hq hstart hl).resolve_left fun h => hwaits h.1

end Frontier.Sound

namespace Network

variable {net : Network}

/-- No path from a start to the node that a search has found is shorter than the way back. -/
theorem length_le_of_leads {sink : Nat} (hfound : net.search.found = some sink) {path : Path}
    (hback : net.search.LeadsBack sink path) {first : Nat} {arcs : List Arc}
    (hstart : net.isStart first = true) (hl : net.Leads first arcs sink) :
    path.arcs.length ≤ arcs.length := by
  obtain ⟨level, done, w, hs, hp, hend⟩ := net.search_sound
  rw [hfound] at hend
  obtain ⟨⟨rest, hq⟩, -⟩ := hend
  rw [hs.length_leadsBack hp hback]
  exact hs.level_le_length hq hstart hl

/-! ### Fixed nodes -/

/-- Arcs with capacity that lead from one node to another, whether the nodes are free or not; the last
    arc comes first. -/
inductive Joined (net : Network) (first : Nat) : List Arc → Nat → Prop
  | here : Joined net first [] first
  | step {arcs : List Arc} {u : Nat} {a : Arc} : Joined net first arcs u → a ∈ net.arcsFrom u →
      0 < net.capacity a → Joined net first (a :: arcs) a.target

end Network

/-- No free set holds a member that is not free, so no arc leaves it with capacity. -/
theorem Channel.Carries.exchangeCapacity_of_not_free {fixed : Nat → Bool} {f : Factor} {h : Channel}
    (hc : h.Carries fixed f) {p : Nat} (hp : h.free.testBit p = false) (q : Nat) :
    h.exchangeCapacity p q = 0 := by
  have hnone : (h.freeSets.filter fun t => t.testBit p && !t.testBit q) = [] := by
    refine List.filter_eq_nil_iff.mpr fun t ht hleft => ?_
    have htp : t.testBit p = true := (Bool.and_eq_true_iff.mp hleft).1
    have hfree := (hc.mem_freeSets.mp ht).testBit htp
    rw [hp] at hfree
    exact Bool.false_ne_true hfree
  rw [exchangeCapacity, hnone]
  rfl

namespace Network.Residual

variable {g : Graph} {net : Network}

/-- So the tail of an arc with capacity is free. -/
theorem tail_free (hr : Residual g net) (hw : g.WellFormed) {u : Nat} {a : Arc}
    (ha : a ∈ net.arcsFrom u) (hcap : 0 < net.capacity a) : net.fixed u = false := by
  obtain ⟨h, hh, hu, -, -⟩ := mem_arcsFrom.mp ha
  obtain ⟨f, hf, hc⟩ := hr.exists_factor hh
  rw [capacity_eq a hh] at hcap
  rw [hc.members_eq] at hu
  have hlt := (hw f (List.mem_of_getElem? hf)).1 u (List.mem_of_getElem? hu)
  have hbit : h.free.testBit a.p = true := by
    by_contra hp
    rw [hc.exchangeCapacity_of_not_free (Bool.eq_false_iff.mpr hp)] at hcap
    exact absurd hcap (Int.lt_irrefl 0)
  rw [hr.fixed_eq u hlt]
  simpa [hbit] using hc.testBit_free hu

/-- Arcs with capacity pass through free nodes only, if they end at one. -/
theorem leads_of_joined (hr : Residual g net) (hw : g.WellFormed) {first last : Nat}
    {arcs : List Arc} (hj : net.Joined first arcs last) (hlast : net.fixed last = false) :
    net.Leads first arcs last := by
  induction hj with
  | here => exact .here hlast
  | step _ ha hcap ih => exact .step (ih (hr.tail_free hw ha hcap)) ha hlast hcap

end Network.Residual

namespace Network

/-- The first node of a path between free nodes is free. -/
theorem Leads.first_free {net : Network} {first last : Nat} {arcs : List Arc}
    (hl : net.Leads first arcs last) : net.fixed first = false := by
  induction hl with
  | here h => exact h
  | step _ _ _ _ ih => exact ih

end Network

/-- The search comes to its end on every network.  If it finds no node, it has visited the least set
    that holds every start and is closed under arcs with capacity to free nodes, and no node in it
    can send to the sink.  If it finds one, that node can send to the sink, its parents lead back to a
    start over arcs with capacity, and no path from a start has fewer arcs.  In a network that holds a
    flow of a graph neither has any path from a node with supply, even if fixed nodes were allowed on
    the way. -/
theorem search_shortest (net : Network) :
    net.Explores net.start net.search ∧
    (net.search.found = none →
      net.ReachableSet net.search.visited ∧
      ∀ v, net.search.visited v = true → net.demand v ≤ 0) ∧
    ∀ sink, net.search.found = some sink →
      0 < net.demand sink ∧ ∃ path, net.search.LeadsBack sink path ∧
        net.isStart path.first = true ∧ net.Leads path.first path.arcs sink ∧
        (∀ first arcs, net.isStart first = true → net.Leads first arcs sink →
          path.arcs.length ≤ arcs.length) ∧
        ∀ g : Graph, g.WellFormed → net.Residual g → ∀ first arcs, 0 < net.supply first →
          net.Joined first arcs sink → path.arcs.length ≤ arcs.length := by
  refine ⟨net.explores_search, fun hnone => ⟨Network.reachableSet_visited hnone, fun _ =>
    Network.demand_of_visited hnone⟩, fun sink hfound => ?_⟩
  obtain ⟨ht, hdemand⟩ := Network.traced_search hfound
  have hback := Network.leadsBack_pathTo hfound
  refine ⟨hdemand, _, hback, ht.isStart_first, ht.leads, fun first arcs =>
    Network.length_le_of_leads hfound hback, fun g hw hr first arcs hsupply hjoined => ?_⟩
  have hl := hr.leads_of_joined hw hjoined ht.leads.last_free
  have hstart := Network.isStart_iff.mpr ⟨hl.first_free, hsupply⟩
  exact Network.length_le_of_leads hfound hback hstart hl

/-- Node 0 is supplied and node 3 can be emptied.  One way between them has three arcs and one has
    two, and an arc leads from node 0 to a dead end. -/
def detour : Graph where
  nodes := #[⟨3, 0, false⟩, ⟨0, 0, false⟩, ⟨0, 0, false⟩, ⟨0, 5, false⟩, ⟨0, 0, false⟩,
    ⟨0, 0, false⟩]
  factors := [[1, 0], [2, 1], [3, 2], [4, 0], [3, 4], [5, 0]].map (.ofTable · #[0, 0, 1, 0])
  constant := 0
  fixed := #[]

/-- The first search takes the way of two arcs.  When both ways are full, the last one still comes to
    the dead end. -/
theorem search_shortest_detour :
    ((Network.ofGraph detour).search.found = some 3 ∧ 0 < (Network.ofGraph detour).demand 3 ∧
      ∃ path, (Network.ofGraph detour).search.LeadsBack 3 path ∧ path.arcs.length = 2 ∧
        ∀ first arcs, (Network.ofGraph detour).isStart first = true →
          (Network.ofGraph detour).Leads first arcs 3 → 2 ≤ arcs.length) ∧
    (Network.ofGraph detour).saturated.network.search.found = none ∧
    (List.range 6).map (Network.ofGraph detour).saturated.network.search.visited
      = [true, false, false, false, false, true] ∧
    (Network.ofGraph detour).saturated.network.ReachableSet
      (Network.ofGraph detour).saturated.network.search.visited := by
  have hfound : (Network.ofGraph detour).search.found = some 3 := by decide +kernel
  have hlength : ((Network.ofGraph detour).search.pathTo 3).arcs.length = 2 := by decide +kernel
  have hnone : (Network.ofGraph detour).saturated.network.search.found = none := by decide +kernel
  have hvisited : (List.range 6).map (Network.ofGraph detour).saturated.network.search.visited
      = [true, false, false, false, false, true] := by decide +kernel
  generalize Network.ofGraph detour = net at hfound hlength hnone hvisited ⊢
  obtain ⟨-, -, hends⟩ := search_shortest net
  obtain ⟨-, hempty, -⟩ := search_shortest net.saturated.network
  obtain ⟨hdemand, path, hback, -, -, hshortest, -⟩ := hends 3 hfound
  obtain rfl := (Network.leadsBack_pathTo hfound).unique hback
  rw [hlength] at hshortest
  exact ⟨⟨hfound, hdemand, _, hback, hlength, hshortest⟩, hnone, hvisited, (hempty hnone).1⟩

end FusionMove.Cut
