import FusionMove.Proofs.Cut.Loops
import FusionMove.Proofs.Cut.MinimumCut

namespace FusionMove.Cut

/-!
# Why a run stops

Over submodular tables every network on the way is feasible, so the path of a search carries one
unit at least, however often it crosses one channel.  No turn gives up, and when the loop stops the
sink is out of reach.

* `Network.Severed` — the sink is out of reach of the source;
* `Run.feasible_of_turns` — what a turn keeps holds on the whole way;
* `paths_have_room` — every path has room, and the loop stops for want of a path.
-/

namespace Network

/-- No arcs with capacity lead from a node that the source can still supply to one that can still
    send to the sink. -/
def Severed (net : Network) : Prop :=
  ∀ first arcs last, net.isStart first = true → net.Leads first arcs last → net.demand last ≤ 0

/-- A search that finds nothing has gone everywhere. -/
theorem severed_of_found {net : Network} (hnone : net.search.found = none) : net.Severed := by
  intro first arcs last hstart hl
  obtain ⟨hfree, hsupply⟩ := isStart_iff.mp hstart
  refine demand_of_visited hnone (hl.mem_last (S := net.search.visited) ?_ fun u a hu ha => ?_)
  · exact visited_of_supply hfree hsupply
  · exact visited_of_arrow hnone hu ha

end Network

namespace Run

variable {g : Graph} {r r' : Run}

/-- A turn keeps the network feasible. -/
theorem Turn.feasible (h : r.Turn r') (hw : g.WellFormed) (hf : Network.Feasible g r.network) :
    Network.Feasible g r'.network := by
  obtain ⟨sink, hfound, hroom, rfl⟩ := turn_iff.mp h
  exact hf.push hw (Network.traced_search hfound).1.leads (Int.le_of_lt hroom) (Int.le_refl _)

/-- Every network on the way is feasible. -/
theorem feasible_of_turns (hw : g.WellFormed) (hg : g.Submodular)
    (h : Relation.ReflTransGen Turn (start (Network.ofGraph g)) r) :
    Network.Feasible g r.network := by
  induction h with
  | refl => exact Network.feasible_ofGraph hw hg
  | tail _ hturn ih => exact hturn.feasible hw ih

/-- In a feasible network the path of a search carries one unit at least. -/
theorem one_le_room_of_feasible (hw : g.WellFormed) (hg : g.Submodular)
    (hf : Network.Feasible g r.network) {s : Search} {sink : Nat} {path : Path}
    (hs : r.network.Explores r.network.start s) (hfound : s.found = some sink)
    (hback : s.LeadsBack sink path) : 1 ≤ r.network.room path sink := by
  obtain rfl := r.network.explores_search.unique hs
  obtain rfl := (Network.leadsBack_pathTo hfound).unique hback
  obtain ⟨ht, hdemand⟩ := Network.traced_search hfound
  exact hf.one_le_room hw hg ht hdemand

/-- So the loop stops only where no path is found. -/
theorem Stops.eq_of_feasible (h : r.Stops r') (hw : g.WellFormed) (hg : g.Submodular)
    (hf : Network.Feasible g r.network) : r' = r ∧ r.network.Severed := by
  cases h with
  | dry hs hnone =>
    obtain rfl := r.network.explores_search.unique hs
    exact ⟨rfl, Network.severed_of_found hnone⟩
  | stuck hs hfound hback hle =>
    have := one_le_room_of_feasible hw hg hf hs hfound hback
    omega

end Run

/-- Besides what happened on the way, the oracle reports on the cut. -/
theorem maxFlow_events {g : Graph} (hw : g.WellFormed) :
    (maxFlow.solve g ()).events = (Network.ofGraph g).saturated.events ++
      [.cutFound g.numNodes g.factors.length (Network.ofGraph g).saturated.augmentations
        (Network.ofGraph g).saturated.flow (minimumCut g).energy] := by
  unfold maxFlow
  dsimp only
  rw [Action.require, if_pos hw]
  rfl

/-- Over submodular tables every path that a search finds on the way carries one unit at least.
    The loop stops only where the sink is out of reach, the oracle warns of nothing, and the run that
    is computed is the one where the loop stops. -/
theorem paths_have_room {g : Graph} (hw : g.WellFormed) (hg : g.Submodular) :
    (∀ r s sink path, Relation.ReflTransGen Run.Turn (Run.start (Network.ofGraph g)) r →
      r.network.Explores r.network.start s → s.found = some sink → s.LeadsBack sink path →
      1 ≤ r.network.room path sink) ∧
    (∀ r r', Relation.ReflTransGen Run.Turn (Run.start (Network.ofGraph g)) r → r.Stops r' →
      r' = r ∧ r.network.Severed) ∧
    (∀ e ∈ (maxFlow.solve g ()).events, e.level ≠ .warn) ∧
    Relation.ReflTransGen Run.Turn (Run.start (Network.ofGraph g)) (Network.ofGraph g).saturated ∧
    (Network.ofGraph g).saturated.Stops (Network.ofGraph g).saturated := by
  have hstops : ∀ r r', Relation.ReflTransGen Run.Turn (Run.start (Network.ofGraph g)) r →
      r.Stops r' → r' = r ∧ r.network.Severed := fun r r' hturns hstop =>
    hstop.eq_of_feasible hw hg (Run.feasible_of_turns hw hg hturns)
  obtain ⟨r, hturns, hstop⟩ := (Network.ofGraph g).saturated_turns
  obtain ⟨heq, -⟩ := hstops r _ hturns hstop
  rw [← heq] at hturns hstop
  refine ⟨fun r s sink path hturns hs hfound hback => ?_, hstops, fun e he => ?_, hturns, hstop⟩
  · exact Run.one_le_room_of_feasible hw hg (Run.feasible_of_turns hw hg hturns) hs hfound hback
  · rw [maxFlow_events hw] at he
    rcases List.mem_append.mp he with he | he
    · exact (Network.feasible_saturated hw hg).2.2 e he
    · obtain rfl := List.mem_singleton.mp he
      simp [Event.level]

/-- Four nodes, the first to be supplied and the last to be emptied.  The first factor lets flow
    from node 0 to node 1 and from node 2 to node 3, the second one from node 1 to node 2. -/
def zigzag : Graph where
  nodes := #[⟨2, 0, false⟩, ⟨0, 0, false⟩, ⟨0, 0, false⟩, ⟨0, 2, false⟩]
  factors := [Factor.ofTable [1, 0, 3, 2] #[0, 0, 3, 0, 0, 0, 3, 0, 3, 3, 6, 3, 0, 0, 3, 0],
    Factor.ofTable [2, 1] #[0, 0, 3, 0]]
  constant := 0
  fixed := #[]

/-- The only path crosses the first factor twice, and has room. -/
theorem zigzag_path_has_room : zigzag.WellFormed ∧ zigzag.Submodular ∧
    ((Network.ofGraph zigzag).search.pathTo 3).crossings 0 = [(3, 2), (1, 0)] ∧
    1 ≤ (Network.ofGraph zigzag).room ((Network.ofGraph zigzag).search.pathTo 3) 3 := by
  have hw : zigzag.WellFormed := by decide +kernel
  have hg : zigzag.Submodular := by decide +kernel
  have hfound : (Network.ofGraph zigzag).search.found = some 3 := by decide +kernel
  have hcrossings : ((Network.ofGraph zigzag).search.pathTo 3).crossings 0 = [(3, 2), (1, 0)] := by
    decide +kernel
  have hexplores := (Network.ofGraph zigzag).explores_search
  have hback := Network.leadsBack_pathTo hfound
  generalize (Network.ofGraph zigzag).search = s at hfound hcrossings hexplores hback
  obtain ⟨hroom, -⟩ := paths_have_room hw hg
  exact ⟨hw, hg, hcrossings, hroom (Run.start (Network.ofGraph zigzag)) s 3 _ .refl hexplores hfound
    hback⟩

end FusionMove.Cut
