import FusionMove.Proofs.Cut.MinimumCut

namespace FusionMove.Cut

/-!
# Cuts that go down

What a minimum cut owes to the moves that are made of it: its run gives up on no path, it leaves no
slack above zero at the chosen nodes, and it costs less than the empty set unless it is empty.

Submodular tables give all of this.  So do tables of any kind over one or two members, where the
answer need not be the cheapest set.  Between two members there is one set for each exchange arc to
leave: the arc has the slack of its tail alone, and a path crosses the factor only once, so there is
room on it for one unit.  When the search ends, a factor cut in two has an arc without capacity from
the inside to the outside, and this capacity is its slack.

* `Graph.Descending` — the graph has such a minimum cut;
* `descending_of_submodular` — over submodular tables;
* `Residual.length_crossings_le`, `Residual.slackOn_le` — the two uses of there being only two
  members;
* `descending_of_pairwise` — over tables of one or two members.
-/

open scoped CoreArithmetic

namespace Graph

/-- No factor has more than two members. -/
def Pairwise (g : Graph) : Prop :=
  ∀ f ∈ g.factors, f.size ≤ 2

/-- The run for the minimum cut gives no warning, no chosen set has slack left, and the energy goes
    down if any node is chosen. -/
structure Descending (g : Graph) : Prop where
  quiet : ∀ e ∈ (Network.ofGraph g).saturated.events, e.level ≠ .warn
  slackOn_le : ∀ c, (Network.ofGraph g).saturated.network.slackOn (minimumCut g).chosen c ≤ 0
  energy_lt : ∀ v, (minimumCut g).chosen v = true →
    g.energy (minimumCut g).chosen < g.energy fun _ => false

/-! ### Submodular tables -/

/-- A least minimiser is better than the empty set unless it is the empty set. -/
theorem LeastMinimiser.energy_lt {g : Graph} {S : Nat → Bool} (h : g.LeastMinimiser S) {v : Nat}
    (hv : S v = true) : g.energy S < g.energy fun _ => false := by
  have hempty : g.FreeSet fun _ => false := fun _ hu => absurd hu (by simp)
  refine lt_of_le_of_ne (h.energy_le _ hempty) fun heq => ?_
  exact absurd (h.least _ hempty heq.symm v hv) (by simp)

end Graph

/-- Over submodular tables minimum cuts go down. -/
theorem descending_of_submodular {g : Graph} (hw : g.WellFormed) (hg : g.Submodular) :
    g.Descending where
  quiet := (Network.feasible_saturated hw hg).2.2
  slackOn_le c := Int.le_of_eq (minimumCut_slackOn hw hg c)
  energy_lt _ := (minimumCut_leastMinimiser hw hg).energy_lt

/-! ### Factors of two members -/

namespace Network

variable {g : Graph} {net : Network} {path : Path} {sink : Nat}

/-- A usable arc leads from one position to another. -/
theorem Usable.ne {a : Arc} (ha : net.Usable a) : a.p ≠ a.q := by
  obtain ⟨u, hu, -⟩ := ha.exists_tail
  obtain ⟨-, -, -, -, hne⟩ := mem_arcsFrom.mp hu
  exact hne

namespace Residual

/-- A path of the search crosses a factor of two members once at most. -/
theorem length_crossings_le (hr : Residual g net) (hw : g.WellFormed) (ht : net.Traced path sink)
    {c : Nat} {f : Factor} (hf : g.factors[c]? = some f) (hsize : f.size ≤ 2) :
    (path.crossings c).length ≤ 1 := by
  have hapart : (path.arcs.filter (·.c = c)).Pairwise fun _ _ => False := by
    refine List.pairwise_filter.mpr (ht.separated.imp_of_mem ?_)
    intro later earlier hlater hearlier hsep hlc hec
    obtain rfl := of_decide_eq_true hlc
    obtain ⟨hne, hcap⟩ := hsep (of_decide_eq_true hec).symm
    have hl := ht.leads.usable later hlater
    have he := ht.leads.usable earlier hearlier
    have hlt := hr.lt_of_usable hw hl hf
    have hlt' := hr.lt_of_usable hw he (by rw [of_decide_eq_true hec]; exact hf)
    -- both arcs enter the member that the earlier one does not leave, so they are one arc
    have hq : later.q = earlier.q := by
      have := he.ne
      omega
    have hpos : 0 < net.capacity ⟨earlier.c, earlier.p, later.q, later.target⟩ := by
      rw [hq]
      exact he.capacity_pos
    omega
  rw [Path.crossings, List.length_map]
  cases harcs : path.arcs.filter (·.c = c) with
  | nil => exact Nat.zero_le _
  | cons a arcs =>
    cases arcs with
    | nil => exact Nat.le_refl _
    | cons b arcs =>
      rw [harcs] at hapart
      exact (List.rel_of_pairwise_cons hapart List.mem_cons_self).elim

/-- A path of the search has room for one unit, whatever the tables over one or two members. -/
theorem one_le_room_of_pairwise (hr : Residual g net) (hw : g.WellFormed) (hpair : g.Pairwise)
    (ht : net.Traced path sink) (hdemand : 0 < net.demand sink) : 1 ≤ net.room path sink := by
  have hsupply := (isStart_iff.mp ht.isStart_first).2
  refine (net.le_room_iff path sink 1).mpr ⟨⟨hdemand, hsupply⟩, fun c h hh t hfree hm => ?_⟩
  obtain ⟨f, hfac, hc⟩ := hr.exists_factor hh
  have hlen := hr.length_crossings_le hw ht hfac (hpair f (List.mem_of_getElem? hfac))
  rw [hc.size_eq, hr.sum_load hw ht.leads.usable hfac] at hm ⊢
  cases hcross : path.crossings c with
  | nil =>
    rw [hcross] at hm
    exact absurd hm (by simp)
  | cons e rest =>
    rw [hcross] at hm hlen
    obtain rfl : rest = [] := List.length_eq_zero_iff.mp (by simpa using hlen)
    obtain ⟨a, ha, rfl⟩ := List.mem_map.mp (show e ∈ path.crossings c by rw [hcross]; simp)
    obtain ⟨hmem, hac⟩ := List.mem_filter.mp ha
    obtain rfl := of_decide_eq_true hac
    -- the one arc leaves the set, so its capacity is at most the slack of the set
    have hcap := (ht.leads.usable a hmem).capacity_pos
    rw [capacity_eq a hh] at hcap
    rw [Mask.crossing_cons, Mask.crossing_nil] at hm ⊢
    cases hp : t.testBit a.p <;> cases hq : t.testBit a.q <;> simp [hp, hq] at hm ⊢
    have := Channel.exchangeCapacity_le hc (hc.mem_freeSets.mp hfree) hp hq
    omega

/-- A free set that holds with a tail the head of every arrow leaves no slack above zero in a factor
    of two members. -/
theorem slackOn_le (hr : Residual g net) (hw : g.WellFormed) (hpair : g.Pairwise) {T : Nat → Bool}
    (hT : g.FreeSet T) (hclosed : ∀ u a, T u = true → net.Arrow u a → T a.target = true) (c : Nat) :
    net.slackOn T c ≤ 0 := by
  rw [slackOn]
  cases hh : net.channels[c]? with
  | none => exact Int.le_refl _
  | some h =>
    obtain ⟨f, hfac, hc⟩ := hr.exists_factor hh
    have hmem := List.mem_of_getElem? hfac
    have hsize := (hw f hmem).2
    have hwithin := hr.within_free hh hT
    have hcap := fun p q => hr.exchangeCapacity_le_of_closed hw hT hclosed hh (p := p) (q := q)
    rw [Option.map_some, Option.getD_some]
    generalize Mask.ofBits (h.members.map T) = chosen at hwithin hcap ⊢
    by_cases hnone : chosen = 0
    · rw [hnone, hc.slackAt_zero hsize]
    by_cases hall : chosen = h.free
    · rw [hall, hc.slackAt_free hsize]
    -- one member is chosen, and the other one is free and is not
    obtain ⟨p, hp⟩ := Nat.exists_testBit_of_ne_zero hnone
    obtain ⟨q, hfq, hq⟩ := hwithin.exists_missing hall
    have hne : p ≠ q := by
      rintro rfl
      exact absurd (hp.symm.trans hq) (by simp)
    obtain ⟨t, ht, htp, htq, heq⟩ :=
      Channel.exists_exchangeCapacity_eq hc (hwithin.testBit hp) hne
    have hfree : h.free < 2 ^ (2 : Nat) :=
      Nat.lt_of_lt_of_le hc.free_lt (Nat.pow_le_pow_right (by decide) (hpair f hmem))
    -- so the set that the arc between them leaves is the chosen one
    obtain rfl : t = chosen := Mask.eq_of_two_bits hfree ht hwithin hfq htp hp htq hq
    rw [← heq]
    exact hcap p q hp hfq hq

/-- A set of free nodes that cannot send to the sink and leaves no channel with slack costs less
    than the empty set, if the source can still supply one of its nodes. -/
theorem energy_lt_empty (hr : Residual g net) (hw : g.WellFormed) {S : Nat → Bool}
    (hdry : ∀ v, S v = true → net.demand v ≤ 0) (hslack : ∀ c, net.slackOn S c ≤ 0) {u : Nat}
    (hu : S u = true) (hlt : u < g.numNodes) (hpos : 0 < net.supply u) :
    g.energy S < g.energy fun _ => false := by
  have hnodes : sumTo g.numNodes (fun v => if S v then net.demand v - net.supply v else 0) < 0 := by
    refine sumTo_neg (fun v hv => ?_) hlt ?_
    · split
      · rename_i hSv
        have := hdry v hSv
        have := hr.supply_nonneg hv
        omega
      · exact Int.le_refl _
    · have := hdry u hu
      rw [if_pos hu]
      omega
  have hslacks := sumTo_nonpos fun c (_ : c < g.factors.length) => hslack c
  have := hr.energy_sub hw S
  omega

end Residual

end Network

/-- Over tables of one or two members minimum cuts go down. -/
theorem descending_of_pairwise {g : Graph} (hw : g.WellFormed) (hpair : g.Pairwise) :
    g.Descending := by
  obtain ⟨hr, hnone, hquiet⟩ := Network.saturated_of_room (Network.residual_ofGraph g)
    (fun _ _ hr hfound hroom => Network.Residual.push_room hr hw hfound hroom)
    fun net sink hr hfound => by
      obtain ⟨ht, hdemand⟩ := Network.traced_search hfound
      exact Network.Residual.one_le_room_of_pairwise hr hw hpair ht hdemand
  have hchosen : (minimumCut g).chosen = (Network.ofGraph g).saturated.network.search.visited := by
    rw [minimumCut, Run.answer_chosen]
  have hslack := hr.slackOn_le hw hpair (hr.freeSet fun _ => Network.fixed_of_visited)
    fun _ _ hu ha => Network.visited_of_arrow hnone hu ha
  refine ⟨hquiet, fun c => by rw [hchosen]; exact hslack c, fun v hv => ?_⟩
  rw [hchosen] at hv ⊢
  obtain ⟨u, hu, hpos⟩ := Network.exists_supply_of_visited hv
  exact hr.energy_lt_empty hw (fun _ => Network.demand_of_visited hnone) hslack hu
    (hr.lt_of_free (Network.fixed_of_visited hu)) hpos

end FusionMove.Cut
