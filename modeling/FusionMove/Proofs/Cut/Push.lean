import FusionMove.Access
import FusionMove.Proofs.Cut.Residual

namespace FusionMove.Cut

/-!
# Pushing along a path

* `Network.mem_arcsFrom` — the exchange arcs out of a node;
* `Network.Leads` — arcs with capacity that lead from one free node to another;
* `Path.sum_load` — the load of a set of members is the number of arcs that leave it less the
  number that enter it;
* `Residual.sum_places_load` — at every node but the two ends, a path leaves as often as it enters;
* `Residual.push` — a push within the terminal arcs at both ends keeps the network residual.
-/

open scoped CoreArithmetic

namespace Path

/-- The tail and head positions of the arcs in channel `c`, the last arc first. -/
def crossings (path : Path) (c : Nat) : List (Nat × Nat) :=
  (path.arcs.filter (·.c = c)).map fun a => (a.p, a.q)

@[simp] theorem load_nil (first c p : Nat) : load ⟨first, []⟩ c p = 0 := rfl

theorem load_cons (first : Nat) (a : Arc) (arcs : List Arc) (c p : Nat) :
    load ⟨first, a :: arcs⟩ c p
      = (if a.c = c then (if a.p = p then 1 else 0) - (if a.q = p then 1 else 0) else 0)
        + load ⟨first, arcs⟩ c p := rfl

/-- The load of a set of members is the number of arcs that leave it less the number that enter. -/
theorem sum_load {path : Path} {c k : Nat}
    (hk : ∀ a ∈ path.arcs, a.c = c → a.p < k ∧ a.q < k) (t : Nat) :
    Mask.sum k (path.load c) t = Mask.crossing (path.crossings c) t := by
  obtain ⟨first, arcs⟩ := path
  simp only [crossings] at hk ⊢
  induction arcs with
  | nil => simp [Mask.sum]
  | cons a arcs ih =>
    have ih := ih fun b hb => hk b (by simp [hb])
    have hsplit : Mask.sum k (load ⟨first, a :: arcs⟩ c) t
        = Mask.sum k (fun p => if a.c = c then
            (if a.p = p then 1 else 0) - (if a.q = p then 1 else 0) else 0) t
          + Mask.sum k (load ⟨first, arcs⟩ c) t := by
      rw [← Mask.sum_add]
      rfl
    rw [hsplit, ih]
    by_cases hc : a.c = c
    · -- an arc of this channel counts where its tail is inside and its head is not
      have hpq := hk a (by simp) hc
      have hterm : Mask.sum k (fun p => if a.c = c then
            (if a.p = p then 1 else 0) - (if a.q = p then 1 else 0) else 0) t
          = (if t.testBit a.p then 1 else 0) - (if t.testBit a.q then 1 else 0) := by
        rw [← Mask.sum_single k a.p 1 t hpq.1, ← Mask.sum_single k a.q 1 t hpq.2]
        simp only [Mask.sum]
        rw [← sumTo_sub]
        apply sumTo_congr
        intro p _
        cases t.testBit p <;> simp [hc, eq_comm]
      rw [hterm, List.filter_cons_of_pos (by simp [hc]), List.map_cons, Mask.crossing_cons]
    · have hterm : Mask.sum k (fun p => if a.c = c then
          (if a.p = p then 1 else 0) - (if a.q = p then 1 else 0) else 0) t = 0 := by
        simp [Mask.sum, hc]
      rw [hterm, List.filter_cons_of_neg (by simp [hc]), Int.zero_add]

end Path

namespace Network

/-! ### Arcs -/

/-- The exchange arcs out of `u` go from its positions to the other members. -/
theorem mem_arcsFrom {net : Network} {u : Nat} {a : Arc} :
    a ∈ net.arcsFrom u ↔ ∃ h, net.channels[a.c]? = some h ∧ h.members[a.p]? = some u ∧
      h.members[a.q]? = some a.target ∧ a.p ≠ a.q := by
  simp only [arcsFrom, List.mem_flatMap, List.mem_filterMap, Option.ite_none_left_eq_some,
    Option.some.injEq]
  constructor
  · rintro ⟨⟨c, p⟩, hplace, ⟨v, q⟩, hv, hpq, rfl⟩
    obtain ⟨h, hh, hu⟩ := mem_incidence_map.mp hplace
    rw [hh, Option.map_some, Option.getD_some, List.mem_zipIdx_iff_getElem?] at hv
    exact ⟨h, hh, hu, hv, fun heq => hpq heq.symm⟩
  · rintro ⟨h, hh, hu, hv, hpq⟩
    refine ⟨(a.c, a.p), mem_incidence_map.mpr ⟨h, hh, hu⟩,
      (a.target, a.q), ?_, ?_, rfl⟩
    · rw [hh, Option.map_some, Option.getD_some, List.mem_zipIdx_iff_getElem?]
      exact hv
    · exact fun heq => hpq heq.symm

/-- The capacity of an arc is one of its channel. -/
theorem capacity_eq {net : Network} (a : Arc) {h : Channel}
    (hh : net.channels[a.c]? = some h) : net.capacity a = h.exchangeCapacity a.p a.q := by
  rw [capacity, hh]
  rfl

/-- Arcs that lead from the free node `first` to the free node `last`, the last arc first. -/
inductive Leads (net : Network) (first : Nat) : List Arc → Nat → Prop
  | here : net.fixed first = false → Leads net first [] first
  | step {arcs : List Arc} {u : Nat} {a : Arc} : Leads net first arcs u → a ∈ net.arcsFrom u →
      net.fixed a.target = false → 0 < net.capacity a → Leads net first (a :: arcs) a.target

/-- An arc between free nodes that has capacity. -/
structure Usable (net : Network) (a : Arc) : Prop where
  exists_tail : ∃ u, a ∈ net.arcsFrom u ∧ net.fixed u = false
  head_free : net.fixed a.target = false
  capacity_pos : 0 < net.capacity a

namespace Leads

variable {net : Network} {first last : Nat} {arcs : List Arc}

theorem last_free (hl : net.Leads first arcs last) : net.fixed last = false := by
  cases hl with
  | here h => exact h
  | step _ _ h _ => exact h

theorem usable (hl : net.Leads first arcs last) : ∀ a ∈ arcs, net.Usable a := by
  induction hl with
  | here => exact fun a ha => absurd ha (List.not_mem_nil)
  | step hl ha hfree hcap ih =>
    intro b hb
    rcases List.mem_cons.mp hb with rfl | hb
    · exact ⟨⟨_, ha, hl.last_free⟩, hfree, hcap⟩
    · exact ih b hb

end Leads

namespace Residual

variable {g : Graph} {net : Network}

/-- Both positions of a usable arc are free members of its channel. -/
theorem testBit_usable (hr : Residual g net) (hw : g.WellFormed) {a : Arc} (ha : net.Usable a)
    {h : Channel} (hh : net.channels[a.c]? = some h) :
    h.free.testBit a.p = true ∧ h.free.testBit a.q = true := by
  obtain ⟨u, hu, hfree⟩ := ha.exists_tail
  obtain ⟨h', hh', hp, hq, -⟩ := mem_arcsFrom.mp hu
  rw [hh, Option.some.injEq] at hh'
  subst hh'
  obtain ⟨f, hf, hc⟩ := hr.exists_factor hh
  rw [hc.members_eq] at hp hq
  have hmem := (hw f (List.mem_of_getElem? hf)).1
  -- a position is free if its node is
  have hbit : ∀ {p v : Nat}, f.members[p]? = some v → net.fixed v = false →
      h.free.testBit p = true := by
    intro p v hv hfree
    rw [hc.testBit_free hv, ← hr.fixed_eq v (hmem v (List.mem_of_getElem? hv)), hfree]
    rfl
  exact ⟨hbit hp hfree, hbit hq ha.head_free⟩

/-- Both positions of a usable arc are positions of its channel. -/
theorem lt_of_usable (hr : Residual g net) (hw : g.WellFormed) {a : Arc} (ha : net.Usable a)
    {f : Factor} (hf : g.factors[a.c]? = some f) : a.p < f.size ∧ a.q < f.size := by
  obtain ⟨h, hh, hc⟩ := hr.exists_channel hf
  have hbits := hr.testBit_usable hw ha hh
  exact ⟨Mask.lt_of_testBit hc.free_lt hbits.1, Mask.lt_of_testBit hc.free_lt hbits.2⟩

/-- The load of a path of usable arcs, set by set. -/
theorem sum_load (hr : Residual g net) (hw : g.WellFormed) {path : Path}
    (hu : ∀ a ∈ path.arcs, net.Usable a) {c : Nat} {f : Factor} (hf : g.factors[c]? = some f)
    (t : Nat) : Mask.sum f.size (path.load c) t = Mask.crossing (path.crossings c) t :=
  Path.sum_load (fun a ha hac => hr.lt_of_usable hw (hu a ha) (by rw [hac]; exact hf)) t

/-- A path loads free members only. -/
theorem load_fixed (hr : Residual g net) (hw : g.WellFormed) {path : Path}
    (hu : ∀ a ∈ path.arcs, net.Usable a) {c : Nat} {h : Channel} (hh : net.channels[c]? = some h)
    {p : Nat} (hp : h.free.testBit p = false) : path.load c p = 0 := by
  obtain ⟨first, arcs⟩ := path
  induction arcs with
  | nil => rfl
  | cons a arcs ih =>
    rw [Path.load_cons, ih fun b hb => hu b (by simp [hb])]
    by_cases hc : a.c = c
    · subst hc
      obtain ⟨htail, hhead⟩ := hr.testBit_usable hw (hu a (by simp)) hh
      have h1 : a.p ≠ p := fun heq => by rw [heq, hp] at htail; exact Bool.false_ne_true htail
      have h2 : a.q ≠ p := fun heq => by rw [heq, hp] at hhead; exact Bool.false_ne_true hhead
      simp [h1, h2]
    · simp [hc]

/-- A path loads the free members of a channel with nothing in total. -/
theorem sum_load_free (hr : Residual g net) (hw : g.WellFormed) {path : Path}
    (hu : ∀ a ∈ path.arcs, net.Usable a) {c : Nat} {f : Factor} (hf : g.factors[c]? = some f)
    {h : Channel} (hh : net.channels[c]? = some h) :
    Mask.sum f.size (path.load c) h.free = 0 := by
  rw [hr.sum_load hw hu hf]
  obtain ⟨first, arcs⟩ := path
  simp only [Path.crossings]
  induction arcs with
  | nil => rfl
  | cons a arcs ih =>
    have ih := ih fun b hb => hu b (by simp [hb])
    by_cases hc : a.c = c
    · obtain ⟨htail, hhead⟩ := hr.testBit_usable hw (hu a (by simp)) (by rw [hc]; exact hh)
      rw [List.filter_cons_of_pos (by simp [hc]), List.map_cons, Mask.crossing_cons, ih,
        htail, hhead]
      rfl
    · rw [List.filter_cons_of_neg (by simp [hc]), ih]

/-- At every node but the two ends, a path leaves as often as it enters. -/
theorem sum_places_load (hr : Residual g net) {first last : Nat} {arcs : List Arc}
    (hl : net.Leads first arcs last) (v : Nat) :
    ((g.places v).map fun place => Path.load ⟨first, arcs⟩ place.1 place.2).sum
      = (if first = v then 1 else 0) - (if last = v then 1 else 0) := by
  induction hl with
  | here => simp
  | step hl ha hfree hcap ih =>
    rename_i arcs u a
    obtain ⟨h, hh, hp, hq, -⟩ := mem_arcsFrom.mp ha
    have hms : (g.factors.map (·.members))[a.c]? = some h.members := by
      rw [← hr.members_eq, List.getElem?_map, hh]
      rfl
    -- the last arc leaves the place of its tail and enters that of its head
    have hsplit : ((g.places v).map fun place => Path.load ⟨first, a :: arcs⟩ place.1 place.2).sum
        = ((g.places v).map fun place => if place = (a.c, a.p) then 1 else 0).sum
          - ((g.places v).map fun place => if place = (a.c, a.q) then 1 else 0).sum
          + ((g.places v).map fun place => Path.load ⟨first, arcs⟩ place.1 place.2).sum := by
      rw [Int.sub_eq_add_neg, ← Int.neg_one_mul, ← sum_map_mul, ← sum_map_add, ← sum_map_add]
      refine congrArg List.sum (List.map_congr_left fun place _ => ?_)
      obtain ⟨c, p⟩ := place
      rw [Path.load_cons]
      by_cases hc : c = a.c
      · subst hc
        simp only [Prod.mk.injEq, true_and, eq_comm (a := p), if_true]
        omega
      · simp [hc, Ne.symm hc]
    rw [hsplit, ih, Graph.places, sum_incidence_single hms hp, sum_incidence_single hms hq]
    omega

end Residual

/-! ### The push -/

theorem terminal_push (net : Network) (path : Path) (sink : Nat) (amount : Int) {v : Nat}
    (hv : v < net.numNodes) :
    (net.push path sink amount).terminal v = { net.terminal v with
      sourceFlow := (net.terminal v).sourceFlow + if path.first = v then amount else 0
      sinkFlow := (net.terminal v).sinkFlow + if sink = v then amount else 0 } := by
  rw [numNodes] at hv
  rw [terminal, push, getD_modify, getD_modify, terminal]
  by_cases h1 : path.first = v <;> by_cases h2 : sink = v <;> simp [h1, h2, hv]

theorem channels_push (net : Network) (path : Path) (sink : Nat) (amount : Int) (c : Nat) :
    (net.push path sink amount).channels[c]?
      = net.channels[c]?.map fun h => h.push (path.load c) amount := by
  simp [push, List.getElem?_map, List.getElem?_zipIdx, Option.map_map, Function.comp_def]

@[simp] theorem numNodes_push (net : Network) (path : Path) (sink : Nat) (amount : Int) :
    (net.push path sink amount).numNodes = net.numNodes := by
  simp [numNodes, push]

@[simp] theorem fixed_push (net : Network) (path : Path) (sink : Nat) (amount : Int) (v : Nat) :
    (net.push path sink amount).fixed v = net.fixed v := by
  by_cases hv : v < net.numNodes
  · rw [fixed, terminal_push _ _ _ _ hv, fixed]
  · have h1 : net.terminals[v]? = none := Array.getElem?_eq_none (Nat.not_lt.mp hv)
    have h2 : (net.push path sink amount).terminals[v]? = none :=
      Array.getElem?_eq_none (Nat.not_lt.mp (by rwa [← numNodes, numNodes_push]))
    rw [fixed, fixed, terminal, terminal, Array.getD_eq_getD_getElem?, Array.getD_eq_getD_getElem?,
      h1, h2]

theorem supply_push (net : Network) (path : Path) (sink : Nat) (amount : Int) {v : Nat}
    (hv : v < net.numNodes) : (net.push path sink amount).supply v
      = net.supply v - if path.first = v then amount else 0 := by
  rw [supply, terminal_push _ _ _ _ hv, supply]
  show (net.terminal v).sourceCap - ((net.terminal v).sourceFlow + _)
    = (net.terminal v).sourceCap - (net.terminal v).sourceFlow - _
  omega

/-- No push changes a base. -/
theorem baseOf_push (net : Network) (path : Path) (sink : Nat) (amount : Int) (place : Nat × Nat) :
    baseOf (net.push path sink amount).channels place = baseOf net.channels place := by
  rw [baseOf, channels_push, Option.map_map]
  rfl

/-- A push adds the load of its path to what a place carries. -/
theorem Residual.carriedAt_push {g : Graph} {net : Network} (hr : Residual g net) (path : Path)
    (sink : Nat) (amount : Int) {v : Nat} {place : Nat × Nat} (hplace : place ∈ g.places v) :
    (net.push path sink amount).carriedAt place
      = net.carriedAt place + amount * path.load place.1 place.2 := by
  obtain ⟨f, hf, hp⟩ := mem_incidence_map.mp hplace
  obtain ⟨h, hh, hc⟩ := hr.exists_channel hf
  have hlt : place.2 < h.carried.size := by
    rw [hc.carried_size, Factor.size]
    exact (List.getElem?_eq_some_iff.mp hp).1
  simp only [carriedAt, channels_push, hh, Option.map_some, Option.getD_some]
  exact Channel.carriedAt_push h _ amount hlt

/-- A push within the terminal arcs at both ends keeps the network residual. -/
theorem Residual.push {g : Graph} {net : Network} (hr : Residual g net) (hw : g.WellFormed)
    {path : Path} {sink : Nat} (hl : net.Leads path.first path.arcs sink)
    {amount : Int} (h0 : 0 ≤ amount) (hsupply : amount ≤ net.supply path.first)
    (hdemand : amount ≤ net.demand sink) :
    Residual g (net.push path sink amount) := by
  have hterm : ∀ v < g.numNodes, (net.push path sink amount).terminal v = { net.terminal v with
      sourceFlow := (net.terminal v).sourceFlow + if path.first = v then amount else 0
      sinkFlow := (net.terminal v).sinkFlow + if sink = v then amount else 0 } :=
    fun v hv => terminal_push net path sink amount (by rw [hr.numNodes_eq]; exact hv)
  rw [supply] at hsupply
  rw [demand] at hdemand
  refine
    { numNodes_eq := by rw [numNodes_push, hr.numNodes_eq]
      length_eq := by simp [Network.push, hr.length_eq]
      carries := fun c f h hf hh => ?_
      fixed_eq := fun v hv => by rw [fixed_push, hr.fixed_eq v hv]
      caps := fun v hv => ?_
      source_nonneg := fun v hv => ?_
      source_le := fun v hv => ?_
      sink_nonneg := fun v hv => ?_
      sink_le := fun v hv => ?_
      conserved := fun v hv => ?_ }
  · -- carries: the load is balanced over the free members of every channel
    rw [channels_push, Option.map_eq_some_iff] at hh
    obtain ⟨h, hh, rfl⟩ := hh
    exact (hr.carries c f h hf hh).push (fun p hp => hr.load_fixed hw hl.usable hh hp)
      (hr.sum_load_free hw hl.usable hf hh) amount
  · -- caps: no base changes
    rw [hterm v hv, List.map_congr_left fun place _ => baseOf_push net path sink amount place]
    exact hr.caps v hv
  · -- source_nonneg
    have := hr.source_nonneg v hv
    rw [hterm v hv]
    show 0 ≤ _ + _
    split <;> omega
  · -- source_le: the first node has the supply
    have := hr.source_le v hv
    rw [hterm v hv]
    show _ + _ ≤ (net.terminal v).sourceCap
    split
    · rename_i heq; subst heq; omega
    · omega
  · -- sink_nonneg
    have := hr.sink_nonneg v hv
    rw [hterm v hv]
    show 0 ≤ _ + _
    split <;> omega
  · -- sink_le: the last node has the demand
    have := hr.sink_le v hv
    rw [hterm v hv]
    show _ + _ ≤ (net.terminal v).sinkCap
    split
    · rename_i heq; subst heq; omega
    · omega
  · -- conserved: the path brings to the places of `v` what it takes from the source there
    have hcons := hr.conserved v hv
    rw [hterm v hv, List.map_congr_left fun _ => hr.carriedAt_push path sink amount, sum_map_add,
      sum_map_mul, hr.sum_places_load hl v]
    show _ + _ - (_ + _) = _
    split <;> split <;> omega

end Network

end FusionMove.Cut
