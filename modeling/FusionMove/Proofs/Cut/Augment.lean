import FusionMove.Proofs.Cut.Search
import Mathlib.Algebra.Order.BigOperators.Group.List

namespace FusionMove.Cut

/-!
# Augmenting paths carry something

Over submodular tables every path that the search finds has room for one unit: its arcs have
capacity, and no arc leads from the tail of an earlier arc to the head of a later one, so
`Mask.Submodular.crossing_le` allows them together.  Every push therefore takes from the supply,
and the run ends with a search that finds nothing.

* `Sound.traced` — what a path of the search looks like;
* `Network.Feasible` — a residual network without negative slack;
* `Feasible.one_le_room` — a path of the search has room;
* `Run.saturate_keeps` — what every push keeps holds at the end of the run, and the run ends because
  there is no path or one that carries nothing;
* `Network.feasible_saturated` — over submodular tables there is no path in the end.
-/

open scoped CoreArithmetic

/-- Every table is submodular on the subsets of its free members. -/
def Graph.Submodular (g : Graph) : Prop :=
  ∀ f ∈ g.factors, Mask.Submodular (f.maskOf fun v => !g.isFixed v) f.entry

instance (g : Graph) : Decidable g.Submodular :=
  inferInstanceAs (Decidable (∀ f ∈ g.factors, _))

namespace Network

/-! ### The path of a search -/

/-- A path from a start of the search to `v`, whose arcs can be used together. -/
structure Traced (net : Network) (path : Path) (v : Nat) : Prop where
  leads : net.Leads path.first path.arcs v
  isStart_first : net.isStart path.first = true
  separated : path.arcs.Pairwise fun later earlier => later.c = earlier.c →
    earlier.p ≠ later.q ∧ net.capacity ⟨earlier.c, earlier.p, later.q, later.target⟩ ≤ 0

/-- A set that holds the start of a path, and with a tail the head of every arc, holds its end. -/
theorem Leads.mem_last {net : Network} {S : Nat → Bool} {first last : Nat} {arcs : List Arc}
    (hl : net.Leads first arcs last) (hfirst : S first = true)
    (hclosed : ∀ u a, S u = true → net.Arrow u a → S a.target = true) : S last = true := by
  induction hl with
  | here => exact hfirst
  | step hl ha hfree hcap ih => exact hclosed _ _ ih ⟨ha, hfree, hcap⟩

end Network

namespace Frontier.Sound

variable {net : Network} {level : Nat → Nat} {done : List Nat} {w : Frontier}

/-- An arc out of a node two levels below the head of a later arc has no shortcut to it: the search
    would have come to that head one level earlier. -/
theorem separated (hs : Sound net level done w) {x u : Nat} {earlier later : Arc} (hx : x ∈ done)
    (hearlier : net.Arrow x earlier) (hlater : net.Arrow u later)
    (hlevel : level x + 2 ≤ level later.target) (hc : later.c = earlier.c) :
    earlier.p ≠ later.q ∧ net.capacity ⟨earlier.c, earlier.p, later.q, later.target⟩ ≤ 0 := by
  obtain ⟨h, hh, hpx, -, -⟩ := Network.mem_arcsFrom.mp hearlier.mem
  obtain ⟨h', hh', -, hqv, -⟩ := Network.mem_arcsFrom.mp hlater.mem
  rw [hc, hh, Option.some.injEq] at hh'
  subst hh'
  have hne : earlier.p ≠ later.q := by
    intro heq
    have hxv : x = later.target := Option.some.inj (hpx.symm.trans (by rw [heq]; exact hqv))
    rw [← hxv] at hlevel
    omega
  refine ⟨hne, ?_⟩
  by_contra hpos
  have hshort : net.Arrow x ⟨earlier.c, earlier.p, later.q, later.target⟩ :=
    ⟨Network.mem_arcsFrom.mpr ⟨h, hh, hpx, hqv, hne⟩, hlater.head_free, by simpa using hpos⟩
  have hnear := hs.near x hx _ hshort
  exact absurd (Nat.le_trans hlevel hnear) (by omega)

/-- The parents of a sound search lead back from every node that was reached.  The level of a node
    bounds the way back. -/
theorem traced (hs : Sound net level done w) {s : Search} (hp : s.parents = w.parents) :
    ∀ fuel v, v ∈ done ++ w.queue → level v ≤ fuel →
      net.Traced (s.trace fuel v) v ∧
        ∀ a ∈ (s.trace fuel v).arcs, ∃ u ∈ done, net.Arrow u a ∧ level u < level v := by
  have hparent : ∀ v, s.parent v = w.parent v := by
    intro v
    rw [Search.parent, Frontier.parent, hp]
  have hsource : ∀ v, w.parent v = .source →
      net.Traced ⟨v, []⟩ v ∧
        ∀ a ∈ (⟨v, []⟩ : Path).arcs, ∃ u ∈ done, net.Arrow u a ∧ level u < level v := by
    intro v hv
    have hstart := (hs.source_iff v).mp hv
    exact ⟨⟨.here (Network.isStart_iff.mp hstart).1, hstart, List.Pairwise.nil⟩,
      fun a ha => absurd ha List.not_mem_nil⟩
  -- on the fuel: a parent lies one level lower, so the way back fits into it
  intro fuel
  induction fuel with
  | zero =>
    intro v hv hlevel
    cases hpar : w.parent v with
    | unvisited => exact absurd hpar ((hs.reached_iff v).mpr hv)
    | source => exact hsource v hpar
    | exchange u c p q =>
      obtain ⟨-, -, hstep⟩ := hs.exchange v u c p q hpar
      omega
  | succ fuel ih =>
    intro v hv hlevel
    cases hpar : w.parent v with
    | unvisited => exact absurd hpar ((hs.reached_iff v).mpr hv)
    | source =>
      rw [Search.trace, hparent, hpar]
      exact hsource v hpar
    | exchange u c p q =>
      obtain ⟨hu, harrow, hstep⟩ := hs.exchange v u c p q hpar
      obtain ⟨ht, hbelow⟩ := ih u (List.mem_append_left _ hu) (by omega)
      rw [Search.trace, hparent, hpar]
      refine ⟨⟨.step ht.leads harrow.mem harrow.head_free harrow.capacity_pos, ht.isStart_first,
        List.Pairwise.cons (fun b hb hc => ?_) ht.separated⟩, fun a ha => ?_⟩
      · obtain ⟨x, hx, hxb, hlt⟩ := hbelow b hb
        have hlevel : level x + 2 ≤ level v := by omega
        exact hs.separated hx hxb harrow hlevel hc
      · rcases List.mem_cons.mp ha with rfl | ha
        · exact ⟨u, hu, harrow, by omega⟩
        · obtain ⟨x, hx, hxa, hlt⟩ := hbelow a ha
          exact ⟨x, hx, hxa, by omega⟩

/-- The path that a sound search reports to a node that was reached. -/
theorem traced_pathTo (hs : Sound net level done w) {s : Search} (hp : s.parents = w.parents)
    {v : Nat} (hv : v ∈ done ++ w.queue) : net.Traced (s.pathTo v) v := by
  have hlevel := hs.level_le v hv
  have hlen := hs.length_le
  rw [List.length_append] at hlen
  exact (hs.traced hp s.parents.size v hv (by rw [hp, hs.size_eq]; omega)).1

end Frontier.Sound

namespace Network

/-- The path of a search that ends at a node leads there, and the node can send to the sink. -/
theorem traced_search {net : Network} {sink : Nat} (hfound : net.search.found = some sink) :
    net.Traced (net.search.pathTo sink) sink ∧ 0 < net.demand sink := by
  obtain ⟨level, done, w, hs, hp, hend⟩ := net.search_sound
  rw [hfound] at hend
  obtain ⟨⟨rest, hq⟩, hdemand⟩ := hend
  exact ⟨hs.traced_pathTo hp (by rw [hq]; simp), hdemand⟩

/-! ### Room -/

/-- A path carries what its ends and all its channels allow. -/
theorem le_room_iff (net : Network) (path : Path) (sink : Nat) (x : Int) :
    x ≤ net.room path sink ↔ (x ≤ net.demand sink ∧ x ≤ net.supply path.first) ∧
      ∀ (c : Nat) (h : Channel), net.channels[c]? = some h → ∀ t ∈ h.freeSets,
        0 < Mask.sum h.size (path.load c) t →
          x * Mask.sum h.size (path.load c) t ≤ h.slackAt t := by
  have hfold : ∀ (l : List (Channel × Nat)) (bound : Int),
      x ≤ l.foldl (fun b h => h.1.room (path.load h.2) b) bound ↔ x ≤ bound ∧
        ∀ h ∈ l, ∀ t ∈ h.1.freeSets, 0 < Mask.sum h.1.size (path.load h.2) t →
          x * Mask.sum h.1.size (path.load h.2) t ≤ h.1.slackAt t := by
    intro l
    induction l with
    | nil => simp
    | cons h l ih =>
      intro bound
      rw [List.foldl_cons, ih, Channel.le_room_iff, List.forall_mem_cons, and_assoc]
  rw [room, hfold, Int.le_min]
  refine and_congr_right fun _ => ⟨fun hall c h hh => ?_, fun hall h hh => ?_⟩
  · exact hall (h, c) (List.mem_zipIdx_iff_getElem?.mpr hh)
  · exact hall h.2 h.1 (List.mem_zipIdx_iff_getElem?.mp hh)

/-- A residual network in which no free set has negative slack. -/
structure Feasible (g : Graph) (net : Network) : Prop extends Residual g net where
  nonneg : ∀ (c : Nat) (h : Channel), net.channels[c]? = some h → Mask.Nonneg h.free h.slackAt

/-- Before any flow the greedy bases leave no slack negative. -/
theorem feasible_ofGraph {g : Graph} (hw : g.WellFormed) (hg : g.Submodular) :
    Feasible g (ofGraph g) where
  toResidual := residual_ofGraph g
  nonneg c h hh := by
    simp only [ofGraph, List.getElem?_map, Option.map_eq_some_iff] at hh
    obtain ⟨f, hf, rfl⟩ := hh
    have hmem := List.mem_of_getElem? hf
    exact Channel.nonneg_slackAt_ofFactor (hw f hmem).2 (hg f hmem)

namespace Feasible

variable {g : Graph} {net : Network} {path : Path} {sink : Nat}

/-- The slack of a channel is submodular, if the tables are. -/
theorem submodular (hf : Feasible g net) (hw : g.WellFormed) (hg : g.Submodular) {c : Nat}
    {h : Channel} (hh : net.channels[c]? = some h) : Mask.Submodular h.free h.slackAt := by
  obtain ⟨f, hfac, hc⟩ := hf.exists_factor hh
  have hmem := List.mem_of_getElem? hfac
  refine hc.submodular_slackAt (hw f hmem).2 ?_
  rw [hc.free_eq]
  exact hg f hmem

/-- A path of the search has room for one unit. -/
theorem one_le_room (hf : Feasible g net) (hw : g.WellFormed) (hg : g.Submodular)
    (ht : net.Traced path sink) (hdemand : 0 < net.demand sink) : 1 ≤ net.room path sink := by
  have hsupply := (isStart_iff.mp ht.isStart_first).2
  refine (net.le_room_iff path sink 1).mpr ⟨⟨hdemand, hsupply⟩, fun c h hh t hfree _ => ?_⟩
  obtain ⟨f, hfac, hc⟩ := hf.exists_factor hh
  -- what the path puts on the channel is the number of its arcs that leave a set, less the number
  -- that enter it
  rw [hc.size_eq, hf.sum_load hw ht.leads.usable hfac, Int.one_mul]
  refine (hf.submodular hw hg hh).crossing_le (hf.nonneg c h hh) (fun e he x hx hxp hxq => ?_) ?_
    (hc.mem_freeSets.mp hfree)
  · obtain ⟨a, ha, rfl⟩ := List.mem_map.mp he
    obtain ⟨hmem, hac⟩ := List.mem_filter.mp ha
    obtain rfl := of_decide_eq_true hac
    have hpos := (ht.leads.usable a hmem).capacity_pos
    rw [capacity_eq a hh] at hpos
    exact Int.lt_of_lt_of_le hpos (Channel.exchangeCapacity_le hc hx hxp hxq)
  · refine List.pairwise_map.mpr (List.pairwise_filter.mpr (ht.separated.imp_of_mem ?_))
    intro later earlier hlater hearlier hsep hlc hec
    obtain rfl := of_decide_eq_true hec
    obtain ⟨hne, hcap⟩ := hsep (of_decide_eq_true hlc)
    rw [capacity_eq ⟨earlier.c, earlier.p, later.q, later.target⟩ hh] at hcap
    have htail := (hf.testBit_usable hw (ht.leads.usable earlier hearlier) hh).1
    exact Channel.blocked_of_capacity_le hc (hf.nonneg _ h hh) htail hne hcap

/-- A push within the room keeps the network feasible. -/
theorem push (hf : Feasible g net) (hw : g.WellFormed)
    (hl : net.Leads path.first path.arcs sink) {amount : Int} (h0 : 0 ≤ amount)
    (hroom : amount ≤ net.room path sink) : Feasible g (net.push path sink amount) := by
  obtain ⟨⟨hdemand, hsupply⟩, hslack⟩ := (net.le_room_iff path sink amount).mp hroom
  refine ⟨hf.toResidual.push hw hl h0 hsupply hdemand, fun c h' hh' t ht => ?_⟩
  rw [channels_push, Option.map_eq_some_iff] at hh'
  obtain ⟨h, hh, rfl⟩ := hh'
  obtain ⟨f, hfac, hc⟩ := hf.exists_factor hh
  have hsize := (hw f (List.mem_of_getElem? hfac)).2
  have hold := hf.nonneg c h hh t ht
  rw [Channel.slackAt_push _ _ _ (by rw [hc.slack_size]; exact hc.within_lt hsize ht)]
  -- a set that the path does not leave on balance gains slack
  by_cases hm : 0 < Mask.sum h.size (path.load c) t
  · have := hslack c h hh t (hc.mem_freeSets.mpr ht) hm
    omega
  · have : amount * Mask.sum h.size (path.load c) t ≤ 0 :=
      Int.mul_nonpos_of_nonneg_of_nonpos h0 (Int.not_lt.mp hm)
    omega

end Feasible

/-! ### The supply runs out -/

/-- A push takes from the supply. -/
theorem totalSupply_push {net : Network} {path : Path} (sink : Nat) {amount : Int}
    (hstart : net.isStart path.first = true) (hpos : 0 < amount)
    (hle : amount ≤ net.supply path.first) :
    (net.push path sink amount).totalSupply < net.totalSupply := by
  obtain ⟨hfree, hsupply⟩ := isStart_iff.mp hstart
  unfold totalSupply
  rw [numNodes_push]
  refine List.sum_lt_sum _ _ (fun v hv => ?_)
    ⟨path.first, List.mem_range.mpr (lt_of_free hfree), ?_⟩
  · rw [fixed_push, supply_push _ _ _ _ (List.mem_range.mp hv)]
    split
    · exact Nat.le_refl _
    · split <;> omega
  · rw [fixed_push, supply_push _ _ _ _ (lt_of_free hfree), hfree]
    simp only [Bool.false_eq_true, if_false, if_true]
    omega

/-- Without supply a search finds nothing. -/
theorem found_eq_none {net : Network} (h : net.totalSupply = 0) : net.search.found = none := by
  cases hfound : net.search.found with
  | none => rfl
  | some sink =>
    obtain ⟨hfree, hsupply⟩ := isStart_iff.mp (traced_search hfound).1.isStart_first
    have hmem := List.mem_range.mpr (lt_of_free hfree)
    have hterm := List.single_le_sum (l := (List.range net.numNodes).map fun v =>
      if net.fixed v then 0 else (net.supply v).toNat) (by simp) _ (List.mem_map.mpr ⟨_, hmem, rfl⟩)
    rw [hfree] at hterm
    simp only [Bool.false_eq_true, if_false] at hterm
    rw [← totalSupply] at hterm
    omega

end Network

/-- A run keeps what every push along a path of the search keeps, if it has fuel for its supply.  It
    ends with a search that finds no path, or with a warning about one that carries nothing. -/
theorem Run.saturate_keeps {P : Network → Prop}
    (hpush : ∀ net sink, P net → net.search.found = some sink →
      1 ≤ net.room (net.search.pathTo sink) sink →
      P (net.push (net.search.pathTo sink) sink (net.room (net.search.pathTo sink) sink))) :
    ∀ (fuel : Nat) (r : Run), P r.network → r.network.totalSupply ≤ fuel →
      P (r.saturate fuel).network ∧ ((r.saturate fuel).network.search.found = none ∨
        ∃ sink, (r.saturate fuel).network.search.found = some sink ∧
          (r.saturate fuel).network.room ((r.saturate fuel).network.search.pathTo sink) sink ≤ 0 ∧
          Event.noCapacity sink (r.saturate fuel).flow ∈ (r.saturate fuel).events) := by
  -- every push takes from the supply
  intro fuel
  induction fuel with
  | zero => exact fun r hr hfuel => ⟨hr, .inl (Network.found_eq_none (Nat.le_zero.mp hfuel))⟩
  | succ fuel ih =>
    intro r hr hfuel
    rw [Run.saturate]
    cases hfound : r.network.search.found with
    | none => exact ⟨hr, .inl hfound⟩
    | some sink =>
      obtain ⟨ht, -⟩ := Network.traced_search hfound
      dsimp only
      split
      · rename_i hroom
        exact ⟨hr, .inr ⟨sink, hfound, hroom, List.mem_append_right _ List.mem_cons_self⟩⟩
      · rename_i hroom
        have hsupply : r.network.room (r.network.search.pathTo sink) sink
            ≤ r.network.supply (r.network.search.pathTo sink).first :=
          ((r.network.le_room_iff _ sink _).mp (Int.le_refl _)).1.2
        refine ih _ (hpush _ sink hr hfound (by omega)) ?_
        have := Network.totalSupply_push sink ht.isStart_first (by omega) hsupply
        exact Nat.le_of_lt_succ (Nat.lt_of_lt_of_le this hfuel)

/-- A run warns of nothing but a path that carries nothing, and ends there. -/
theorem Run.saturate_warns {e : Event} (hwarn : e.level = .warn) :
    ∀ (fuel : Nat) (r : Run), e ∈ (r.saturate fuel).events → e ∈ r.events ∨
      ∃ sink, (r.saturate fuel).network.search.found = some sink ∧
        (r.saturate fuel).network.room ((r.saturate fuel).network.search.pathTo sink) sink ≤ 0 := by
  intro fuel
  induction fuel with
  | zero => exact fun r he => .inl he
  | succ fuel ih =>
    intro r he
    rw [Run.saturate] at he ⊢
    cases hfound : r.network.search.found with
    | none =>
      rw [hfound] at he
      exact .inl he
    | some sink =>
      rw [hfound] at he
      dsimp only at he ⊢
      split at he
      · rename_i hroom
        rw [if_pos hroom]
        exact .inr ⟨sink, hfound, hroom⟩
      · rename_i hroom
        rw [if_neg hroom]
        refine (ih _ he).imp_left fun hpush => ?_
        -- a push is no warning
        rcases List.mem_append.mp hpush with hold | hnew
        · exact hold
        · obtain rfl := List.mem_singleton.mp hnew
          exact absurd hwarn (by simp [Event.level])

/-- Where every path of a search has room for one unit, a run finds all paths, and gives no
    warning. -/
theorem Network.saturated_of_room {g : Graph} {P : Network → Prop} (h0 : P (Network.ofGraph g))
    (hpush : ∀ net sink, P net → net.search.found = some sink →
      1 ≤ net.room (net.search.pathTo sink) sink →
      P (net.push (net.search.pathTo sink) sink (net.room (net.search.pathTo sink) sink)))
    (hroom : ∀ net sink, P net → net.search.found = some sink →
      1 ≤ net.room (net.search.pathTo sink) sink) :
    P (Network.ofGraph g).saturated.network ∧
      (Network.ofGraph g).saturated.network.search.found = none ∧
      ∀ e ∈ (Network.ofGraph g).saturated.events, e.level ≠ .warn := by
  obtain ⟨hP, hend⟩ := Run.saturate_keeps hpush _ (Run.start (Network.ofGraph g)) h0 (Nat.le_refl _)
  refine ⟨hP, hend.resolve_right ?_, fun e he hwarn => ?_⟩
  · rintro ⟨sink, hfound, hle, -⟩
    exact absurd (hroom _ sink hP hfound) (Int.not_le.mpr (Int.lt_of_le_of_lt hle Int.one_pos))
  · rcases Run.saturate_warns hwarn _ _ he with hold | ⟨sink, hfound, hle⟩
    · exact absurd hold List.not_mem_nil
    · exact absurd (hroom _ sink hP hfound)
        (Int.not_le.mpr (Int.lt_of_le_of_lt hle Int.one_pos))

/-- A push of all that a path of the search carries keeps a network residual. -/
theorem Network.Residual.push_room {g : Graph} {net : Network} (hr : Residual g net)
    (hw : g.WellFormed) {sink : Nat} (hfound : net.search.found = some sink)
    (hroom : 1 ≤ net.room (net.search.pathTo sink) sink) :
    Residual g (net.push (net.search.pathTo sink) sink
      (net.room (net.search.pathTo sink) sink)) := by
  obtain ⟨⟨hdemand, hsupply⟩, -⟩ := (net.le_room_iff _ sink _).mp (Int.le_refl _)
  exact hr.push hw (Network.traced_search hfound).1.leads (by omega) hsupply hdemand

/-- The flow of a graph, whatever its tables: residual, and no search finds a path any more, or the
    run warned of one that carries nothing. -/
theorem Network.residual_saturated {g : Graph} (hw : g.WellFormed) :
    Network.Residual g (Network.ofGraph g).saturated.network ∧
      ((Network.ofGraph g).saturated.network.search.found = none ∨
        ∃ sink flow, Event.noCapacity sink flow ∈ (Network.ofGraph g).saturated.events) := by
  have hkeeps := Run.saturate_keeps (P := Network.Residual g)
    (fun net sink hr hfound hroom => hr.push_room hw hfound hroom)
    _ (Run.start (Network.ofGraph g)) (Network.residual_ofGraph g) (Nat.le_refl _)
  exact ⟨hkeeps.1, hkeeps.2.imp_right fun ⟨sink, _, _, hwarn⟩ => ⟨sink, _, hwarn⟩⟩

/-- The flow of a graph with submodular tables: feasible, and no search finds a path any more. -/
theorem Network.feasible_saturated {g : Graph} (hw : g.WellFormed) (hg : g.Submodular) :
    Network.Feasible g (Network.ofGraph g).saturated.network ∧
      (Network.ofGraph g).saturated.network.search.found = none ∧
      ∀ e ∈ (Network.ofGraph g).saturated.events, e.level ≠ .warn := by
  refine Network.saturated_of_room (Network.feasible_ofGraph hw hg)
    (fun net sink hf hfound hroom => hf.push hw (Network.traced_search hfound).1.leads (by omega)
      (Int.le_refl _)) fun net sink hf hfound => ?_
  -- a path of the search has room, so no run over submodular tables gives up
  obtain ⟨ht, hdemand⟩ := Network.traced_search hfound
  exact hf.one_le_room hw hg ht hdemand

end FusionMove.Cut
