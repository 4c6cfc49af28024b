import FusionMove.Cut.Checked
import FusionMove.Proofs.Action
import FusionMove.Proofs.Cut.MinimumCut

namespace FusionMove.Cut

/-!
# The flow solver misses no entry

On a well-formed graph every access of the flow solver finds its entry, whatever the tables hold:
they need not be submodular, and slacks may be negative.  What this needs of a network are the
sizes of its tables, which no push changes, and that its members are nodes.

* `Network.Sized` — these sizes; `Network.ofGraph?_eq_ok` — the network of a graph has them;
* `Network.search?_eq_ok`, `Frontier.Sound.trace?_eq_ok`, `Network.room?_eq_ok`,
  `Network.push?_eq_ok` — the parts of an augmentation;
* `Run.saturate?_eq_ok`, `Run.answer?_eq_ok` — the whole of it;
* `checkedFlow_solve` — the checked oracle answers what the oracle answers.
-/

open scoped CoreArithmetic

/-! ### Sizes -/

/-- Members are nodes, and the tables of a channel have an entry for every mask or member. -/
structure Network.Sized (net : Network) : Prop where
  member_lt : ∀ h ∈ net.channels, ∀ v ∈ h.members, v < net.numNodes
  slack_size : ∀ h ∈ net.channels, h.slack.size = 2 ^ h.size
  base_size : ∀ h ∈ net.channels, h.base.size = h.size
  carried_size : ∀ h ∈ net.channels, h.carried.size = h.size

theorem Network.sized_ofGraph {g : Graph} (hw : g.WellFormed) : (ofGraph g).Sized := by
  have hchannel : ∀ h ∈ (ofGraph g).channels, ∃ f ∈ g.factors, h = Channel.ofFactor g.isFixed f :=
    fun h hh => by
      obtain ⟨f, hf, rfl⟩ := List.mem_map.mp hh
      exact ⟨f, hf, rfl⟩
  refine ⟨fun h hh v hv => ?_, fun h hh => ?_, fun h hh => ?_, fun h hh => ?_⟩ <;>
    obtain ⟨f, hf, rfl⟩ := hchannel h hh
  · have hnodes : (ofGraph g).numNodes = g.numNodes := Array.size_ofFn
    rw [hnodes]
    exact (hw f hf).1 v hv
  · exact Array.size_ofFn.trans (hw f hf).2
  · exact Array.size_ofFn
  · exact Array.size_replicate

/-- A push changes no size. -/
theorem Network.Sized.push {net : Network} (hn : net.Sized) (path : Path) (sink : Nat)
    (amount : Int) : (net.push path sink amount).Sized := by
  have hnodes : (net.push path sink amount).numNodes = net.numNodes := by
    simp [Network.push, numNodes]
  have hchannel : ∀ h ∈ (net.push path sink amount).channels, ∃ h' ∈ net.channels,
      ∃ load, h = h'.push load amount := fun h hh => by
    obtain ⟨p, hp, rfl⟩ := List.mem_map.mp hh
    exact ⟨p.1, List.fst_mem_of_mem_zipIdx hp, _, rfl⟩
  refine ⟨fun h hh v hv => ?_, fun h hh => ?_, fun h hh => ?_, fun h hh => ?_⟩ <;>
    obtain ⟨h', hh', load, rfl⟩ := hchannel h hh
  · rw [hnodes]
    exact hn.member_lt h' hh' v hv
  · exact Array.size_ofFn.trans (hn.slack_size h' hh')
  · exact hn.base_size h' hh'
  · exact Array.size_ofFn.trans (hn.carried_size h' hh')

/-! ### The network of a graph -/

/-- A factor of a well-formed graph becomes its channel. -/
theorem Channel.ofFactor?_eq_ok {g : Graph} {f : Factor} (hf : f.WellFormed g.numNodes) :
    Channel.ofFactor? (Array.ofFn fun v : Fin g.numNodes => g.isFixed v) f
      = .ok (Channel.ofFactor g.isFixed f) := by
  obtain ⟨hmembers, htable⟩ := hf
  have hfree : f.members.mapM (fun v => do
      return !(← present (Array.ofFn fun v : Fin g.numNodes => g.isFixed v)[v]?))
      = .ok (f.members.map fun v => !g.isFixed v) := by
    refine mapM_eq_ok fun v hv => ?_
    rw [present_eq_ok (a := g.isFixed v) (by simp [hmembers v hv])]
    rfl
  have hentry : ∀ t < 2 ^ f.size, present f.table[t]? = .ok (f.entry t) := fun t ht =>
    present_array (by omega) 0
  have hbelow : ∀ (mask : Nat) {p : Nat}, p ≤ f.size → mask % 2 ^ p < 2 ^ f.size := fun mask p hp =>
    Nat.lt_of_lt_of_le (Nat.mod_lt _ (Nat.two_pow_pos p)) (Nat.pow_le_pow_right (by omega) hp)
  rw [Channel.ofFactor?, hfree, ok_bind, Channel.ofFactor]
  generalize Mask.ofBits (f.members.map fun v => !g.isFixed v) = mask
  dsimp only
  rw [arrayOf?_eq_ok (g := greedyBase f.entry mask) fun p hp => by
    rw [hentry _ (hbelow mask (by omega)), ok_bind, hentry _ (hbelow mask (by omega))]
    rfl]
  rw [ok_bind, hentry 0 (Nat.two_pow_pos _), ok_bind, arrayOf?_eq_ok
    (g := fun t => f.entry t - f.entry 0 - Mask.sum f.size (greedyBase f.entry mask) t) fun t ht => by
      have hsum : Mask.sum f.size
          ((Array.ofFn fun p : Fin f.size => greedyBase f.entry mask p).getD · 0) t
          = Mask.sum f.size (greedyBase f.entry mask) t :=
        Mask.sum_congr fun p hp _ => by simp [hp]
      rw [hentry t (by omega), ok_bind, hsum]
      rfl]
  rfl

/-- Numbers that are added one by one. -/
private theorem foldl_add_snd (ps : List (Nat × Int)) (a : Int) :
    ps.foldl (fun a p => a + p.2) a = a + (ps.map (·.2)).sum := by
  induction ps generalizing a with
  | nil => simp
  | cons p ps ih =>
    rw [List.foldl_cons, ih, List.map_cons, List.sum_cons, Int.add_assoc]

namespace Network

/-- Every member of a channel has a base. -/
theorem bases?_eq_ok {channels : List Channel} (hbase : ∀ h ∈ channels, h.base.size = h.size) :
    bases? channels = .ok ((memberPlaces (channels.map (·.members))).map fun p =>
      (p.1, baseOf channels p.2)) := by
  refine mapM_eq_ok fun p hp => ?_
  obtain ⟨v, c, i⟩ := p
  obtain ⟨ms, hms, hv⟩ := mem_memberPlaces.mp hp
  rw [List.getElem?_map, Option.map_eq_some_iff] at hms
  obtain ⟨h, hh, rfl⟩ := hms
  have hi : i < h.base.size := by
    rw [hbase h (List.mem_of_getElem? hh)]
    exact (List.getElem?_eq_some_iff.mp hv).1
  rw [present_eq_ok hh, ok_bind, present_array hi 0, baseOf, hh]
  rfl

/-- Every member of a channel is a node that has a cost. -/
theorem costs?_eq_ok {g : Graph} {channels : List Channel}
    (hbase : ∀ h ∈ channels, h.base.size = h.size)
    (hmember : ∀ h ∈ channels, ∀ v ∈ h.members, v < g.numNodes) : costs? g channels
      = .ok (Array.ofFn fun v : Fin (g.nodes.map (·.cost1)).size =>
          g.cost1 v + ((incidence (channels.map (·.members)) v).map (baseOf channels)).sum) := by
  rw [costs?, bases?_eq_ok hbase, ok_bind, modifyAll?_eq_ok fun q hq => ?_]
  · congr 2
    funext v
    have hv : v.val < g.nodes.size := by simpa using v.isLt
    rw [foldl_add_snd, List.filter_map, List.map_map, ← map_filter_memberPlaces, List.map_map]
    simp [Graph.cost1, hv, Function.comp_def]
  · obtain ⟨p, hp, rfl⟩ := List.mem_map.mp hq
    obtain ⟨v, c, i⟩ := p
    obtain ⟨ms, hms, hv⟩ := mem_memberPlaces.mp hp
    obtain ⟨h, hh, rfl⟩ := List.mem_map.mp (List.mem_of_getElem? hms)
    rw [Array.size_map]
    exact hmember h hh v (List.mem_of_getElem? hv)

/-- A well-formed graph becomes its network. -/
theorem ofGraph?_eq_ok {g : Graph} (hw : g.WellFormed) : ofGraph? g = .ok (ofGraph g) := by
  have hn := sized_ofGraph hw
  have hnodes : (ofGraph g).numNodes = g.numNodes := Array.size_ofFn
  have hcosts := costs?_eq_ok hn.base_size fun h hh v hv => hnodes ▸ hn.member_lt h hh v hv
  have hmembers : (ofGraph g).channels.map (·.members) = g.factors.map (·.members) :=
    (List.map_map).trans rfl
  rw [hmembers] at hcosts
  rw [ofGraph?, mapM_eq_ok fun f hf => Channel.ofFactor?_eq_ok (hw f hf), ok_bind]
  show (costs? g (ofGraph g).channels >>= _) = _
  rw [hcosts, ok_bind, arrayOf?_eq_ok (g := fun v => Terminal.ofCosts (g.isFixed v) (g.cost0 v)
    (g.cost1 v + ((incidence (g.factors.map (·.members)) v).map
      (baseOf (ofGraph g).channels)).sum)) fun v hv => ?_]
  · rfl
  · have hsize : v < g.nodes.size := hv
    rw [present_eq_ok (a := g.isFixed v) (by simp [hv]), ok_bind, present_array hv Node.blank,
      ok_bind, present_array (by simpa using hsize) 0, ok_bind]
    simp [hsize, Graph.cost0]
    rfl

/-! ### Searching -/

variable {net : Network}

theorem fixed?_eq_ok {v : Nat} (hv : v < net.numNodes) : net.fixed? v = .ok (net.fixed v) := by
  rw [fixed?, present_array hv Terminal.closed]
  rfl

theorem demand?_eq_ok {v : Nat} (hv : v < net.numNodes) : net.demand? v = .ok (net.demand v) := by
  rw [demand?, present_array hv Terminal.closed]
  rfl

theorem supply?_eq_ok {v : Nat} (hv : v < net.numNodes) : net.supply? v = .ok (net.supply v) := by
  rw [supply?, present_array hv Terminal.closed]
  rfl

/-- Every free set has a slack. -/
theorem Sized.slackAt_eq (hn : net.Sized) {h : Channel} (hh : h ∈ net.channels) {t : Nat}
    (ht : t ∈ h.freeSets) : present h.slack[t]? = .ok (h.slackAt t) := by
  refine present_array ?_ 0
  rw [hn.slack_size h hh]
  exact (Mask.mem_subsets.mp ht).1

/-- The channel of an arc is there. -/
theorem exists_channel_of_mem_arcsFrom {u : Nat} {a : Arc} (ha : a ∈ net.arcsFrom u) :
    ∃ h, net.channels[a.c]? = some h ∧ a.p < h.size ∧ a.q < h.size ∧ a.target ∈ h.members := by
  obtain ⟨h, hh, hp, hq, -⟩ := mem_arcsFrom.mp ha
  exact ⟨h, hh, (List.getElem?_eq_some_iff.mp hp).1, (List.getElem?_eq_some_iff.mp hq).1,
    List.mem_of_getElem? hq⟩

theorem Sized.capacity?_eq_ok (hn : net.Sized) {u : Nat} {a : Arc} (ha : a ∈ net.arcsFrom u) :
    net.capacity? a = .ok (net.capacity a) := by
  obtain ⟨h, hh, -⟩ := exists_channel_of_mem_arcsFrom ha
  rw [capacity?, present_eq_ok hh, ok_bind, Channel.exchangeCapacity?,
    mapM_eq_ok fun t ht => hn.slackAt_eq (List.mem_of_getElem? hh) (List.mem_filter.mp ht).1,
    capacity_eq a hh]
  rfl

/-- Where every node occurs in the channels. -/
def adjacency (net : Network) : Array (List (Nat × Nat)) :=
  Array.ofFn fun v : Fin net.numNodes => incidence (net.channels.map (·.members)) v

theorem Sized.adjacency_eq (hn : net.Sized) :
    placeTable? (net.channels.map (·.members)) net.numNodes = .ok net.adjacency := by
  refine placeTable?_eq_ok fun ms hms v hv => ?_
  obtain ⟨h, hh, rfl⟩ := List.mem_map.mp hms
  exact hn.member_lt h hh v hv

theorem arcsFrom?_eq_ok {u : Nat} (hu : u < net.numNodes) :
    net.arcsFrom? net.adjacency u = .ok (net.arcsFrom u) := by
  have hplaces : present net.adjacency[u]? = .ok (incidence (net.channels.map (·.members)) u) :=
    present_eq_ok (by simp [adjacency, hu])
  rw [arcsFrom?, hplaces, ok_bind, mapM_eq_ok fun place hplace => ?_]
  · rfl
  · obtain ⟨c, i⟩ := place
    obtain ⟨h, hh, -⟩ := mem_incidence_map.mp hplace
    rw [present_eq_ok hh, ok_bind]
    show _ = Except.ok ((((net.channels[c]?).map (·.members)).getD []).zipIdx.filterMap fun m =>
      if m.2 = i then none else some (⟨c, i, m.2, m.1⟩ : Arc))
    rw [hh]
    rfl

/-- A parent for every node, and nodes in the queue. -/
structure Within (net : Network) (w : Frontier) : Prop where
  size_eq : w.parents.size = net.numNodes
  queue_lt : ∀ v ∈ w.queue, v < net.numNodes

/-- Following an arc out of a node. -/
theorem Sized.follow?_eq_ok (hn : net.Sized) {u : Nat} {a : Arc} (ha : a ∈ net.arcsFrom u)
    {w : Frontier} (hw : net.Within w) :
    net.follow? u w a = .ok (net.follow u w a) ∧ net.Within (net.follow u w a) := by
  obtain ⟨h, hh, -, -, htarget⟩ := exists_channel_of_mem_arcsFrom ha
  have hlt : a.target < net.numNodes := hn.member_lt h (List.mem_of_getElem? hh) _ htarget
  have hparent : present w.parents[a.target]? = .ok (w.parent a.target) :=
    present_array (by rw [hw.size_eq]; exact hlt) Parent.unvisited
  rw [follow?, fixed?_eq_ok hlt, ok_bind, hparent, ok_bind, follow]
  split
  · exact ⟨rfl, hw⟩
  · rw [hn.capacity?_eq_ok ha, ok_bind]
    split
    · rw [setAt?_eq_ok (by rw [hw.size_eq]; exact hlt)]
      refine ⟨rfl, by simp [hw.size_eq], fun v hv => ?_⟩
      rcases List.mem_append.mp hv with hv | hv
      · exact hw.queue_lt v hv
      · rw [List.mem_singleton.mp hv]
        exact hlt
    · exact ⟨rfl, hw⟩

theorem Sized.expand?_eq_ok (hn : net.Sized) {u : Nat} (hu : u < net.numNodes) {w : Frontier}
    (hw : net.Within w) :
    net.expand? net.adjacency w u = .ok (net.expand w u) ∧ net.Within (net.expand w u) := by
  rw [expand?, arcsFrom?_eq_ok hu, ok_bind]
  exact foldlM_eq_ok (fun a ha w hw => hn.follow?_eq_ok ha hw) hw

/-- The parent of a node before the first step of the search. -/
private def firstParent (net : Network) (v : Nat) : Parent :=
  if net.isStart v then .source else .unvisited

/-- The search in which the starts among the first `k` nodes have been entered. -/
private def startUpTo (net : Network) (k : Nat) : Frontier where
  queue := (List.range k).filter net.isStart
  parents := filledUpTo (firstParent net) (fun _ => .unvisited) net.numNodes k

/-- Entering one node more, if it is a start. -/
private theorem enter?_startUpTo {k : Nat} (hk : k < net.numNodes) :
    net.enter? (startUpTo net k) k = .ok (startUpTo net (k + 1)) := by
  have hstart : (!net.fixed k && decide (0 < net.supply k)) = net.isStart k := rfl
  have hqueue : (List.range (k + 1)).filter net.isStart
      = (List.range k).filter net.isStart ++ bif net.isStart k then [k] else [] := by
    rw [List.range_succ, List.filter_append, List.filter_singleton]
  rw [enter?, fixed?_eq_ok hk, ok_bind, supply?_eq_ok hk, ok_bind, hstart, startUpTo, startUpTo,
    hqueue]
  by_cases hs : net.isStart k = true
  · have hparent : firstParent net k = .source := if_pos hs
    rw [if_pos hs, setAt?_eq_ok (by simpa using hk), ok_bind, setIfInBounds_filledUpTo hparent, hs]
    rfl
  · have hparent : firstParent net k = .unvisited := if_neg hs
    rw [if_neg hs, filledUpTo_succ hparent.symm, Bool.eq_false_iff.mpr hs, cond_false,
      List.append_nil]
    rfl

/-- The search enters the starts one by one. -/
theorem start?_eq_ok : net.start? = .ok net.start := by
  have hnone : (⟨[], Array.replicate net.numNodes .unvisited⟩ : Frontier) = startUpTo net 0 := by
    rw [startUpTo, filledUpTo_zero, replicate_eq_ofFn]
    rfl
  have hall : net.start = startUpTo net net.numNodes := by
    rw [startUpTo, filledUpTo_self, start]
    rfl
  rw [start?, hnone, hall]
  exact foldlM_range_eq_ok (startUpTo net) fun k hk => enter?_startUpTo hk

theorem within_start (net : Network) : net.Within net.start :=
  ⟨Array.size_ofFn, fun _ hv => List.mem_range.mp (List.mem_filter.mp hv).1⟩

theorem Sized.explore?_eq_ok (hn : net.Sized) (fuel : Nat) {w : Frontier} (hw : net.Within w) :
    net.explore? net.adjacency fuel w = .ok (net.explore fuel w) := by
  induction fuel generalizing w with
  | zero => rfl
  | succ fuel ih =>
    obtain ⟨queue, parents⟩ := w
    cases queue with
    | nil => rfl
    | cons u rest =>
      rw [explore?, explore]
      dsimp only
      rw [demand?_eq_ok (hw.queue_lt u (by simp)), ok_bind]
      by_cases hdemand : 0 < net.demand u
      · rw [if_pos hdemand, if_pos hdemand]
        rfl
      · have hrest : net.Within ⟨rest, parents⟩ :=
          ⟨hw.size_eq, fun v hv => hw.queue_lt v (List.mem_cons_of_mem u hv)⟩
        obtain ⟨hexpand, hwithin⟩ := hn.expand?_eq_ok (hw.queue_lt u (by simp)) hrest
        rw [if_neg hdemand, if_neg hdemand, hexpand, ok_bind]
        exact ih hwithin

/-- The search finds every entry that it looks at. -/
theorem Sized.search?_eq_ok (hn : net.Sized) : net.search? = .ok net.search := by
  rw [search?, hn.adjacency_eq, ok_bind, start?_eq_ok, ok_bind]
  exact hn.explore?_eq_ok _ net.within_start

end Network

/-- The way back from a node that a sound search reached. -/
theorem Frontier.Sound.trace?_eq_ok {net : Network} {level : Nat → Nat} {done : List Nat}
    {w : Frontier} (hs : Sound net level done w) {s : Search} (hp : s.parents = w.parents)
    (fuel : Nat) {v : Nat} (hv : v ∈ done ++ w.queue) : s.trace? fuel v = .ok (s.trace fuel v) := by
  induction fuel generalizing v with
  | zero => rfl
  | succ fuel ih =>
    have hparent : present s.parents[v]? = .ok (s.parent v) :=
      present_array (by rw [hp, hs.size_eq]; exact hs.lt_of_reached hv) Parent.unvisited
    rw [Search.trace?, hparent, ok_bind, Search.trace]
    cases hpar : s.parent v with
    | unvisited => rfl
    | source => rfl
    | exchange origin c p q =>
      have hpar' : w.parent v = .exchange origin c p q := by rw [← hpar, Search.parent, hp]; rfl
      -- the parent was done before
      obtain ⟨horigin, -⟩ := hs.exchange v origin c p q hpar'
      dsimp only
      rw [ih (List.mem_append_left _ horigin), ok_bind]
      rfl

/-- The path that a search reports. -/
theorem Network.trace?_eq_ok {net : Network} {sink : Nat} (hfound : net.search.found = some sink) :
    net.search.trace? net.search.parents.size sink = .ok (net.search.pathTo sink) := by
  obtain ⟨level, done, w, hs, hp, hend⟩ := net.search_sound
  rw [hfound] at hend
  obtain ⟨⟨rest, hq⟩, -⟩ := hend
  exact hs.trace?_eq_ok hp _ (by simp [hq])

/-! ### Augmenting -/

/-- The load of a path on the members of channel `c`. -/
def Path.loads (path : Path) (c size : Nat) : Array Int :=
  Array.ofFn fun p : Fin size => path.load c p

/-- Arcs between the members load them one by one. -/
private theorem foldlM_load {c size : Nat} (first : Nat) (arcs : List Arc)
    (harcs : ∀ a ∈ arcs, a.c = c → a.p < size ∧ a.q < size) (before : Nat → Int) :
    ((arcs.filter (·.c = c)).foldlM (fun load a => do
      let left ← modifyAt? load a.p (· + 1)
      modifyAt? left a.q (· - 1)) (Array.ofFn fun p : Fin size => before p) :
        Except Fault (Array Int))
      = .ok (Array.ofFn fun p : Fin size => before p + (⟨first, arcs⟩ : Path).load c p) := by
  induction arcs generalizing before with
  | nil =>
    simp [Path.load]
    rfl
  | cons a arcs ih =>
    have ih := ih fun b hb => harcs b (by simp [hb])
    by_cases hc : a.c = c
    · obtain ⟨hp, hq⟩ := harcs a (by simp) hc
      have hstep : ((Array.ofFn fun p : Fin size => before p).modify a.p (· + 1)).modify a.q (· - 1)
          = Array.ofFn fun p : Fin size =>
            before p + ((if a.p = p then 1 else 0) - (if a.q = p then 1 else 0)) := by
        apply Array.ext_getElem?
        intro p
        by_cases hlt : p < size
        · by_cases h1 : a.p = p <;> by_cases h2 : a.q = p <;>
            simp [Array.getElem_modify, hlt, h1, h2]
          omega
        · simp [hlt]
      rw [List.filter_cons_of_pos (by simp [hc]), List.foldlM_cons,
        modifyAt?_eq_ok (by simpa using hp), ok_bind, modifyAt?_eq_ok (by simpa using hq), hstep,
        ok_bind, ih fun p =>
          before p + ((if a.p = p then 1 else 0) - (if a.q = p then 1 else 0))]
      simp [Path.load_cons, hc, Int.add_assoc]
    · rw [List.filter_cons_of_neg (by simp [hc]), ih before]
      simp [Path.load_cons, hc]

theorem Path.load?_eq_ok {path : Path} {c size : Nat}
    (harcs : ∀ a ∈ path.arcs, a.c = c → a.p < size ∧ a.q < size) :
    path.load? c size = .ok (path.loads c size) := by
  rw [Path.load?, replicate_eq_ofFn, foldlM_load path.first path.arcs harcs fun _ => 0]
  simp [loads]

/-- A table of loads is read below its size. -/
theorem Path.sum_loads (path : Path) (c size t : Nat) :
    Mask.sum size ((path.loads c size).getD · 0) t = Mask.sum size (path.load c) t :=
  Mask.sum_congr fun p hp _ => by simp [loads, hp]

namespace Network

variable {net : Network}

/-- Every channel with the load of a path on it. -/
def loads (net : Network) (path : Path) : List (Channel × Array Int) :=
  net.channels.zipIdx.map fun h => (h.1, path.loads h.2 h.1.size)

/-- Arcs of a path lie between members of their channels. -/
theorem Usable.lt {a : Arc} (ha : net.Usable a) {h : Channel} (hh : net.channels[a.c]? = some h) :
    a.p < h.size ∧ a.q < h.size := by
  obtain ⟨u, hu, -⟩ := ha.exists_tail
  obtain ⟨h', hh', hp, hq, -⟩ := exists_channel_of_mem_arcsFrom hu
  rw [hh, Option.some.injEq] at hh'
  exact hh' ▸ ⟨hp, hq⟩

theorem loads?_eq_ok {path : Path} (harcs : ∀ a ∈ path.arcs, net.Usable a) :
    net.loads? path = .ok (net.loads path) := by
  have hchannels : path.arcs.mapM (fun a => present net.channels[a.c]?)
      = .ok (path.arcs.map fun a => (net.channels[a.c]?).getD ⟨[], 0, #[], #[], #[]⟩) := by
    refine mapM_eq_ok fun a ha => ?_
    obtain ⟨u, hu, -⟩ := (harcs a ha).exists_tail
    obtain ⟨h, hh, -⟩ := exists_channel_of_mem_arcsFrom hu
    exact present_eq_ok (by rw [hh]; rfl)
  rw [loads?, hchannels, ok_bind, mapM_eq_ok (g := fun h => (h.1, path.loads h.2 h.1.size))
    fun h hh => ?_]
  · rfl
  · have hget := List.mem_zipIdx_iff_getElem?.mp hh
    rw [Path.load?_eq_ok fun a ha hc => (harcs a ha).lt (by rw [hc]; exact hget)]
    rfl

/-- Every free set that a path leaves on balance has a slack and a load to divide by. -/
theorem Sized.channelRoom?_eq_ok (hn : net.Sized) {h : Channel} (hh : h ∈ net.channels)
    (path : Path) (c : Nat) (bound : Int) :
    h.room? (path.loads c h.size) bound = .ok (h.room (path.load c) bound) := by
  refine (foldlM_eq_ok (I := fun _ => True) (fun t ht b _ => ⟨?_, trivial⟩) trivial).1
  dsimp only
  rw [path.sum_loads]
  split
  · rename_i hpos
    rw [hn.slackAt_eq hh ht, ok_bind, divide?_eq_ok _ (by omega)]
    rfl
  · rfl

theorem Sized.room?_eq_ok (hn : net.Sized) {path : Path} {sink : Nat}
    (hfirst : path.first < net.numNodes) (hsink : sink < net.numNodes) :
    net.room? (net.loads path) path sink = .ok (net.room path sink) := by
  rw [room?, demand?_eq_ok hsink, ok_bind, supply?_eq_ok hfirst, ok_bind, loads, List.foldlM_map]
  exact (foldlM_eq_ok (I := fun _ => True) (fun h hh b _ =>
    ⟨hn.channelRoom?_eq_ok (List.fst_mem_of_mem_zipIdx hh) path h.2 b, trivial⟩) trivial).1

/-- A channel is pushed by the loads of its members. -/
theorem Sized.push_loads (hn : net.Sized) {h : Channel} (hh : h ∈ net.channels) (path : Path)
    (c : Nat) (amount : Int) :
    h.push ((path.loads c h.size).getD · 0) amount = h.push (path.load c) amount := by
  simp only [Channel.push, path.sum_loads]
  congr 2
  funext p
  have hp : p.val < h.size := by rw [← hn.carried_size h hh]; exact p.isLt
  simp [Path.loads, hp]

theorem Sized.push?_eq_ok (hn : net.Sized) {path : Path} {sink : Nat}
    (hfirst : path.first < net.numNodes) (hsink : sink < net.numNodes) (amount : Int) :
    net.push? (net.loads path) path sink amount = .ok (net.push path sink amount) := by
  have hchannels : (net.loads path).map (fun h => h.1.push (h.2.getD · 0) amount)
      = (net.push path sink amount).channels := by
    rw [loads, List.map_map]
    exact List.map_congr_left fun h hh =>
      hn.push_loads (List.fst_mem_of_mem_zipIdx hh) path h.2 amount
  rw [push?, modifyAt?_eq_ok hfirst, ok_bind,
    modifyAt?_eq_ok (by rw [Array.size_modify]; exact hsink), ok_bind, hchannels]
  rfl

end Network

/-- A run that pushes as far as it can. -/
theorem Run.saturate?_eq_ok (fuel : Nat) {r : Run} (hn : r.network.Sized) :
    r.saturate? fuel = .ok (r.saturate fuel) ∧ (r.saturate fuel).network.Sized ∧
      (r.saturate fuel).network.numNodes = r.network.numNodes := by
  induction fuel generalizing r with
  | zero => exact ⟨rfl, hn, rfl⟩
  | succ fuel ih =>
    rw [saturate?, saturate, hn.search?_eq_ok, ok_bind]
    cases hfound : r.network.search.found with
    | none => exact ⟨rfl, hn, rfl⟩
    | some sink =>
      obtain ⟨ht, -⟩ := Network.traced_search hfound
      have hfirst := Network.lt_of_free (Network.isStart_iff.mp ht.isStart_first).1
      have hsink := Network.lt_of_free ht.leads.last_free
      dsimp only
      rw [Network.trace?_eq_ok hfound, ok_bind, Network.loads?_eq_ok ht.leads.usable, ok_bind,
        hn.room?_eq_ok hfirst hsink, ok_bind]
      by_cases hroom : r.network.room (r.network.search.pathTo sink) sink ≤ 0
      · rw [if_pos hroom, if_pos hroom]
        exact ⟨rfl, hn, rfl⟩
      · rw [if_neg hroom, if_neg hroom, hn.push?_eq_ok hfirst hsink, ok_bind]
        have hpushed := ih (r := r.push (r.network.search.pathTo sink) sink
          (r.network.room (r.network.search.pathTo sink) sink)) (hn.push _ _ _)
        exact ⟨hpushed.1, hpushed.2.1, hpushed.2.2.trans (Network.numNodes_push _ _ _ _)⟩

/-! ### Answering -/

/-- Every node has a cost. -/
theorem Graph.costs_eq_ok {g : Graph} {chosen : Array Bool} (hsize : chosen.size = g.numNodes) :
    chosen.toList.zipIdx.mapM (fun x => do
        let node ← present g.nodes[x.2]?
        return if x.1 then node.cost1 else node.cost0)
      = .ok ((List.range g.numNodes).map fun v =>
          if chosen.getD v false then g.cost1 v else g.cost0 v) := by
  rw [mapM_eq_ok (g := fun x => if x.1 then g.cost1 x.2 else g.cost0 x.2) fun x hx => ?_]
  · congr 1
    apply List.ext_getElem?
    intro v
    by_cases hv : v < g.numNodes
    · have hlt : v < chosen.size := by omega
      simp [hv, hlt]
    · simp [hv, hsize]
  · have hlt : x.2 < g.nodes.size := by
      have := (List.getElem?_eq_some_iff.mp (List.mem_zipIdx_iff_getElem?.mp hx)).1
      rw [Array.length_toList, hsize] at this
      exact this
    rw [present_array hlt Node.blank, ok_bind]
    rfl

/-- Every factor has an entry at the members that are chosen. -/
theorem Factor.entry_eq_ok {g : Graph} {f : Factor} (hf : f.WellFormed g.numNodes)
    {chosen : Array Bool} (hsize : chosen.size = g.numNodes) : (do
        let bits ← f.members.mapM fun v => present chosen[v]?
        present f.table[Mask.ofBits bits]?) = .ok (f.energy (chosen.getD · false)) := by
  obtain ⟨hmembers, htable⟩ := hf
  rw [mapM_eq_ok fun v hv => present_array (by rw [hsize]; exact hmembers v hv) false, ok_bind]
  refine present_array ?_ 0
  rw [htable]
  exact Nat.lt_of_lt_of_eq (Mask.ofBits_lt _) (by rw [List.length_map]; rfl)

theorem Graph.energy?_eq_ok {g : Graph} (hw : g.WellFormed) {chosen : Array Bool}
    (hsize : chosen.size = g.numNodes) :
    g.energy? chosen = .ok (g.energy (chosen.getD · false)) := by
  rw [energy?, Graph.costs_eq_ok hsize, ok_bind,
    mapM_eq_ok fun f hf => Factor.entry_eq_ok (hw f hf) hsize, ok_bind, sum_map_range]
  rfl

/-- Every member has a potential. -/
theorem Network.Sized.potentials?_eq_ok {net : Network} (hn : net.Sized) :
    net.channels.mapM (·.potentials?)
      = .ok (net.channels.map fun h => Array.ofFn fun p : Fin h.size => h.potential p) := by
  refine mapM_eq_ok fun h hh => arrayOf?_eq_ok fun p hp => ?_
  rw [present_array (by rw [hn.carried_size h hh]; exact hp) 0, ok_bind,
    present_array (by rw [hn.base_size h hh]; exact hp) 0]
  rfl

/-- What is no member has the potential zero. -/
theorem Network.Sized.getD_potentials {net : Network} (hn : net.Sized) (c p : Nat) :
    ((net.channels.map fun h => Array.ofFn fun p : Fin h.size => h.potential p).getD c #[]).getD p 0
      = (net.channels[c]?.map (·.potential p)).getD 0 := by
  cases hc : net.channels[c]? with
  | none => simp [hc]
  | some h =>
    have hh := List.mem_of_getElem? hc
    by_cases hp : p < h.size
    · simp [hc, hp]
    · have hcarried : ¬ p < h.carried.size := by rw [hn.carried_size h hh]; exact hp
      have hbase : ¬ p < h.base.size := by rw [hn.base_size h hh]; exact hp
      simp [hc, hp, hcarried, hbase, Channel.potential, Channel.carriedAt, Channel.baseAt]

/-- What is no node was not visited. -/
theorem Search.getD_visited {s : Search} {n : Nat} (hsize : s.parents.size = n) :
    ((Array.ofFn fun v : Fin n => s.visited v).getD · false) = s.visited := by
  funext v
  by_cases hv : v < n
  · simp [hv]
  · have hout : ¬ v < s.parents.size := by omega
    simp [hv, hout, Search.visited, Search.parent]

/-- The answer of a run on as many nodes as the graph has. -/
theorem Run.answer?_eq_ok {g : Graph} (hw : g.WellFormed) {r : Run} (hn : r.network.Sized)
    (hnodes : r.network.numNodes = g.numNodes) : r.answer? g = .ok (r.answer g) := by
  obtain ⟨level, done, w, hs, hp, -⟩ := r.network.search_sound
  have hsize : r.network.search.parents.size = g.numNodes := by rw [hp, hs.size_eq, hnodes]
  have hvisited : arrayOf? g.numNodes (fun v => do
        let parent ← present r.network.search.parents[v]?
        return decide (parent ≠ .unvisited))
      = .ok (Array.ofFn fun v : Fin g.numNodes => r.network.search.visited v) := by
    refine arrayOf?_eq_ok fun v hv => ?_
    rw [present_array (by omega) Parent.unvisited]
    rfl
  rw [answer?, hn.search?_eq_ok, ok_bind, hvisited, ok_bind, hn.potentials?_eq_ok, ok_bind,
    Graph.energy?_eq_ok hw Array.size_ofFn, ok_bind, Search.getD_visited hsize]
  simp only [hn.getD_potentials]
  rfl

/-- On a well-formed graph the checked oracle does what the oracle does. -/
theorem checkedFlow_solve {g : Graph} (hw : g.WellFormed) :
    checkedFlow.solve g () = maxFlow.solve g () := by
  obtain ⟨hsaturate, hn, hnodes⟩ := Run.saturate?_eq_ok (Network.ofGraph g).totalSupply
    (r := Run.start (Network.ofGraph g)) (Network.sized_ofGraph hw)
  have hanswer := Run.answer?_eq_ok hw hn (hnodes.trans Array.size_ofFn)
  unfold checkedFlow maxFlow
  dsimp only
  rw [Network.ofGraph?_eq_ok hw, Action.ofExcept_ok_bind, hsaturate, Action.ofExcept_ok_bind,
    hanswer, Action.ofExcept_ok_bind, Action.require, if_pos hw]
  rfl

/-- So does asking it. -/
theorem checkedFlow_run {e : Engine Unit} (hw : e.graph.WellFormed) :
    checkedFlow.run e = maxFlow.run e := by
  unfold Oracle.run
  rw [Action.get_bind_apply, Action.get_bind_apply]
  refine Action.bind_apply_eq ?_ _
  rw [Action.zoom, Action.zoom, checkedFlow_solve hw]

end FusionMove.Cut
