import FusionMove.Proofs.Cut.Push

namespace FusionMove.Cut

/-!
# Breadth-first search

The invariant `Frontier.Sound` speaks of the nodes that are done, of the queue, and of a level for
every node reached: the number of arcs on the way back to a start.  Nodes are done in the order in
which they were reached, so done nodes and queue together are sorted by level and the queue spans
at most two levels.

* `Sound.expand` — expanding the first node of the queue keeps the invariant;
* `Network.search_sound` — the search ends in a sound state whose queue is empty or starts with a
  node that can still send to the sink;
* `Network.visited_iff_reached` — the nodes it visited are those done or in the queue.
-/

namespace Network

/-- An arc out of `u` to a free node that has capacity. -/
structure Arrow (net : Network) (u : Nat) (a : Arc) : Prop where
  mem : a ∈ net.arcsFrom u
  head_free : net.fixed a.target = false
  capacity_pos : 0 < net.capacity a

theorem lt_of_free {net : Network} {v : Nat} (h : net.fixed v = false) : v < net.numNodes := by
  by_contra hv
  have : net.terminals[v]? = none := Array.getElem?_eq_none (Nat.not_lt.mp hv)
  simp [fixed, terminal, Array.getD_eq_getD_getElem?, this, Terminal.closed] at h

theorem isStart_iff {net : Network} {v : Nat} :
    net.isStart v = true ↔ net.fixed v = false ∧ 0 < net.supply v := by
  simp [isStart]

end Network

namespace Frontier

/-- What holds of a search when the nodes `done` have been expanded, in this order. -/
structure Sound (net : Network) (level : Nat → Nat) (done : List Nat) (w : Frontier) : Prop where
  size_eq : w.parents.size = net.numNodes
  nodup : (done ++ w.queue).Nodup
  reached_iff : ∀ v, w.parent v ≠ .unvisited ↔ v ∈ done ++ w.queue
  source_iff : ∀ v, w.parent v = .source ↔ net.isStart v = true
  exchange : ∀ v u c p q, w.parent v = .exchange u c p q →
    u ∈ done ∧ net.Arrow u ⟨c, p, q, v⟩ ∧ level v = level u + 1
  level_start : ∀ v, net.isStart v = true → level v = 0
  level_le : ∀ v ∈ done ++ w.queue, level v ≤ done.length
  closed : ∀ u ∈ done, ∀ a, net.Arrow u a → a.target ∈ done ++ w.queue
  near : ∀ u ∈ done, ∀ a, net.Arrow u a → level a.target ≤ level u + 1
  dry : ∀ u ∈ done, net.demand u ≤ 0
  sorted : (done ++ w.queue).Pairwise fun u v => level u ≤ level v
  span : ∀ u ∈ w.queue, ∀ v ∈ done ++ w.queue, level v ≤ level u + 1

end Frontier

/-! ### One expansion -/

namespace Network

variable {net : Network}

/-- What following some arcs out of `u` has changed, given the nodes `new` that it reached. -/
private structure Followed (net : Network) (u : Nat) (arcs : List Arc) (w w' : Frontier)
    (new : List Nat) : Prop where
  size_eq : w'.parents.size = w.parents.size
  queue_eq : w'.queue = w.queue ++ new
  nodup : new.Nodup
  fresh : ∀ v ∈ new, w.parent v = .unvisited ∧ ∃ a ∈ arcs, a.target = v ∧ net.fixed v = false ∧
    0 < net.capacity a ∧ w'.parent v = .exchange u a.c a.p a.q
  kept : ∀ v, v ∉ new → w'.parent v = w.parent v
  closed : ∀ a ∈ arcs, net.fixed a.target = false → 0 < net.capacity a →
    w.parent a.target ≠ .unvisited ∨ a.target ∈ new

/-- Following one arc reaches at most its target. -/
private theorem followed_single (u : Nat) (w : Frontier) (a : Arc)
    (hlt : net.fixed a.target = false → a.target < w.parents.size) :
    ∃ new, Followed net u [a] w (net.follow u w a) new := by
  unfold follow
  split
  · -- a target that is fixed or was seen before is passed over
    rename_i hskip
    refine ⟨[], rfl, by simp, List.nodup_nil, by simp, fun _ _ => rfl, fun b hb hfree _ => .inl ?_⟩
    obtain rfl := List.mem_singleton.mp hb
    rcases hskip with hfixed | hseen
    · rw [hfixed] at hfree
      exact absurd hfree (by simp)
    · exact hseen
  · rename_i hskip
    simp only [not_or, Bool.not_eq_true, not_not] at hskip
    split
    · -- the target is new
      rename_i hcap
      have hsize := hlt hskip.1
      refine ⟨[a.target], by simp, rfl, by simp, fun v hv => ?_, fun v hv => ?_,
        fun b hb _ _ => .inr ?_⟩
      · obtain rfl := List.mem_singleton.mp hv
        refine ⟨hskip.2, a, by simp, rfl, hskip.1, hcap, ?_⟩
        simp [Frontier.parent, hsize]
      · have hne : a.target ≠ v := fun h => hv (by simp [h])
        simp [Frontier.parent, Array.getD_eq_getD_getElem?, hne]
      · obtain rfl := List.mem_singleton.mp hb
        simp
    · -- the arc is full
      rename_i hcap
      refine ⟨[], rfl, by simp, List.nodup_nil, by simp, fun _ _ => rfl, fun b hb _ hpos => ?_⟩
      obtain rfl := List.mem_singleton.mp hb
      exact absurd hpos hcap

/-- Following arcs one after the other. -/
private theorem followed_foldl (u : Nat) (arcs : List Arc) (w : Frontier)
    (hlt : ∀ a ∈ arcs, net.fixed a.target = false → a.target < w.parents.size) :
    ∃ new, Followed net u arcs w (arcs.foldl (net.follow u) w) new := by
  induction arcs generalizing w with
  | nil => exact ⟨[], rfl, by simp, List.nodup_nil, by simp, fun _ _ => rfl, by simp⟩
  | cons a arcs ih =>
    obtain ⟨new₁, h₁⟩ := followed_single u w a (hlt a (by simp))
    obtain ⟨new₂, h₂⟩ := ih (net.follow u w a) fun b hb hfree => by
      rw [h₁.size_eq]
      exact hlt b (by simp [hb]) hfree
    -- what the first arc reached is no longer unvisited, so the others do not reach it again
    have hreach : ∀ v ∈ new₁, (net.follow u w a).parent v ≠ .unvisited := by
      intro v hv
      obtain ⟨-, b, -, -, -, -, hpar⟩ := h₁.fresh v hv
      rw [hpar]
      exact Parent.noConfusion
    have hdisj : ∀ v ∈ new₁, v ∉ new₂ := fun v hv₁ hv₂ => hreach v hv₁ (h₂.fresh v hv₂).1
    refine ⟨new₁ ++ new₂, ?_, ?_, ?_, fun v hv => ?_, fun v hv => ?_, fun b hb hfree hpos => ?_⟩
    · rw [List.foldl_cons, h₂.size_eq, h₁.size_eq]
    · rw [List.foldl_cons, h₂.queue_eq, h₁.queue_eq, List.append_assoc]
    · exact List.nodup_append.mpr ⟨h₁.nodup, h₂.nodup, fun v hv v' hv' heq =>
        hdisj v hv (heq ▸ hv')⟩
    · rcases List.mem_append.mp hv with hv | hv
      · obtain ⟨hun, b, hb, htarget, hfree, hcap, hpar⟩ := h₁.fresh v hv
        obtain rfl := List.mem_singleton.mp hb
        exact ⟨hun, b, by simp, htarget, hfree, hcap, by
          rw [List.foldl_cons, h₂.kept v (hdisj v hv), hpar]⟩
      · obtain ⟨hun, b, hb, htarget, hfree, hcap, hpar⟩ := h₂.fresh v hv
        refine ⟨?_, b, by simp [hb], htarget, hfree, hcap, hpar⟩
        rw [← h₁.kept v fun hv₁ => hdisj v hv₁ hv]
        exact hun
    · simp only [List.mem_append, not_or] at hv
      rw [List.foldl_cons, h₂.kept v hv.2, h₁.kept v hv.1]
    · rcases List.mem_cons.mp hb with rfl | hb
      · rcases h₁.closed b (by simp) hfree hpos with h | h
        · exact .inl h
        · exact .inr (by simp [h])
      · rcases h₂.closed b hb hfree hpos with h | h
        · by_cases hmem : b.target ∈ new₁
          · exact .inr (by simp [hmem])
          · rw [h₁.kept _ hmem] at h
            exact .inl h
        · exact .inr (by simp [h])

/-- The targets of arcs are nodes if they are free. -/
private theorem followed_expand (u : Nat) (w : Frontier) (hsize : w.parents.size = net.numNodes) :
    ∃ new, Followed net u (net.arcsFrom u) w (net.expand w u) new :=
  followed_foldl u _ w fun a _ hfree => by rw [hsize]; exact lt_of_free hfree

end Network

namespace Frontier.Sound

variable {net : Network} {level : Nat → Nat} {done rest new : List Nat} {w w' : Frontier} {u v : Nat}

/-- A node that was reached before is not new. -/
private theorem not_mem_new (hs : Sound net level done w)
    (hf : Network.Followed net u (net.arcsFrom u) ⟨rest, w.parents⟩ w' new)
    (hv : v ∈ done ++ w.queue) : v ∉ new :=
  fun hnew => (hs.reached_iff v).mpr hv (hf.fresh v hnew).1

/-- New nodes are put behind all others. -/
private theorem order_eq (hq : w.queue = u :: rest)
    (hf : Network.Followed net u (net.arcsFrom u) ⟨rest, w.parents⟩ w' new) :
    (done ++ [u]) ++ w'.queue = (done ++ w.queue) ++ new := by
  rw [hf.queue_eq, hq]
  simp

/-- An arrow leads to every new node from `u`, and stands as its parent. -/
private theorem exists_arrow (hf : Network.Followed net u (net.arcsFrom u) ⟨rest, w.parents⟩ w' new)
    (hv : v ∈ new) :
    ∃ a, net.Arrow u a ∧ a.target = v ∧ w'.parent v = .exchange u a.c a.p a.q := by
  obtain ⟨-, a, ha, rfl, hfree, hcap, hpar⟩ := hf.fresh v hv
  exact ⟨a, ⟨ha, hfree, hcap⟩, rfl, hpar⟩

/-- All arrows out of `u` were followed. -/
private theorem mem_of_followed (hs : Sound net level done w)
    (hf : Network.Followed net u (net.arcsFrom u) ⟨rest, w.parents⟩ w' new) {a : Arc}
    (ha : net.Arrow u a) : a.target ∈ (done ++ w.queue) ++ new := by
  rcases hf.closed a ha.mem ha.head_free ha.capacity_pos with h | h
  · exact List.mem_append_left _ ((hs.reached_iff _).mp h)
  · exact List.mem_append_right _ h

private theorem reached_iff_followed (hs : Sound net level done w) (hq : w.queue = u :: rest)
    (hf : Network.Followed net u (net.arcsFrom u) ⟨rest, w.parents⟩ w' new) (v : Nat) :
    w'.parent v ≠ .unvisited ↔ v ∈ (done ++ [u]) ++ w'.queue := by
  rw [order_eq hq hf, List.mem_append]
  by_cases hv : v ∈ new
  · obtain ⟨a, -, -, hpar⟩ := exists_arrow hf hv
    simp [hpar, hv]
  · rw [hf.kept v hv]
    simp only [hv, or_false]
    exact hs.reached_iff v

/-- No start is new, since all starts have a parent already. -/
private theorem source_iff_followed (hs : Sound net level done w)
    (hf : Network.Followed net u (net.arcsFrom u) ⟨rest, w.parents⟩ w' new) (v : Nat) :
    w'.parent v = .source ↔ net.isStart v = true := by
  by_cases hv : v ∈ new
  · obtain ⟨a, -, -, hpar⟩ := exists_arrow hf hv
    have hun : w.parent v = .unvisited := (hf.fresh v hv).1
    have := hs.source_iff v
    rw [hun] at this
    simp only [hpar, reduceCtorEq, false_iff] at this ⊢
    exact this
  · rw [hf.kept v hv]
    exact hs.source_iff v

/-! The new nodes lie one level above `u`, the others stay where they are. -/

/-- The levels after `u` was expanded. -/
private def raised (level : Nat → Nat) (u : Nat) (new : List Nat) (v : Nat) : Nat :=
  if v ∈ new then level u + 1 else level v

private theorem raised_new (hv : v ∈ new) : raised level u new v = level u + 1 := if_pos hv

private theorem raised_old (hs : Sound net level done w)
    (hf : Network.Followed net u (net.arcsFrom u) ⟨rest, w.parents⟩ w' new)
    (hv : v ∈ done ++ w.queue) : raised level u new v = level v :=
  if_neg (hs.not_mem_new hf hv)

/-- The queue starts with `u`, so every node reached so far is at most one level above it. -/
private theorem raised_le (hs : Sound net level done w) (hq : w.queue = u :: rest)
    (hf : Network.Followed net u (net.arcsFrom u) ⟨rest, w.parents⟩ w' new)
    (hv : v ∈ (done ++ w.queue) ++ new) : raised level u new v ≤ level u + 1 := by
  rcases List.mem_append.mp hv with hv | hv
  · rw [hs.raised_old hf hv]
    exact hs.span u (by simp [hq]) v hv
  · rw [raised_new hv]

/-- What is left in the queue is not below `u`. -/
private theorem le_raised (hs : Sound net level done w) (hq : w.queue = u :: rest)
    (hf : Network.Followed net u (net.arcsFrom u) ⟨rest, w.parents⟩ w' new)
    (hv : v ∈ w'.queue) : level u ≤ raised level u new v := by
  rw [hf.queue_eq] at hv
  rcases List.mem_append.mp hv with hv | hv
  · rw [hs.raised_old hf (by simp [hq, show v ∈ rest from hv])]
    have hsorted := (List.pairwise_append.mp hs.sorted).2.1
    rw [hq] at hsorted
    exact List.rel_of_pairwise_cons hsorted hv
  · rw [raised_new hv]
    omega

/-- The parent of a new node is `u`. -/
private theorem exchange_followed (hs : Sound net level done w) (hq : w.queue = u :: rest)
    (hf : Network.Followed net u (net.arcsFrom u) ⟨rest, w.parents⟩ w' new) {x c p q : Nat}
    (hpar : w'.parent v = .exchange x c p q) :
    x ∈ done ++ [u] ∧ net.Arrow x ⟨c, p, q, v⟩ ∧
      raised level u new v = raised level u new x + 1 := by
  by_cases hv : v ∈ new
  · obtain ⟨a, ha, rfl, hpar'⟩ := exists_arrow hf hv
    rw [hpar'] at hpar
    injection hpar with h1 h2 h3 h4
    subst h1 h2 h3 h4
    exact ⟨by simp, ha, by rw [raised_new hv, hs.raised_old hf (by simp [hq])]⟩
  · rw [hf.kept v hv] at hpar
    obtain ⟨hx, ha, hlev⟩ := hs.exchange v x c p q hpar
    have hreached : v ∈ done ++ w.queue :=
      (hs.reached_iff v).mp (by rw [show w.parent v = _ from hpar]; exact Parent.noConfusion)
    refine ⟨by simp [hx], ha, ?_⟩
    rw [hs.raised_old hf hreached, hs.raised_old hf (by simp [hx]), hlev]

private theorem near_followed (hs : Sound net level done w) (hq : w.queue = u :: rest)
    (hf : Network.Followed net u (net.arcsFrom u) ⟨rest, w.parents⟩ w' new) {x : Nat}
    (hx : x ∈ done ++ [u]) {a : Arc} (ha : net.Arrow x a) :
    raised level u new a.target ≤ raised level u new x + 1 := by
  rcases List.mem_append.mp hx with hx | hx
  · rw [hs.raised_old hf (hs.closed x hx a ha), hs.raised_old hf (List.mem_append_left _ hx)]
    exact hs.near x hx a ha
  · obtain rfl := List.mem_singleton.mp hx
    rw [hs.raised_old hf (v := x) (by simp [hq])]
    exact hs.raised_le hq hf (hs.mem_of_followed hf ha)

/-- New nodes come last and lie furthest. -/
private theorem sorted_followed (hs : Sound net level done w) (hq : w.queue = u :: rest)
    (hf : Network.Followed net u (net.arcsFrom u) ⟨rest, w.parents⟩ w' new) :
    ((done ++ [u]) ++ w'.queue).Pairwise
      fun x y => raised level u new x ≤ raised level u new y := by
  rw [order_eq hq hf]
  refine List.pairwise_append.mpr ⟨?_, ?_, fun x hx y hy => ?_⟩
  · exact hs.sorted.imp_of_mem fun hx hy hle => by
      rwa [hs.raised_old hf hx, hs.raised_old hf hy]
  · exact List.pairwise_of_forall_mem_list fun x hx y hy => by rw [raised_new hx, raised_new hy]
  · rw [raised_new hy]
    exact hs.raised_le hq hf (List.mem_append_left _ hx)

/-- Expanding the first node of the queue keeps the search sound; the nodes it reaches lie one
    level further. -/
theorem expand (hs : Sound net level done w) (hq : w.queue = u :: rest) (hu : net.demand u ≤ 0) :
    ∃ level', Sound net level' (done ++ [u]) (net.expand ⟨rest, w.parents⟩ u) := by
  obtain ⟨new, hf⟩ : ∃ new, Network.Followed net u (net.arcsFrom u) ⟨rest, w.parents⟩ _ new :=
    Network.followed_expand u ⟨rest, w.parents⟩ hs.size_eq
  have horder : (done ++ [u]) ++ (net.expand ⟨rest, w.parents⟩ u).queue
      = (done ++ w.queue) ++ new := order_eq hq hf
  have hmem_u : u ∈ done ++ w.queue := by simp [hq]
  refine ⟨raised level u new,
    { size_eq := hf.size_eq.trans hs.size_eq
      nodup := ?_
      reached_iff := hs.reached_iff_followed hq hf
      source_iff := hs.source_iff_followed hf
      exchange := fun _ _ _ _ _ => hs.exchange_followed hq hf
      level_start := fun v hv => ?_
      level_le := fun v hv => ?_
      closed := fun x hx a ha => ?_
      near := fun _ hx _ => hs.near_followed hq hf hx
      dry := fun x hx => ?_
      sorted := hs.sorted_followed hq hf
      span := fun x hx v hv => ?_ }⟩
  · -- nodup: new nodes were unvisited
    rw [horder]
    exact List.nodup_append.mpr ⟨hs.nodup, hf.nodup, fun v hv v' hv' heq =>
      hs.not_mem_new hf hv (heq ▸ hv')⟩
  · -- level_start
    have hreached : v ∈ done ++ w.queue :=
      (hs.reached_iff v).mp (by rw [(hs.source_iff v).mpr hv]; exact Parent.noConfusion)
    rw [hs.raised_old hf hreached]
    exact hs.level_start v hv
  · -- level_le: `u` is at most as far as there were nodes before it
    rw [horder] at hv
    have hlu := hs.level_le u hmem_u
    have := hs.raised_le hq hf hv
    simp only [List.length_append, List.length_singleton]
    omega
  · -- closed
    rw [horder]
    rcases List.mem_append.mp hx with hx | hx
    · exact List.mem_append_left _ (hs.closed x hx a ha)
    · obtain rfl := List.mem_singleton.mp hx
      exact hs.mem_of_followed hf ha
  · -- dry
    rcases List.mem_append.mp hx with hx | hx
    · exact hs.dry x hx
    · obtain rfl := List.mem_singleton.mp hx
      exact hu
  · -- span
    rw [horder] at hv
    have h1 := hs.raised_le hq hf hv
    have h2 := hs.le_raised hq hf hx
    omega

end Frontier.Sound

/-! ### The whole search -/

namespace Network

variable {net : Network}

/-- The search starts in a sound state. -/
theorem sound_start (net : Network) : Frontier.Sound net (fun _ => 0) [] net.start where
  size_eq := by simp [start]
  nodup := List.nodup_range.filter _
  reached_iff v := by
    by_cases hv : v < net.numNodes
    · by_cases hs : net.isStart v = true <;> simp [start, Frontier.parent, hv, hs]
    · simp [start, Frontier.parent, hv]
  source_iff v := by
    by_cases hv : v < net.numNodes
    · by_cases hs : net.isStart v = true <;> simp [start, Frontier.parent, hv, hs]
    · have : net.isStart v = false := by
        rw [← Bool.not_eq_true, isStart_iff]
        exact fun h => hv (lt_of_free h.1)
      simp [start, Frontier.parent, hv, this]
  exchange v u c p q hpar := by
    by_cases hv : v < net.numNodes
    · by_cases hs : net.isStart v = true <;> simp [start, Frontier.parent, hv, hs] at hpar
    · simp [start, Frontier.parent, hv] at hpar
  level_start _ _ := rfl
  level_le _ _ := Nat.zero_le _
  closed _ hu := absurd hu (List.not_mem_nil)
  near _ hu := absurd hu (List.not_mem_nil)
  dry _ hu := absurd hu (List.not_mem_nil)
  sorted := List.pairwise_of_forall_mem_list fun _ _ _ _ => Nat.le_refl _
  span _ _ _ _ := Nat.zero_le _

end Network

namespace Frontier.Sound

variable {net : Network} {level : Nat → Nat} {done : List Nat} {w : Frontier}

/-- Nodes that were reached are nodes of the network. -/
theorem lt_of_reached (hs : Sound net level done w) {v : Nat} (hv : v ∈ done ++ w.queue) :
    v < net.numNodes := by
  rw [← hs.size_eq]
  by_contra hlt
  have hreached := (hs.reached_iff v).mpr hv
  rw [Frontier.parent, Array.getD_eq_getD_getElem?, Array.getElem?_eq_none (by omega)] at hreached
  exact hreached rfl

/-- No more nodes are reached than the network has. -/
theorem length_le (hs : Sound net level done w) : (done ++ w.queue).length ≤ net.numNodes := by
  have := List.Nodup.length_le_of_subset hs.nodup fun v hv =>
    List.mem_range.mpr (hs.lt_of_reached hv)
  rwa [List.length_range] at this

/-- A search from a sound state ends in one, with an empty queue or at a node that can still send
    to the sink. -/
theorem explore (fuel : Nat) (hs : Sound net level done w)
    (hfuel : net.numNodes ≤ fuel + done.length) :
    ∃ level' done' w', Sound net level' done' w' ∧ (net.explore fuel w).parents = w'.parents ∧
      match (net.explore fuel w).found with
      | none => w'.queue = []
      | some v => (∃ rest, w'.queue = v :: rest) ∧ 0 < net.demand v := by
  induction fuel generalizing level done w with
  | zero =>
    -- all nodes are done, so none is left to wait
    refine ⟨level, done, w, hs, rfl, ?_⟩
    have := hs.length_le
    rw [List.length_append] at this
    exact List.length_eq_zero_iff.mp (by omega)
  | succ fuel ih =>
    rw [Network.explore]
    split
    · rename_i hq
      exact ⟨level, done, w, hs, rfl, hq⟩
    · rename_i u rest hq
      split
      · rename_i hpos
        exact ⟨level, done, w, hs, rfl, ⟨rest, hq⟩, hpos⟩
      · rename_i hpos
        obtain ⟨level', hs'⟩ := hs.expand hq (by omega)
        exact ih hs' (by simp only [List.length_append, List.length_singleton]; omega)

end Frontier.Sound

namespace Network

/-- The search ends in a sound state, with an empty queue or at a node that can still send to the
    sink. -/
theorem search_sound (net : Network) :
    ∃ level done w, Frontier.Sound net level done w ∧ net.search.parents = w.parents ∧
      match net.search.found with
      | none => w.queue = []
      | some v => (∃ rest, w.queue = v :: rest) ∧ 0 < net.demand v :=
  net.sound_start.explore net.numNodes (by simp)

theorem visited_iff_reached {net : Network} {level : Nat → Nat} {done : List Nat} {w : Frontier}
    (hs : Frontier.Sound net level done w) (hp : net.search.parents = w.parents) (v : Nat) :
    net.search.visited v = true ↔ v ∈ done ++ w.queue := by
  rw [← hs.reached_iff v, Search.visited, Search.parent, hp, decide_eq_true_eq]
  rfl

end Network

end FusionMove.Cut
