import FusionMove.Proofs.Cut.Augment
import Mathlib.Logic.Relation

namespace FusionMove.Cut

/-!
# The loops of a maximum flow

Three loops run inside one another: the search takes nodes from its queue, the way back follows
parents, and every turn of the outer loop pushes along one path.  Here they are relations that set
no bound on the number of steps, so that a derivation is a loop which has come to its end.

* `Network.Explores` — a search, `Search.LeadsBack` — a way back to the source; either has one end
  at most;
* `Run.Turn` — a turn of the outer loop, `Run.Stops` — how it ends;
* `Network.explores_search`, `Network.leadsBack_pathTo`, `Network.saturated_turns` — on every
  network the loops end, and with the search, the path and the run that are computed;
* `Run.augmentations_le` — every turn takes from the supply, so there are at most as many.
-/

/-! ### Searching -/

namespace Network

/-- A search from `w` comes to its end with `s`: at a node that can send to the sink, or with an
    empty queue. -/
inductive Explores (net : Network) : Frontier → Search → Prop
  | dry {w : Frontier} : w.queue = [] → Explores net w ⟨none, w.parents⟩
  | found {w : Frontier} {u : Nat} {rest : List Nat} : w.queue = u :: rest → 0 < net.demand u →
      Explores net w ⟨some u, w.parents⟩
  | step {w : Frontier} {u : Nat} {rest : List Nat} {s : Search} : w.queue = u :: rest →
      net.demand u ≤ 0 → Explores net (net.expand ⟨rest, w.parents⟩ u) s → Explores net w s

variable {net : Network}

/-- A search has one end at most. -/
theorem Explores.unique {w : Frontier} {s s' : Search} (h : net.Explores w s)
    (h' : net.Explores w s') : s' = s := by
  induction h with
  | dry hq =>
    cases h' with
    | dry => rfl
    | found hq' => exact absurd (hq.symm.trans hq') (by simp)
    | step hq' => exact absurd (hq.symm.trans hq') (by simp)
  | found hq hpos =>
    cases h' with
    | dry hq' => exact absurd (hq'.symm.trans hq) (by simp)
    | found hq' =>
      obtain ⟨rfl, -⟩ := List.cons.inj (hq.symm.trans hq')
      rfl
    | step hq' hle =>
      obtain ⟨rfl, -⟩ := List.cons.inj (hq.symm.trans hq')
      exact absurd hpos (Int.not_lt.mpr hle)
  | step hq hle _ ih =>
    cases h' with
    | dry hq' => exact absurd (hq'.symm.trans hq) (by simp)
    | found hq' hpos =>
      obtain ⟨rfl, -⟩ := List.cons.inj (hq.symm.trans hq')
      exact absurd hpos (Int.not_lt.mpr hle)
    | step hq' _ h' =>
      obtain ⟨rfl, rfl⟩ := List.cons.inj (hq.symm.trans hq')
      exact ih h'

end Network

/-- The parents lead from `v` back to a node that was reached straight from the source. -/
inductive Search.LeadsBack (s : Search) : Nat → Path → Prop
  | source {v : Nat} : s.parent v = .source → LeadsBack s v ⟨v, []⟩
  | exchange {v u c p q : Nat} {path : Path} : s.parent v = .exchange u c p q →
      LeadsBack s u path → LeadsBack s v ⟨path.first, ⟨c, p, q, v⟩ :: path.arcs⟩

/-- A way back has one end at most. -/
theorem Search.LeadsBack.unique {s : Search} {v : Nat} {path path' : Path}
    (h : s.LeadsBack v path) (h' : s.LeadsBack v path') : path' = path := by
  induction h generalizing path' with
  | source hv =>
    cases h' with
    | source => rfl
    | exchange hv' => exact Parent.noConfusion (hv.symm.trans hv')
  | exchange hv _ ih =>
    cases h' with
    | source hv' => exact Parent.noConfusion (hv.symm.trans hv')
    | exchange hv' h' =>
      obtain ⟨rfl, rfl, rfl, rfl⟩ := Parent.exchange.inj (hv.symm.trans hv')
      rw [ih h']

namespace Frontier.Sound

variable {net : Network} {level : Nat → Nat} {done : List Nat} {w : Frontier}

/-- No node enters the queue twice, so a sound search needs no more steps than the network has
    nodes left. -/
theorem explores (fuel : Nat) (hs : Sound net level done w)
    (hfuel : net.numNodes ≤ fuel + done.length) : net.Explores w (net.explore fuel w) := by
  induction fuel generalizing level done w with
  | zero =>
    have hlen := hs.length_le
    rw [List.length_append] at hlen
    exact .dry (List.length_eq_zero_iff.mp (by omega))
  | succ fuel ih =>
    rw [Network.explore]
    split
    · rename_i hq
      exact .dry hq
    · rename_i u rest hq
      split
      · rename_i hpos
        exact .found hq hpos
      · rename_i hpos
        obtain ⟨level', hs'⟩ := hs.expand hq (by omega)
        refine .step hq (by omega) (ih hs' ?_)
        simp only [List.length_append, List.length_singleton]
        omega

/-- Every parent lies one level lower, so the way back ends at a start after as many steps as the
    level says. -/
theorem leadsBack (hs : Sound net level done w) {s : Search} (hp : s.parents = w.parents)
    (fuel : Nat) {v : Nat} (hv : v ∈ done ++ w.queue) (hlevel : level v ≤ fuel) :
    s.LeadsBack v (s.trace fuel v) := by
  have hparent : ∀ v, s.parent v = w.parent v := fun v => by
    rw [Search.parent, Frontier.parent, hp]
  induction fuel generalizing v with
  | zero =>
    cases hpar : w.parent v with
    | unvisited => exact absurd hpar ((hs.reached_iff v).mpr hv)
    | source => exact .source ((hparent v).trans hpar)
    | exchange u c p q =>
      obtain ⟨-, -, hstep⟩ := hs.exchange v u c p q hpar
      omega
  | succ fuel ih =>
    rw [Search.trace, hparent]
    cases hpar : w.parent v with
    | unvisited => exact absurd hpar ((hs.reached_iff v).mpr hv)
    | source => exact .source ((hparent v).trans hpar)
    | exchange u c p q =>
      obtain ⟨hu, -, hstep⟩ := hs.exchange v u c p q hpar
      exact .exchange ((hparent v).trans hpar) (ih (List.mem_append_left _ hu) (by omega))

end Frontier.Sound

namespace Network

/-- The search comes to its end. -/
theorem explores_search (net : Network) : net.Explores net.start net.search :=
  net.sound_start.explores net.numNodes (by simp)

/-- Where it has found a node, the parents lead back to the source. -/
theorem leadsBack_pathTo {net : Network} {sink : Nat} (hfound : net.search.found = some sink) :
    net.search.LeadsBack sink (net.search.pathTo sink) := by
  obtain ⟨level, done, w, hs, hp, hend⟩ := net.search_sound
  rw [hfound] at hend
  obtain ⟨⟨rest, hq⟩, -⟩ := hend
  have hv : sink ∈ done ++ w.queue := by simp [hq]
  have hlevel := hs.level_le sink hv
  have hlen := hs.length_le
  rw [List.length_append] at hlen
  exact hs.leadsBack hp _ hv (by rw [hp, hs.size_eq]; omega)

end Network

/-! ### Turns of the outer loop -/

namespace Run

/-- A turn: a path is found, and what it carries is pushed. -/
inductive Turn (r : Run) : Run → Prop
  | push {s : Search} {sink : Nat} {path : Path} : r.network.Explores r.network.start s →
      s.found = some sink → s.LeadsBack sink path → 0 < r.network.room path sink →
      Turn r (r.push path sink (r.network.room path sink))

/-- The end: no path is found, or one that carries nothing. -/
inductive Stops (r : Run) : Run → Prop
  | dry {s : Search} : r.network.Explores r.network.start s → s.found = none → Stops r r
  | stuck {s : Search} {sink : Nat} {path : Path} : r.network.Explores r.network.start s →
      s.found = some sink → s.LeadsBack sink path → r.network.room path sink ≤ 0 →
      Stops r { r with events := r.events ++ [.noCapacity sink r.flow] }

/-- A turn pushes along the path of the search that is computed. -/
theorem turn_iff {r r' : Run} : r.Turn r' ↔ ∃ sink, r.network.search.found = some sink ∧
    0 < r.network.room (r.network.search.pathTo sink) sink ∧
    r' = r.push (r.network.search.pathTo sink) sink
      (r.network.room (r.network.search.pathTo sink) sink) := by
  constructor
  · rintro ⟨hs, hfound, hback, hroom⟩
    obtain rfl := r.network.explores_search.unique hs
    obtain rfl := (Network.leadsBack_pathTo hfound).unique hback
    exact ⟨_, hfound, hroom, rfl⟩
  · rintro ⟨sink, hfound, hroom, rfl⟩
    exact .push r.network.explores_search hfound (Network.leadsBack_pathTo hfound) hroom

/-- Every turn counts as an augmentation. -/
theorem Turn.augmentations_eq {r r' : Run} (h : r.Turn r') :
    r'.augmentations = r.augmentations + 1 := by
  obtain ⟨sink, -, -, rfl⟩ := turn_iff.mp h
  rfl

/-- Every turn takes from the supply. -/
theorem Turn.totalSupply_lt {r r' : Run} (h : r.Turn r') :
    r'.network.totalSupply < r.network.totalSupply := by
  obtain ⟨sink, hfound, hroom, rfl⟩ := turn_iff.mp h
  have hcarries := r.network.le_room_iff (r.network.search.pathTo sink) sink
  exact Network.totalSupply_push sink (Network.traced_search hfound).1.isStart_first hroom
    ((hcarries _).mp (Int.le_refl _)).1.2

/-- With fuel for its supply, a run goes through turns and stops. -/
theorem saturate_turns (fuel : Nat) (r : Run) (hfuel : r.network.totalSupply ≤ fuel) :
    ∃ r', Relation.ReflTransGen Turn r r' ∧ r'.Stops (r.saturate fuel) := by
  induction fuel generalizing r with
  | zero =>
    have hfound := Network.found_eq_none (Nat.le_zero.mp hfuel)
    exact ⟨r, .refl, .dry r.network.explores_search hfound⟩
  | succ fuel ih =>
    rw [saturate]
    cases hfound : r.network.search.found with
    | none => exact ⟨r, .refl, .dry r.network.explores_search hfound⟩
    | some sink =>
      dsimp only
      split
      · rename_i hroom
        exact ⟨r, .refl, .stuck r.network.explores_search hfound
          (Network.leadsBack_pathTo hfound) hroom⟩
      · rename_i hroom
        have hturn := turn_iff.mpr ⟨sink, hfound, Int.not_le.mp hroom, rfl⟩
        obtain ⟨r', hturns, hstops⟩ := ih _
          (Nat.le_of_lt_succ (Nat.lt_of_lt_of_le hturn.totalSupply_lt hfuel))
        exact ⟨r', .head hturn hturns, hstops⟩

/-- There are at most as many augmentations as units in the supply. -/
theorem augmentations_le {net : Network} {r : Run}
    (h : Relation.ReflTransGen Turn (start net) r) : r.augmentations ≤ net.totalSupply := by
  have hsum : r.augmentations + r.network.totalSupply
      ≤ (start net).augmentations + (start net).network.totalSupply := by
    induction h with
    | refl => exact Nat.le_refl _
    | tail _ hturn ih =>
      have heq := hturn.augmentations_eq
      have hless := hturn.totalSupply_lt
      omega
  have hzero : (start net).augmentations = 0 := rfl
  have hnet : (start net).network = net := rfl
  rw [hzero, hnet] at hsum
  omega

end Run

/-- The run to a maximum flow is one of turns, and the loop stops with it. -/
theorem Network.saturated_turns (net : Network) :
    ∃ r, Relation.ReflTransGen Run.Turn (Run.start net) r ∧ r.Stops net.saturated :=
  Run.saturate_turns _ _ (Nat.le_refl _)

end FusionMove.Cut
