import FusionMove.Proofs.Solver.BoundValue
import FusionMove.Proofs.Solver.Potts
import Mathlib.Data.List.Induction
import Mathlib.Data.List.Nodup

namespace FusionMove

/-!
# What settling triples leaves behind

A lower bound settles the triples of energy zero one after the other, in increasing order: the
excess of a triple goes onto the dual of the first member whose label is not the current one.  Call
this member and its label the *pivot* of the triple.  Other triples of the clique share the dual of
the pivot, so settling one of them may undo what was done before.

How far this goes is a matter of order.  After a triple that rises above the current labels at its
pivot no other triple has a pivot further on, so only the pivot itself can move again.  Before a
triple that falls below them none has, so what follows its pivot has not moved yet when it is
settled.

* `Certificate.settleAll` — what a lower bound makes of the certificate,
  `Solver.lowerBound_settleAll`;
* `Certificate.Settlement` — the duals of a clique after some of its triples, `Settlement.succ` —
  after one more, `Certificate.Shaped.settlement` — after all triples of all cliques;
* `Solver.lowerBound_settles` — so a triple of energy zero ends tight if no later one has its pivot
  in it, and all of them do if they differ in the labels of all members, as in a Potts clique;
* `Solver.lowerBound_unsettles` — otherwise they may not, and the value may be no bound.
-/

open FusionMove.Action

/-! ### The order of the triples -/

/-- Before the first difference there is none. -/
theorem eq_of_lt_firstDifference {xs ys : List Nat} {i q : Nat}
    (h : firstDifference xs ys = some i) (hq : q < i) : xs.getD q 0 = ys.getD q 0 := by
  unfold firstDifference at h
  simpa using (List.find?_range_eq_some.mp h).2.2 q hq

/-- At the first member at which they differ, `z` has the lower label. -/
def Before (z w : List Nat) : Prop :=
  ∃ p, (∀ q < p, z.getD q 0 = w.getD q 0) ∧ z.getD p 0 < w.getD p 0

theorem Before.ne {z w : List Nat} (h : Before z w) : z ≠ w := by
  rintro rfl
  obtain ⟨p, -, hlt⟩ := h
  exact Nat.lt_irrefl _ hlt

/-- Up to where they agree, the first of two triples has no higher label. -/
theorem Before.getD_le {z w : List Nat} (h : Before z w) {k : Nat}
    (hk : ∀ q < k, z.getD q 0 = w.getD q 0) : z.getD k 0 ≤ w.getD k 0 := by
  obtain ⟨p, hp, hlt⟩ := h
  rcases Nat.lt_trichotomy k p with hkp | rfl | hkp
  · exact Nat.le_of_eq (hp k hkp)
  · exact Nat.le_of_lt hlt
  · exact absurd hlt (by rw [hk p hkp]; exact Nat.lt_irrefl _)

/-- Of two different triples one comes before the other. -/
theorem before_or_before {z w : List Nat} (hlen : z.length = w.length) (hne : z ≠ w) :
    Before z w ∨ Before w z := by
  cases hdiff : firstDifference z w with
  | none => exact absurd (eq_of_firstDifference_eq_none hlen hdiff) hne
  | some p =>
    have hbelow : ∀ q < p, z.getD q 0 = w.getD q 0 := fun q => eq_of_lt_firstDifference hdiff
    rcases Nat.lt_or_gt_of_ne (firstDifference_eq_some hdiff).2 with hlt | hlt
    · exact .inl ⟨p, hbelow, hlt⟩
    · exact .inr ⟨p, fun q hq => (hbelow q hq).symm, hlt⟩

/-- The triples are listed in this order. -/
theorem triples_pairwise (numLabels : Nat) : (triples numLabels).Pairwise Before := by
  refine List.pairwise_flatMap.mpr ⟨fun a _ => List.pairwise_flatMap.mpr ⟨fun b _ => ?_, ?_⟩, ?_⟩
  · exact List.pairwise_map.mpr (List.pairwise_lt_range.imp fun hlt =>
      ⟨2, by rintro (_ | _ | q) hq <;> first | rfl | omega, hlt⟩)
  · refine List.pairwise_lt_range.imp fun hlt z hz w hw => ?_
    obtain ⟨d, -, rfl⟩ := List.mem_map.mp hz
    obtain ⟨d', -, rfl⟩ := List.mem_map.mp hw
    exact ⟨1, by rintro (_ | q) hq <;> first | rfl | omega, hlt⟩
  · refine List.pairwise_lt_range.imp fun hlt z hz w hw => ?_
    obtain ⟨b, -, hz⟩ := List.mem_flatMap.mp hz
    obtain ⟨b', -, hw⟩ := List.mem_flatMap.mp hw
    obtain ⟨d, -, rfl⟩ := List.mem_map.mp hz
    obtain ⟨d', -, rfl⟩ := List.mem_map.mp hw
    exact ⟨0, fun q hq => absurd hq (Nat.not_lt_zero q), hlt⟩

/-- A triple that falls below the current labels at its first difference has none before it that
    differs later. -/
theorem Before.firstDifference_le_of_lt {v w current : List Nat} (h : Before v w) {j k : Nat}
    (hv : firstDifference v current = some j) (hw : firstDifference w current = some k)
    (hlt : w.getD k 0 < current.getD k 0) : j ≤ k := by
  by_contra hkj
  have hvk : v.getD k 0 = current.getD k 0 := eq_of_lt_firstDifference hv (by omega)
  have hle := h.getD_le (k := k) fun q hq => by
    rw [eq_of_lt_firstDifference hv (by omega), eq_of_lt_firstDifference hw hq]
  omega

/-- A triple that rises above the current labels at its first difference has none after it that
    differs later. -/
theorem Before.firstDifference_le_of_gt {z w current : List Nat} (h : Before z w) {i k : Nat}
    (hz : firstDifference z current = some i) (hw : firstDifference w current = some k)
    (hgt : current.getD i 0 < z.getD i 0) : k ≤ i := by
  by_contra hik
  have hwi : w.getD i 0 = current.getD i 0 := eq_of_lt_firstDifference hw (by omega)
  have hle := h.getD_le (k := i) fun q hq => by
    rw [eq_of_lt_firstDifference hz hq, eq_of_lt_firstDifference hw (by omega)]
  omega

/-! ### Settling one triple -/

/-- Settling the triple `w` moves the dual of member `i` at label `l`. -/
def Clique.Pivots (clique : Clique) (current w : List Nat) (i l : Nat) : Prop :=
  clique.energy w = 0 ∧ firstDifference w current = some i ∧ w.getD i 0 = l

instance (clique : Clique) (current w : List Nat) (i l : Nat) :
    Decidable (clique.Pivots current w i l) :=
  inferInstanceAs (Decidable (_ ∧ _ ∧ _))

/-- A triple has one pivot at most. -/
theorem Clique.Pivots.unique {clique : Clique} {current w : List Nat} {i j l l' : Nat}
    (h : clique.Pivots current w i l) (h' : clique.Pivots current w j l') : i = j :=
  Option.some.inj (h.2.1.symm.trans h'.2.1)

/-- The labels of a triple are in range. -/
theorem getD_lt_of_mem_triples {numLabels : Nat} {z : List Nat} (hz : z ∈ triples numLabels)
    {j : Nat} (hj : j < 3) : z.getD j 0 < numLabels := by
  obtain ⟨hlen, hlabels⟩ := mem_triples.mp hz
  rw [List.getD_eq_getElem?_getD, List.getElem?_eq_getElem (by omega)]
  exact hlabels _ (List.getElem_mem _)

namespace Certificate

variable {m : Model} {t₀ t : Certificate} {c : Nat} {clique : Clique} {current w z : List Nat}

/-- The certificate with the excess of a triple of energy zero moved onto its pivot. -/
def settleTriple (t : Certificate) (c : Nat) (clique : Clique) (current w : List Nat) :
    Certificate :=
  if clique.energy w = 0 then
    match firstDifference w current with
    | some i => t.shift c i (clique.nodes.getD i 0) (w.getD i 0) (-t.dualSum c w)
    | none => t
  else t

/-- What settling the triple `w` adds to the dual of member `i` at label `l`. -/
def adjustment (t : Certificate) (c : Nat) (clique : Clique) (current w : List Nat) (i l : Nat) :
    Int :=
  if clique.Pivots current w i l then -t.dualSum c w else 0

/-- What the duals of `z` at the members after `i` have gained from `t₀` to `t`. -/
def gain (t₀ t : Certificate) (c : Nat) (z : List Nat) (i : Nat) : Int :=
  sumTo z.length fun j =>
    if i < j then t.dual.get c j (z.getD j 0) - t₀.dual.get c j (z.getD j 0) else 0

/-- Duals that have not changed have gained nothing. -/
theorem gain_eq_zero {i : Nat} (h : ∀ j < z.length, i < j →
    t.dual.get c j (z.getD j 0) = t₀.dual.get c j (z.getD j 0)) : gain t₀ t c z i = 0 := by
  rw [gain, sumTo_congr (g := fun _ => 0) fun j hj => ?_, sumTo_const_zero]
  split
  · rename_i hij
    rw [h j hj hij, Int.sub_self]
  · rfl

/-- Settling a triple adjusts the duals of its clique and no others. -/
theorem Shaped.settleTriple (hs : t.Shaped m) (hclique : m.cliques[c]? = some clique)
    (hsize : clique.size = 3) (hw : w ∈ triples m.numLabels) (current : List Nat) :
    (t.settleTriple c clique current w).Shaped m ∧
      ∀ c' i l, m.HasCell c' i l → (t.settleTriple c clique current w).dual.get c' i l
        = t.dual.get c' i l + if c = c' then t.adjustment c clique current w i l else 0 := by
  unfold Certificate.settleTriple adjustment
  split
  · rename_i hzero
    cases hdiff : firstDifference w current with
    | none =>
      refine ⟨hs, fun c' i l _ => ?_⟩
      rw [if_neg fun hpivot : clique.Pivots current w i l =>
        absurd (hdiff.symm.trans hpivot.2.1) (by simp), ite_self, Int.add_zero]
    | some k =>
      have hk : k < 3 := (mem_triples.mp hw).1 ▸ (firstDifference_eq_some hdiff).1
      refine ⟨hs.shift _ _ _ _ _, fun c' i l hcell => ?_⟩
      have hpivots : clique.Pivots current w i l ↔ k = i ∧ w.getD k 0 = l := by
        unfold Clique.Pivots
        constructor
        · rintro ⟨-, hpivot, hl⟩
          obtain rfl := Option.some.inj (hdiff.symm.trans hpivot)
          exact ⟨rfl, hl⟩
        · rintro ⟨rfl, hl⟩
          exact ⟨hzero, hdiff, hl⟩
      rw [hs.get_shift_dual ⟨clique, hclique, by omega, getD_lt_of_mem_triples hw hk⟩ hcell,
        ite_and]
      simp only [hpivots]
  · rename_i hne
    refine ⟨hs, fun c' i l _ => ?_⟩
    rw [if_neg fun hpivot : clique.Pivots current w i l => hne hpivot.1, ite_self, Int.add_zero]

section

variable (hs : t.Shaped m) (hclique : m.cliques[c]? = some clique) (hsize : clique.size = 3)
  (hw : w ∈ triples m.numLabels)
include hs hclique hsize hw

theorem get_settleTriple (current : List Nat) {i l : Nat} (hi : i < 3) (hl : l < m.numLabels) :
    (t.settleTriple c clique current w).dual.get c i l
      = t.dual.get c i l + t.adjustment c clique current w i l := by
  have hcell : m.HasCell c i l := ⟨clique, hclique, by omega, hl⟩
  rw [(hs.settleTriple hclique hsize hw current).2 c i l hcell, if_pos rfl]

/-- What a dual sum changes by. -/
theorem dualSum_settleTriple (current : List Nat) (hz : z ∈ triples m.numLabels) :
    (t.settleTriple c clique current w).dualSum c z
      = t.dualSum c z + sumTo 3 fun j => t.adjustment c clique current w j (z.getD j 0) := by
  rw [dualSum, dualSum, (mem_triples.mp hz).1, ← sumTo_add]
  exact sumTo_congr fun j hj =>
    get_settleTriple hs hclique hsize hw current hj (getD_lt_of_mem_triples hz hj)

/-- What a gain changes by. -/
theorem gain_settleTriple (current : List Nat) (hz : z ∈ triples m.numLabels) (i : Nat) :
    gain t₀ (t.settleTriple c clique current w) c z i = gain t₀ t c z i
      + sumTo 3 fun j => if i < j then t.adjustment c clique current w j (z.getD j 0) else 0 := by
  rw [gain, gain, (mem_triples.mp hz).1, ← sumTo_add]
  refine sumTo_congr fun j hj => ?_
  rw [get_settleTriple hs hclique hsize hw current hj (getD_lt_of_mem_triples hz hj)]
  split
  · omega
  · rfl

/-- A triple with a pivot has the dual sum zero once it is settled. -/
theorem dualSum_settleTriple_self {i : Nat} (hpivot : clique.Pivots current w i (w.getD i 0)) :
    (t.settleTriple c clique current w).dualSum c w = 0 := by
  have hi : i < 3 := (mem_triples.mp hw).1 ▸ (firstDifference_eq_some hpivot.2.1).1
  have hself : ∀ j < 3, t.adjustment c clique current w j (w.getD j 0)
      = if i = j then -t.dualSum c w else 0 := by
    intro j _
    unfold adjustment
    have hiff : clique.Pivots current w j (w.getD j 0) ↔ i = j :=
      ⟨hpivot.unique, fun h => h ▸ hpivot⟩
    simp only [hiff]
  rw [dualSum_settleTriple hs hclique hsize hw current hw, sumTo_congr hself,
    sumTo_single 3 i fun _ => -t.dualSum c w, if_pos hi]
  omega

end

/-! ### Settling the triples of a clique -/

/-- What settling the triples `seen` of a clique in their order makes of its duals.  What is no
    pivot stays.  The last triple with a given pivot ends tight if it is above the current labels,
    and otherwise with what the members after the pivot have gained. -/
structure Settlement (c : Nat) (clique : Clique) (current : List Nat) (numLabels : Nat)
    (t₀ t : Certificate) (seen : List (List Nat)) : Prop where
  get_eq : ∀ i < 3, ∀ l < numLabels, (∀ w ∈ seen, ¬ clique.Pivots current w i l) →
    t.dual.get c i l = t₀.dual.get c i l
  dualSum_eq : ∀ z ∈ seen, ∀ i, clique.Pivots current z i (z.getD i 0) →
    (∀ w ∈ seen, Before z w → ¬ clique.Pivots current w i (z.getD i 0)) →
    t.dualSum c z = if z.getD i 0 < current.getD i 0 then gain t₀ t c z i else 0

/-- Where a later triple `w` moves a dual of `z`, it moves one after the pivot of `z`, and `z` is
    below the current labels there. -/
theorem pivot_lt_of_before {i j : Nat} (hzw : Before z w)
    (hz : clique.Pivots current z i (z.getD i 0)) (hnot : ¬ clique.Pivots current w i (z.getD i 0))
    (hw : clique.Pivots current w j (z.getD j 0)) : i < j ∧ z.getD i 0 < current.getD i 0 := by
  obtain ⟨-, hzdiff, -⟩ := hz
  obtain ⟨-, hwdiff, hlabel⟩ := id hw
  have hne : j ≠ i := by
    rintro rfl
    exact hnot hw
  have hij : i < j := by
    by_contra hji
    refine (firstDifference_eq_some hwdiff).2 ?_
    rw [hlabel, eq_of_lt_firstDifference hzdiff (by omega)]
  refine ⟨hij, ?_⟩
  by_contra hge
  have hne := (firstDifference_eq_some hzdiff).2
  have := hzw.firstDifference_le_of_gt hzdiff hwdiff (by omega)
  omega

/-- No triple up to `z` has its pivot after that of `z`, if `z` is below the current labels
    there. -/
theorem pivot_le_of_before_or_eq {i j l : Nat} (hwz : Before w z ∨ w = z)
    (hz : clique.Pivots current z i (z.getD i 0)) (hlow : z.getD i 0 < current.getD i 0)
    (hw : clique.Pivots current w j l) : j ≤ i := by
  rcases hwz with hwz | rfl
  · exact hwz.firstDifference_le_of_lt hw.2.1 hz.2.1 hlow
  · exact (hw.unique hz).le

/-- Settling `w` adds to the dual sum of an earlier triple what it adds to the gain, or nothing. -/
theorem dualSum_settleTriple_of_before (hs : t.Shaped m) (hclique : m.cliques[c]? = some clique)
    (hsize : clique.size = 3) (hw : w ∈ triples m.numLabels) (hz : z ∈ triples m.numLabels)
    (hzw : Before z w) {i : Nat} (hpivot : clique.Pivots current z i (z.getD i 0))
    (hnot : ¬ clique.Pivots current w i (z.getD i 0))
    (h : t.dualSum c z = if z.getD i 0 < current.getD i 0 then gain t₀ t c z i else 0) :
    (t.settleTriple c clique current w).dualSum c z
      = if z.getD i 0 < current.getD i 0 then gain t₀ (t.settleTriple c clique current w) c z i
        else 0 := by
  have hmoves := fun j => pivot_lt_of_before (j := j) hzw hpivot hnot
  rw [dualSum_settleTriple hs hclique hsize hw current hz,
    gain_settleTriple hs hclique hsize hw current hz, h]
  unfold adjustment
  split
  · congr 1
    refine sumTo_congr fun j _ => ?_
    by_cases hwpivot : clique.Pivots current w j (z.getD j 0)
    · rw [if_pos (hmoves j hwpivot).1]
    · rw [if_neg hwpivot, ite_self]
  · rename_i hge
    rw [sumTo_congr (g := fun _ => 0) fun j _ => if_neg fun hwpivot => hge (hmoves j hwpivot).2,
      sumTo_const_zero, Int.add_zero]

/-- One more triple, after all those that have been settled. -/
theorem Settlement.succ {seen : List (List Nat)}
    (h : Settlement c clique current m.numLabels t₀ t seen) (hs : t.Shaped m)
    (hclique : m.cliques[c]? = some clique) (hsize : clique.size = 3)
    (hseen : ∀ z ∈ seen, z ∈ triples m.numLabels ∧ Before z w) (hw : w ∈ triples m.numLabels) :
    Settlement c clique current m.numLabels t₀ (t.settleTriple c clique current w)
      (seen ++ [w]) := by
  have hget : ∀ i < 3, ∀ l < m.numLabels,
      (∀ v ∈ seen ++ [w], ¬ clique.Pivots current v i l) →
      (t.settleTriple c clique current w).dual.get c i l = t₀.dual.get c i l := by
    intro i hi l hl hmoved
    rw [get_settleTriple hs hclique hsize hw current hi hl, adjustment,
      if_neg (hmoved w (by simp)), Int.add_zero]
    exact h.get_eq i hi l hl fun v hv => hmoved v (by simp [hv])
  refine ⟨hget, fun z hz i hpivot hlast => ?_⟩
  rcases List.mem_append.mp hz with hz | hz
  · obtain ⟨hztriples, hzw⟩ := hseen z hz
    exact dualSum_settleTriple_of_before hs hclique hsize hw hztriples hzw hpivot
      (hlast w (by simp) hzw) (h.dualSum_eq z hz i hpivot fun v hv => hlast v (by simp [hv]))
  · obtain rfl := List.mem_singleton.mp hz
    have hlen := (mem_triples.mp hw).1
    rw [dualSum_settleTriple_self hs hclique hsize hw hpivot]
    split
    · rename_i hlow
      -- no triple so far has its pivot in this one after the pivot of this one
      refine (gain_eq_zero fun j hj hij => ?_).symm
      refine hget j (hlen ▸ hj) _ (getD_lt_of_mem_triples hw (hlen ▸ hj)) fun v hv hp => ?_
      have hvz : Before v z ∨ v = z :=
        (List.mem_append.mp hv).imp (fun hv => (hseen v hv).2) List.mem_singleton.mp
      have := pivot_le_of_before_or_eq hvz hpivot hlow hp
      omega
    · rfl

/-- Settle all triples of a clique. -/
def settleClique (t : Certificate) (numLabels c : Nat) (clique : Clique) (current : List Nat) :
    Certificate :=
  (triples numLabels).foldl (fun t w => t.settleTriple c clique current w) t

theorem Shaped.settleClique (hs : t.Shaped m) (hclique : m.cliques[c]? = some clique)
    (hsize : clique.size = 3) (current : List Nat) :
    (t.settleClique m.numLabels c clique current).Shaped m ∧
      (∀ c' i l, m.HasCell c' i l → c ≠ c' →
        (t.settleClique m.numLabels c clique current).dual.get c' i l = t.dual.get c' i l) ∧
      Settlement c clique current m.numLabels t (t.settleClique m.numLabels c clique current)
        (triples m.numLabels) := by
  suffices key : ∀ seen, seen <+: triples m.numLabels →
      let t' := seen.foldl (fun t w => t.settleTriple c clique current w) t
      t'.Shaped m ∧ (∀ c' i l, m.HasCell c' i l → c ≠ c' → t'.dual.get c' i l = t.dual.get c' i l) ∧
        Settlement c clique current m.numLabels t t' seen from key _ (List.prefix_refl _)
  intro seen
  induction seen using List.reverseRecOn with
  | nil => exact fun _ => ⟨hs, fun _ _ _ _ _ => rfl, fun _ _ _ _ _ => rfl, by simp⟩
  | append_singleton seen w ih =>
    intro hinit
    obtain ⟨hs', hother, hsettled⟩ := ih ((List.prefix_append seen [w]).trans hinit)
    have hw : w ∈ triples m.numLabels := hinit.subset (by simp)
    have hbefore := (List.pairwise_append.mp
      ((triples_pairwise m.numLabels).sublist hinit.sublist)).2.2
    obtain ⟨hs'', hget⟩ := hs'.settleTriple hclique hsize hw current
    rw [List.foldl_append]
    refine ⟨hs'', fun c' i l hcell hne => ?_, hsettled.succ hs' hclique hsize
      (fun z hz => ⟨hinit.subset (by simp [hz]), hbefore z hz w (by simp)⟩) hw⟩
    rw [← hother c' i l hcell hne]
    exact (hget c' i l hcell).trans (by rw [if_neg hne, Int.add_zero])

/-! ### Settling all cliques -/

/-- Settle all triples of all cliques, at the labeling `x`. -/
def settleAll (t : Certificate) (m : Model) (x : Nat → Nat) : Certificate :=
  m.cliques.zipIdx.foldl (fun t p => t.settleClique m.numLabels p.2 p.1 (p.1.labelsAt x)) t

/-- What settling does to a clique is a matter of the clique's own duals. -/
theorem Settlement.congr {numLabels : Nat} {t₀' t' : Certificate}
    (h : Settlement c clique current numLabels t₀ t (triples numLabels))
    (h₀ : ∀ i < 3, ∀ l < numLabels, t₀.dual.get c i l = t₀'.dual.get c i l)
    (h' : ∀ i < 3, ∀ l < numLabels, t'.dual.get c i l = t.dual.get c i l) :
    Settlement c clique current numLabels t₀' t' (triples numLabels) := by
  refine ⟨fun i hi l hl hmoved => ?_, fun z hz i hpivot hlast => ?_⟩
  · rw [h' i hi l hl, h.get_eq i hi l hl hmoved, h₀ i hi l hl]
  · have hlen := (mem_triples.mp hz).1
    have hsum : t'.dualSum c z = t.dualSum c z := by
      rw [dualSum, dualSum, hlen]
      exact sumTo_congr fun j hj => h' j hj _ (getD_lt_of_mem_triples hz hj)
    have hgain : gain t₀' t' c z i = gain t₀ t c z i := by
      rw [gain, gain, hlen]
      refine sumTo_congr fun j hj => ?_
      rw [h' j hj _ (getD_lt_of_mem_triples hz hj), h₀ j hj _ (getD_lt_of_mem_triples hz hj)]
    rw [hsum, hgain]
    exact h.dualSum_eq z hz i hpivot hlast

/-- Settling other cliques leaves the duals of a clique alone. -/
theorem Shaped.settleOthers (hsize : ∀ clique ∈ m.cliques, clique.size = 3) (x : Nat → Nat)
    {others : List (Clique × Nat)} (h : ∀ p ∈ others, m.cliques[p.2]? = some p.1 ∧ p.2 ≠ c)
    (hs : t.Shaped m) :
    let t' := others.foldl (fun t p => t.settleClique m.numLabels p.2 p.1 (p.1.labelsAt x)) t
    t'.Shaped m ∧ ∀ i l, m.HasCell c i l → t'.dual.get c i l = t.dual.get c i l := by
  induction others generalizing t with
  | nil => exact ⟨hs, fun _ _ _ => rfl⟩
  | cons p others ih =>
    obtain ⟨hclique, hne⟩ := h p (by simp)
    obtain ⟨hs₁, hother, -⟩ := hs.settleClique hclique (hsize _ (List.mem_of_getElem? hclique))
      (p.1.labelsAt x)
    obtain ⟨hs₂, hget⟩ := ih (fun q hq => h q (by simp [hq])) hs₁
    exact ⟨hs₂, fun i l hcell => (hget i l hcell).trans (hother c i l hcell hne)⟩

/-- An entry of a list and its place, among the others at other places. -/
private theorem exists_zipIdx_eq_append {α : Type} {l : List α} {a : α} {c : Nat}
    (h : l[c]? = some a) : ∃ before after, l.zipIdx = before ++ (a, c) :: after ∧
      (∀ p ∈ before, l[p.2]? = some p.1 ∧ p.2 ≠ c) ∧
      ∀ p ∈ after, l[p.2]? = some p.1 ∧ p.2 ≠ c := by
  obtain ⟨before, after, hsplit⟩ := List.append_of_mem
    (List.mem_zipIdx_iff_getElem?.mpr h : (a, c) ∈ l.zipIdx)
  have hnodup : ((before ++ (a, c) :: after).map Prod.snd).Nodup := by
    rw [← hsplit, List.zipIdx_map_snd]
    exact List.nodup_range'
  rw [List.map_append, List.map_cons, List.nodup_middle, List.nodup_cons, ← List.map_append]
    at hnodup
  have hothers : ∀ p ∈ before ++ after, l[p.2]? = some p.1 ∧ p.2 ≠ c := by
    refine fun p hp => ⟨List.mem_zipIdx_iff_getElem?.mp ?_, fun heq => hnodup.1 ?_⟩
    · rw [hsplit]
      rcases List.mem_append.mp hp with hp | hp <;> simp [hp]
    · exact List.mem_map.mpr ⟨p, hp, heq⟩
  exact ⟨before, after, hsplit, fun p hp => hothers p (List.mem_append_left _ hp),
    fun p hp => hothers p (List.mem_append_right _ hp)⟩

/-- Each clique is settled as if there were no other. -/
theorem Shaped.settlement (hs : t.Shaped m) (hsize : ∀ clique ∈ m.cliques, clique.size = 3)
    (x : Nat → Nat) (hclique : m.cliques[c]? = some clique) :
    Settlement c clique (clique.labelsAt x) m.numLabels t (t.settleAll m x)
      (triples m.numLabels) := by
  obtain ⟨before, after, hsplit, hbefore, hafter⟩ := exists_zipIdx_eq_append hclique
  have hthree := hsize _ (List.mem_of_getElem? hclique)
  have hcell : ∀ i < 3, ∀ l < m.numLabels, m.HasCell c i l := fun i hi l hl =>
    ⟨clique, hclique, by omega, hl⟩
  obtain ⟨hs₁, hget₁⟩ := hs.settleOthers hsize x hbefore
  obtain ⟨hs₂, -, hsettled⟩ := hs₁.settleClique hclique hthree (clique.labelsAt x)
  obtain ⟨-, hget₂⟩ := hs₂.settleOthers hsize x hafter
  rw [settleAll, hsplit, List.foldl_append, List.foldl_cons]
  exact hsettled.congr (fun i hi l hl => hget₁ i l (hcell i hi l hl))
    fun i hi l hl => hget₂ i l (hcell i hi l hl)

end Certificate

namespace Solver

variable {σ τ : Type} {m : Model} {s : Solver σ τ}

/-! ### What a lower bound does -/

section

variable {α : Type} [IntCast α] [Div α] [LE α] [DecidableLE α]

/-- A visit that succeeds settles its triple and changes nothing else. -/
theorem visitTriple_settleTriple (c : Nat) (clique : Clique) (ratio : α) (w : List Nat)
    (s : Solver σ τ) :
    Ends (visitTriple c clique ratio w) s (fun _ s' => s' = { s with
      certificate := s.certificate.settleTriple c clique (clique.labelsAt s.labeling) w })
      (fun _ _ => True) := by
  unfold visitTriple
  refine ends_bind (ends_get ?_)
  unfold Certificate.settleTriple
  dsimp only
  split
  · exact ends_fail trivial
  · split
    · unfold settle
      refine ends_bind (ends_bind (ends_get ?_))
      dsimp only
      cases firstDifference w (clique.labelsAt s.labeling) with
      | some i => exact ends_modify (ends_pure rfl)
      | none =>
        dsimp only
        split
        · exact ends_bind (ends_record (ends_fail trivial))
        · exact ends_pure (ends_pure rfl)
    · exact ends_pure rfl

theorem visitClique_settleClique (c : Nat) (clique : Clique) (ratio : α) (s : Solver σ τ) :
    Ends (visitClique ratio (clique, c)) s (fun _ s' => s' = { s with
      certificate :=
        s.certificate.settleClique s.numLabels c clique (clique.labelsAt s.labeling) })
      (fun _ _ => True) := by
  unfold visitClique
  refine ends_bind (ends_get ?_)
  refine ends_foldlM_seen (I := fun seen _ s' => s' = { s with
    certificate := seen.foldl
      (fun t w => t.settleTriple c clique (clique.labelsAt s.labeling) w) s.certificate })
    (fun seen w _ ratio' s₁ h₁ => ?_) rfl
  subst h₁
  refine (visitTriple_settleTriple c clique ratio' w _).mono_ok fun _ s₂ h₂ => ?_
  rw [h₂, List.foldl_append]
  rfl

/-- A measurement that succeeds builds the tables, if there are none, and settles all triples. -/
theorem measure_settleAll (h : Sound m s) :
    Ends (measure (α := α) m) s (fun _ s' => Certified m (ensureStarted m s).state ∧
      (∀ clique ∈ m.cliques, clique.size = 3) ∧
      s' = { (ensureStarted m s).state with
        certificate := (ensureStarted m s).state.certificate.settleAll m
          (ensureStarted m s).state.labeling })
      (fun _ _ => True) := by
  unfold measure
  refine ends_bind ((checkTriples_ends m s).mono (fun _ s₁ h₁ => ?_) fun _ _ _ => trivial)
  obtain ⟨rfl, hsize⟩ := h₁
  refine ends_bind ((ensureStarted_ends h).with_outcome.mono (fun _ s₂ h₂ => ?_)
    fun _ _ _ => trivial)
  obtain ⟨⟨-, hcert, -⟩, -, rfl⟩ := h₂
  generalize (ensureStarted m s₁).state = s₂ at hcert
  refine ends_bind ((ends_foldlM_seen (I := fun seen _ s' => s' = { s₂ with
    certificate := seen.foldl (fun t p => t.settleClique s₂.numLabels p.2 p.1
      (p.1.labelsAt s₂.labeling)) s₂.certificate })
    (fun seen p _ ratio s₃ h₃ => ?_) rfl).mono_ok fun ratio s₃ h₃ => ?_)
  · subst h₃
    refine (visitClique_settleClique p.2 p.1 ratio _).mono_ok fun _ s₄ h₄ => ?_
    rw [h₄, List.foldl_append]
    rfl
  · refine ends_bind (ends_get (ends_pure ⟨hcert, hsize, ?_⟩))
    rw [h₃, Certificate.settleAll, ← hcert.numLabels_eq]

end

/-- So does a lower bound. -/
theorem lowerBound_settleAll (h : Sound m s) :
    Ends (lowerBound m) s (fun _ s' => Certified m (ensureStarted m s).state ∧
      (∀ clique ∈ m.cliques, clique.size = 3) ∧
      s' = { (ensureStarted m s).state with
        certificate := (ensureStarted m s).state.certificate.settleAll m
          (ensureStarted m s).state.labeling })
      (fun _ _ => True) := by
  unfold lowerBound
  refine ends_bind ((measure_settleAll h).mono_ok fun b s' h' => ?_)
  split
  · exact ends_bind (ends_record (ends_pure h'))
  · exact ends_bind (ends_record (ends_pure h'))

end Solver

/-! ### Which triples end tight -/

namespace Clique

/-- Different triples of energy zero differ in the labels of all members. -/
def ZerosApart (clique : Clique) (numLabels : Nat) : Prop :=
  ∀ z ∈ triples numLabels, ∀ w ∈ triples numLabels, clique.energy z = 0 → clique.energy w = 0 →
    z ≠ w → ∀ j < 3, z.getD j 0 ≠ w.getD j 0

/-- A Potts clique with a penalty costs nothing only where all labels agree. -/
theorem zerosApart_potts (nodes : List Nat) {penalty : Int} (h : penalty ≠ 0) (numLabels : Nat) :
    (Clique.potts nodes penalty).ZerosApart numLabels := by
  have hconstant : ∀ z ∈ triples numLabels, (Clique.potts nodes penalty).energy z = 0 →
      ∃ l, z = List.replicate 3 l := by
    intro z hz hzero
    by_contra hnot
    refine h ((pottsEnergy_eq_penalty (fun hall => hnot ?_) penalty).symm.trans hzero)
    exact hall.imp fun l hl => List.eq_replicate_iff.mpr ⟨(mem_triples.mp hz).1, hl⟩
  intro z hz w hw hzero hwzero hne j hj heq
  obtain ⟨l, rfl⟩ := hconstant z hz hzero
  obtain ⟨l', rfl⟩ := hconstant w hw hwzero
  have hlabel : ∀ a, (List.replicate 3 a).getD j 0 = a := by
    intro a
    rw [List.getD_eq_getElem?_getD, List.getElem?_replicate_of_lt hj, Option.getD_some]
  rw [hlabel, hlabel] at heq
  exact hne (by rw [heq])

end Clique

namespace Certificate

variable {m : Model} {t₀ t : Certificate} {c : Nat} {clique : Clique} {current z : List Nat}

/-- A triple of energy zero that no later one has its pivot in ends tight, if the current one
    does. -/
theorem Settlement.dualSum_eq_zero
    (h : Settlement c clique current m.numLabels t₀ t (triples m.numLabels))
    (hcurrent : current.length = 3) (htight : t.dualSum c current = clique.energy current)
    (hz : z ∈ triples m.numLabels) (hzero : clique.energy z = 0)
    (hlast : ∀ w ∈ triples m.numLabels, Before z w → ∀ j < 3,
      ¬ clique.Pivots current w j (z.getD j 0)) : t.dualSum c z = 0 := by
  have hlen := (mem_triples.mp hz).1
  cases hdiff : firstDifference z current with
  | none =>
    have heq := eq_of_firstDifference_eq_none (hlen.trans hcurrent.symm) hdiff
    rw [heq, htight, ← heq, hzero]
  | some i =>
    have hi : i < 3 := hlen ▸ (firstDifference_eq_some hdiff).1
    have hpivot : clique.Pivots current z i (z.getD i 0) := ⟨hzero, hdiff, rfl⟩
    rw [h.dualSum_eq z hz i hpivot fun w hw hzw => hlast w hw hzw i hi]
    split
    · rename_i hlow
      -- what stands after the pivot of the triple has not moved at all
      refine gain_eq_zero fun j hj hij => ?_
      rw [hlen] at hj
      refine h.get_eq j hj _ (getD_lt_of_mem_triples hz hj) fun w hw hmoves => ?_
      have hwz : Before w z ∨ w = z := by
        by_contra hnot
        obtain ⟨hwz, hne⟩ := not_or.mp hnot
        have hzw := (before_or_before ((mem_triples.mp hw).1.trans hlen.symm) hne).resolve_left hwz
        exact hlast w hw hzw j hj hmoves
      have := pivot_le_of_before_or_eq hwz hpivot hlow hmoves
      omega
    · rfl

end Certificate

namespace Solver

variable {σ τ : Type} {m : Model} {s : Solver σ τ}

/-- A lower bound succeeds if its measurement does, and ends in the same state. -/
theorem lowerBound_of_measure (h : (measure (α := Float) m s).result.toBool = true) :
    (∃ bound, (lowerBound m s).result = .ok bound) ∧
      (lowerBound m s).state = (measure (α := Float) m s).state := by
  unfold lowerBound
  rw [bind_apply]
  cases hb : (measure (α := Float) m s).result with
  | error fault =>
    rw [hb] at h
    exact absurd h (by simp [Except.toBool])
  | ok b =>
    dsimp only
    split <;> exact ⟨⟨_, rfl⟩, rfl⟩

/-- Let a lower bound succeed at a state that a new solver reaches, over the certificate `t₀`, and
    let it leave `t`.  The duals of each clique have been settled.  A triple of energy zero ends
    tight if no triple after it moves one of its duals, and all of them do if they differ in the
    labels of all members. -/
theorem lowerBound_settles {o : Cut.Oracle σ} {engine : Cut.Engine σ} {config : Config}
    (hr : Reached m o (Solver.new engine config) s) {bound : Float}
    (hok : (lowerBound m s).result = .ok bound) {t₀ t : Certificate}
    (ht₀ : (ensureStarted m s).state.certificate = t₀)
    (ht : (lowerBound m s).state.certificate = t) {c : Nat} {clique : Clique}
    (hclique : m.cliques[c]? = some clique) {current : List Nat}
    (hcurrent : clique.labelsAt (lowerBound m s).state.labeling = current) :
    Certificate.Settlement c clique current m.numLabels t₀ t (triples m.numLabels) ∧
      (∀ z ∈ triples m.numLabels, clique.energy z = 0 →
        (∀ w ∈ triples m.numLabels, Before z w → ∀ j < 3,
          ¬ clique.Pivots current w j (z.getD j 0)) → t.dualSum c z = 0) ∧
      (clique.ZerosApart m.numLabels →
        ∀ z ∈ triples m.numLabels, clique.energy z = 0 → t.dualSum c z = 0) := by
  have hsound : Sound m s := (hr.sound (sound_new engine config)).1
  obtain ⟨hcert₀, hsize, hstate⟩ := (lowerBound_settleAll hsound).of_ok hok
  have hcert : Certified m (lowerBound m s).state := ((lowerBound_ends hsound).of_ok hok).2.1
  have hlabeling : (lowerBound m s).state.labeling = (ensureStarted m s).state.labeling := by
    rw [hstate]
    rfl
  have hsettlement : Certificate.Settlement c clique current m.numLabels t₀ t
      (triples m.numLabels) := by
    rw [← ht₀, ← ht, ← hcurrent, hlabeling, hstate]
    exact hcert₀.shaped.settlement hsize _ hclique
  have hlength : current.length = 3 := by
    rw [← hcurrent, hcert.wellFormed.length_labelsAt hclique,
      hsize _ (List.mem_of_getElem? hclique)]
  have htight : t.dualSum c current = clique.energy current := by
    rw [← ht, ← hcurrent]
    exact Certificate.tight_iff.mp hcert.tight c clique hclique
  refine ⟨hsettlement, fun z hz hzero hlast => hsettlement.dualSum_eq_zero hlength htight hz hzero
    hlast, fun hapart z hz hzero => hsettlement.dualSum_eq_zero hlength htight hz hzero
    fun w hw hzw j hj hpivot => ?_⟩
  exact hapart z hz w hw hzero hpivot.1 hzw.ne j hj hpivot.2.2.symm

/-- Two overlapping Potts cliques.  After a run that has converged, three equal labels still have a
    dual sum that is not zero. -/
theorem lowerBound_settles_potts :
    let m : Model := .ofRows 3 #[#[0, 4, 6], #[3, 0, 5], #[4, 4, 0], #[1, 5, 2]]
      [.potts [0, 1, 2] 3, .potts [1, 2, 3] 2]
    let s₀ : Solver Unit Unit := Solver.new ⟨Cut.Graph.empty, ()⟩ .standard
    ∃ s bound, Reached m Cut.maxFlow s₀ s ∧ s.phase = .converged ∧
      (lowerBound m s).result = .ok bound ∧ ¬ s.certificate.Settled m ∧
        (lowerBound m s).state.certificate.Settled m := by
  intro m s₀
  have hrun : (iterate m Cut.maxFlow 9 s₀).result = .ok ⟨1, .converged⟩ := by decide +kernel
  have hphase : (iterate m Cut.maxFlow 9 s₀).state.phase = .converged := by decide +kernel
  have hdual : (iterate m Cut.maxFlow 9 s₀).state.certificate.dualSum 0 [1, 1, 1] = 1 := by
    decide +kernel
  have hmeasure : (measure (α := Float) m (iterate m Cut.maxFlow 9 s₀).state).result.toBool
      = true := by decide +kernel
  have hr : Reached m Cut.maxFlow s₀ (iterate m Cut.maxFlow 9 s₀).state :=
    Reached.here.iterate 9 hrun
  generalize (iterate m Cut.maxFlow 9 s₀).state = s at hr hphase hdual hmeasure
  obtain ⟨bound, hok⟩ := (lowerBound_of_measure hmeasure).1
  refine ⟨s, bound, hr, hphase, hok, fun hsettled => ?_, fun c clique hclique z hz hzero => ?_⟩
  · have hzero := hsettled 0 _ rfl [1, 1, 1] (by decide) (by decide)
    rw [hdual] at hzero
    exact absurd hzero (by decide)
  · have hapart : clique.ZerosApart m.numLabels := by
      have hmem : clique ∈ [Clique.potts [0, 1, 2] 3, .potts [1, 2, 3] 2] :=
        List.mem_of_getElem? hclique
      rcases List.mem_pair.mp hmem with rfl | rfl <;>
        exact Clique.zerosApart_potts _ (by decide) _
    exact (lowerBound_settles hr hok rfl rfl hclique rfl).2.2 hapart z hz hzero

/-- Three variables that all have the label zero, and a clique that is free of cost where the first
    one changes, alone or with the second.  Both triples move the same dual, and the second move
    undoes the first.  The value is twice the lowest energy. -/
theorem lowerBound_unsettles :
    let m : Model := .ofRows 2 #[#[0, 1], #[0, 1], #[0, 1]]
      [.lookup [0, 1, 2] 2 #[3, 0, 3, 0, 3, 3, 3, 3]]
    let s : Solver Unit Unit := Solver.new ⟨Cut.Graph.empty, ()⟩ .standard
    (m.Valid ∧ m.NonNegative ∧ ∀ clique ∈ m.cliques, clique.size = 3) ∧
      Reached m Cut.maxFlow s s ∧ (∃ bound, (lowerBound m s).result = .ok bound) ∧
        ¬ (lowerBound m s).state.certificate.Settled m ∧
          ∃ b, (measureExactly m s).result = .ok b ∧ b.value = 2 ∧
            m.energy (fun v => if v = 0 then 1 else 0) = 1 := by
  intro m s
  have hvalid : m.Valid := ⟨Model.fault?_eq_none_iff.mp (by decide), by decide, by decide⟩
  have hnonneg : m.NonNegative := by
    intro clique hclique x _
    obtain rfl := List.mem_singleton.mp hclique
    exact Model.energyAt_lookup_nonneg _ _ (by decide) x
  have hmeasure : (measure (α := Float) m s).result.toBool = true := by decide +kernel
  have hdual : (measure (α := Float) m s).state.certificate.dualSum 0 [1, 0, 0] = 1 := by
    decide +kernel
  have hexact : (measureExactly m s).result = .ok ⟨2, 1⟩ := by decide +kernel
  have hvalue : (⟨2, 1⟩ : Bound Rat).value = 2 := by decide +kernel
  obtain ⟨hok, hstate⟩ := lowerBound_of_measure hmeasure
  refine ⟨⟨hvalid, hnonneg, by decide⟩, .here, hok, fun hsettled => ?_, _, hexact, hvalue,
    by decide⟩
  have hzero := hsettled 0 _ rfl [1, 0, 0] (by decide) (by decide)
  rw [hstate, hdual] at hzero
  exact absurd hzero (by decide)

end Solver

end FusionMove
