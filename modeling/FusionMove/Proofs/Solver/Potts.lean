import FusionMove.Proofs.Solver.Expansion

namespace FusionMove

/-!
# Expansions over Potts cliques

In an expansion the members in the mask take one label.  They then agree with the others in two ways
only: the mask holds every member that had another label, or it holds none and all agreed before.
The first way is kept by unions and the second by intersections, and of any two masks at which the
members agree both the union and the intersection are such a mask.  So Potts energies are submodular
over all masks, members that hold the label already included.

* `Fusion.unanimous_expand_iff` — when the members agree after an expansion;
* `Fusion.potts_expand_submodular` — Potts energies are submodular over the masks of an expansion;
* `Fusion.potts_residual_submodular` — and so are the tables that the duals have been taken from;
* `Model.expansionSubmodular_potts` — every expansion is submodular in a model of Potts cliques.
-/

open scoped CoreArithmetic

namespace Clique

/-- All labels agree. -/
def Unanimous (labels : List Nat) : Prop :=
  ∃ l, ∀ x ∈ labels, x = l

theorem unanimous_cons {l : Nat} {ls : List Nat} : Unanimous (l :: ls) ↔ ∀ x ∈ ls, x = l := by
  constructor
  · rintro ⟨l', hl'⟩ x hx
    rw [hl' x (List.mem_cons_of_mem _ hx), hl' l List.mem_cons_self]
  · exact fun h => ⟨l, List.forall_mem_cons.mpr ⟨rfl, h⟩⟩

/-- Where all labels agree a Potts clique costs nothing. -/
theorem pottsEnergy_eq_zero {labels : List Nat} (h : Unanimous labels) (penalty : Int) :
    pottsEnergy penalty labels = 0 := by
  cases labels with
  | nil => rfl
  | cons l ls => exact if_pos (List.all_eq_true.mpr fun x hx =>
      decide_eq_true (unanimous_cons.mp h x hx))

/-- Elsewhere it costs its penalty. -/
theorem pottsEnergy_eq_penalty {labels : List Nat} (h : ¬ Unanimous labels) (penalty : Int) :
    pottsEnergy penalty labels = penalty := by
  cases labels with
  | nil => exact absurd ⟨0, by simp⟩ h
  | cons l ls =>
    refine if_neg fun hall => h (unanimous_cons.mpr fun x hx => ?_)
    exact of_decide_eq_true (List.all_eq_true.mp hall x hx)

/-- It never costs more than a penalty that is not negative. -/
theorem pottsEnergy_le {penalty : Int} (h : 0 ≤ penalty) (labels : List Nat) :
    pottsEnergy penalty labels ≤ penalty := by
  by_cases hall : Unanimous labels
  · rw [pottsEnergy_eq_zero hall]
    exact h
  · rw [pottsEnergy_eq_penalty hall]

end Clique

namespace Fusion

open Clique (Unanimous pottsEnergy pottsEnergy_eq_zero pottsEnergy_eq_penalty pottsEnergy_le)

variable {current : List Nat} {label s t : Nat}

/-! ### Expansions of one label -/

/-- The labels of the members when those in `mask` take `label`. -/
def expand (current : List Nat) (label mask : Nat) : List Nat :=
  mix current (List.replicate current.length label) mask

theorem mem_expand {mask x : Nat} : x ∈ expand current label mask ↔
    ∃ p l, current[p]? = some l ∧ x = if mask.testBit p then label else l := by
  have hfused : ∀ p l, current[p]? = some l →
      (List.replicate current.length label).getD p 0 = label := by
    intro p l hp
    have hlt := (List.getElem?_eq_some_iff.mp hp).1
    simp [hlt]
  simp only [expand, List.mem_iff_getElem?, getElem?_mix, Option.map_eq_some_iff]
  constructor
  · rintro ⟨p, l, hp, rfl⟩
    exact ⟨p, l, hp, by rw [hfused p l hp]⟩
  · rintro ⟨p, l, hp, rfl⟩
    exact ⟨p, l, hp, by rw [hfused p l hp]⟩

/-- Every member with another label is in the mask. -/
def Covers (current : List Nat) (label mask : Nat) : Prop :=
  ∀ p l, current[p]? = some l → l = label ∨ mask.testBit p = true

/-- No member is in the mask. -/
def Avoids (current : List Nat) (mask : Nat) : Prop :=
  ∀ p l, current[p]? = some l → mask.testBit p = false

theorem Covers.or (h : Covers current label s) (t : Nat) : Covers current label (s ||| t) := by
  intro p l hp
  rw [Nat.testBit_or]
  exact (h p l hp).imp_right fun hbit => by rw [hbit, Bool.true_or]

theorem Covers.and (hs : Covers current label s) (ht : Covers current label t) :
    Covers current label (s &&& t) := by
  intro p l hp
  rw [Nat.testBit_and]
  rcases hs p l hp with hl | hbit
  · exact .inl hl
  · exact (ht p l hp).imp_right fun hbit' => by rw [hbit, hbit', Bool.and_true]

theorem Avoids.and (h : Avoids current s) (t : Nat) : Avoids current (s &&& t) := by
  intro p l hp
  rw [Nat.testBit_and, h p l hp, Bool.false_and]

theorem Avoids.or (hs : Avoids current s) (ht : Avoids current t) : Avoids current (s ||| t) := by
  intro p l hp
  rw [Nat.testBit_or, hs p l hp, ht p l hp, Bool.or_self]

/-- After an expansion the members agree if it reaches all that had another label, or if it reaches
    none and they agreed before. -/
theorem unanimous_expand_iff {mask : Nat} : Unanimous (expand current label mask) ↔
    Covers current label mask ∨ (Unanimous current ∧ Avoids current mask) := by
  constructor
  · rintro ⟨l', hl'⟩
    by_cases hlabel : l' = label
    · -- whoever is not in the mask has the label already
      subst hlabel
      refine .inl fun p l hp => ?_
      have hentry := hl' _ (mem_expand.mpr ⟨p, l, hp, rfl⟩)
      cases hbit : mask.testBit p with
      | true => exact .inr rfl
      | false => exact .inl (by rwa [hbit] at hentry)
    · -- nobody is in the mask, since whoever is has the label
      have havoids : Avoids current mask := by
        intro p l hp
        have hentry := hl' _ (mem_expand.mpr ⟨p, l, hp, rfl⟩)
        cases hbit : mask.testBit p with
        | true => exact absurd (by rwa [hbit, if_pos rfl] at hentry) (Ne.symm hlabel)
        | false => rfl
      refine .inr ⟨⟨l', fun l hl => ?_⟩, havoids⟩
      obtain ⟨p, hp⟩ := List.mem_iff_getElem?.mp hl
      exact hl' l (mem_expand.mpr ⟨p, l, hp, by rw [havoids p l hp]; rfl⟩)
  · rintro (hcovers | ⟨⟨l', hl'⟩, havoids⟩)
    · refine ⟨label, fun x hx => ?_⟩
      obtain ⟨p, l, hp, rfl⟩ := mem_expand.mp hx
      rcases hcovers p l hp with rfl | hbit
      · exact ite_self _
      · exact if_pos hbit
    · refine ⟨l', fun x hx => ?_⟩
      obtain ⟨p, l, hp, rfl⟩ := mem_expand.mp hx
      rw [havoids p l hp]
      exact hl' l (List.mem_of_getElem? hp)

/-- Where the members agree at a mask, they agree at a union with it or at an intersection. -/
theorem unanimous_or_or_and (h : Unanimous (expand current label s)) (t : Nat) :
    Unanimous (expand current label (s ||| t)) ∨ Unanimous (expand current label (s &&& t)) := by
  rcases unanimous_expand_iff.mp h with hcovers | ⟨hall, havoids⟩
  · exact .inl (unanimous_expand_iff.mpr (.inl (hcovers.or t)))
  · exact .inr (unanimous_expand_iff.mpr (.inr ⟨hall, havoids.and t⟩))

/-- Where they agree at two masks, they agree at both. -/
theorem unanimous_or_and (hs : Unanimous (expand current label s))
    (ht : Unanimous (expand current label t)) :
    Unanimous (expand current label (s ||| t)) ∧ Unanimous (expand current label (s &&& t)) := by
  simp only [unanimous_expand_iff] at hs ht ⊢
  rcases hs with hs | ⟨hall, hs⟩ <;> rcases ht with ht | ⟨hall', ht⟩
  · exact ⟨.inl (hs.or t), .inl (hs.and ht)⟩
  · exact ⟨.inl (hs.or t), .inr ⟨hall', Nat.and_comm t s ▸ ht.and s⟩⟩
  · exact ⟨.inl (Nat.or_comm t s ▸ ht.or s), .inr ⟨hall, hs.and t⟩⟩
  · exact ⟨.inr ⟨hall, hs.or ht⟩, .inr ⟨hall, hs.and t⟩⟩

/-! ### Submodularity -/

/-- Potts energies are submodular over the masks of an expansion. -/
theorem potts_expand_submodular {penalty : Int} (h : 0 ≤ penalty) (current : List Nat)
    (label s t : Nat) :
    pottsEnergy penalty (expand current label (s ||| t))
        + pottsEnergy penalty (expand current label (s &&& t))
      ≤ pottsEnergy penalty (expand current label s)
        + pottsEnergy penalty (expand current label t) := by
  have hor := pottsEnergy_le h (expand current label (s ||| t))
  have hand := pottsEnergy_le h (expand current label (s &&& t))
  -- where the members agree at one mask, one of the two terms on the left is zero
  have hone : ∀ {s t : Nat}, Unanimous (expand current label s) →
      pottsEnergy penalty (expand current label (s ||| t)) = 0 ∨
        pottsEnergy penalty (expand current label (s &&& t)) = 0 := fun hs =>
    (unanimous_or_or_and hs _).imp (pottsEnergy_eq_zero · penalty) (pottsEnergy_eq_zero · penalty)
  by_cases hs : Unanimous (expand current label s) <;>
    by_cases ht : Unanimous (expand current label t)
  · obtain ⟨h₁, h₂⟩ := unanimous_or_and hs ht
    rw [pottsEnergy_eq_zero h₁, pottsEnergy_eq_zero h₂, pottsEnergy_eq_zero hs,
      pottsEnergy_eq_zero ht]
  · have := hone (t := t) hs
    rw [pottsEnergy_eq_zero hs, pottsEnergy_eq_penalty ht]
    omega
  · have := hone (t := s) ht
    rw [Nat.or_comm, Nat.and_comm] at this
    rw [pottsEnergy_eq_penalty hs, pottsEnergy_eq_zero ht]
    omega
  · rw [pottsEnergy_eq_penalty hs, pottsEnergy_eq_penalty ht]
    omega

end Fusion

/-- In a model whose cliques are Potts cliques without a penalty below zero every expansion is
    submodular. -/
theorem Model.expansionSubmodular_potts {m : Model} (h : ∀ clique ∈ m.cliques,
    ∃ nodes penalty, 0 ≤ penalty ∧ clique = .potts nodes penalty) : m.ExpansionSubmodular := by
  intro x _ label _ clique hclique s t _ _
  obtain ⟨nodes, penalty, hpenalty, rfl⟩ := h clique hclique
  have hexpand : ∀ mask, Fusion.mix ((Clique.potts nodes penalty).labelsAt x)
      ((Clique.potts nodes penalty).labelsAt fun _ => label) mask
        = Fusion.expand ((Clique.potts nodes penalty).labelsAt x) label mask := by
    intro mask
    rw [Fusion.expand, Clique.labelsAt, Clique.labelsAt, List.map_const', List.length_map]
  simp only [hexpand]
  exact Fusion.potts_expand_submodular hpenalty _ label s t

end FusionMove
