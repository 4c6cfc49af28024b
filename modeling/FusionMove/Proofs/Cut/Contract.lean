import FusionMove.Proofs.Cut.MinimumCut

namespace FusionMove.Cut

/-!
# The contract of an oracle

An oracle promises a set of free nodes of least energy, and potentials that no set of free members
exceeds: they sum to at most what the table gives the set.  That is a bound from above only.  Whoever
takes the answer over needs one from below as well, at the one set that was chosen.

* `Answer.Honors` — the promise, `Oracle.Conforms` — it is kept on all graphs with submodular tables;
* `Answer.shortfall` — by how much potentials stay below what was chosen, `Answer.Covers` — nowhere;
* `minimumCut_honors`, `minimumCut_covers` — a minimum cut has both;
* `Answer.Honors.skew`, `skewed_conforms` — lower potentials keep the promise.
-/

/-- What an oracle promises of its answer. -/
structure Answer.Honors (g : Graph) (a : Answer) : Prop where
  free : g.FreeSet a.chosen
  energy_le : ∀ T, g.FreeSet T → g.energy a.chosen ≤ g.energy T
  potential_le : ∀ (c : Nat) (f : Factor), g.factors[c]? = some f →
    ∀ t, Mask.Within t (f.maskOf fun v => !g.isFixed v) →
      Mask.sum f.size (a.potential c) t ≤ f.entry t - f.entry 0

/-- By how much, in factor `c`, the potentials of the members that are chosen or fixed stay below what
    the table gives the chosen ones. -/
def Answer.shortfall (g : Graph) (a : Answer) (c : Nat) : Int :=
  (g.factors[c]?.map fun f => f.entry (f.maskOf a.chosen) - f.entry 0
    - Mask.sum f.size (a.potential c) (f.maskOf fun v => a.chosen v || g.isFixed v)).getD 0

/-- The potentials reach what the tables give the chosen members. -/
def Answer.Covers (g : Graph) (a : Answer) : Prop :=
  ∀ c < g.factors.length, a.shortfall g c ≤ 0

/-- From this memory the oracle answers every well-formed graph with submodular tables, and as it
    promises. -/
def Oracle.Conforms {σ : Type} (o : Oracle σ) (memory : σ) : Prop :=
  ∀ g : Graph, g.WellFormed → g.Submodular →
    ∃ a : Answer, (o.solve g memory).result = .ok a ∧ a.Honors g

variable {g : Graph} {a : Answer}

/-- Fixed members without potential do not count. -/
theorem Factor.sum_or_fixed {f : Factor} {potential : Nat → Int} {fixed : Nat → Bool}
    (hzero : ∀ p v, f.members[p]? = some v → fixed v = true → potential p = 0) (S : Nat → Bool) :
    Mask.sum f.size potential (f.maskOf fun v => S v || fixed v)
      = Mask.sum f.size potential (f.maskOf S) := by
  apply sumTo_congr
  intro p hp
  have hmember : f.members[p]? = some f.members[p] := List.getElem?_eq_getElem hp
  rw [maskOf, maskOf, Mask.testBit_ofBits_map, Mask.testBit_ofBits_map, hmember, Option.map_some,
    Option.map_some, Option.getD_some, Option.getD_some]
  cases hfixed : fixed f.members[p] with
  | false => rw [Bool.or_false]
  | true =>
    rw [hzero p _ hmember hfixed]
    simp

/-! ### Minimum cuts -/

/-- A free set of members has at most its share of the table. -/
theorem minimumCut_potential_le (hw : g.WellFormed) (hg : g.Submodular) {c : Nat} {f : Factor}
    (hfac : g.factors[c]? = some f) {t : Nat}
    (ht : Mask.Within t (f.maskOf fun v => !g.isFixed v)) :
    Mask.sum f.size ((minimumCut g).potential c) t ≤ f.entry t - f.entry 0 := by
  obtain ⟨hf, -, -⟩ := Network.feasible_saturated hw hg
  obtain ⟨h, hh, hc⟩ := hf.exists_channel hfac
  have hsize := (hw f (List.mem_of_getElem? hfac)).2
  have hfree : Mask.Within t h.free := by
    rw [hc.free_eq]
    exact ht
  have hslack := hf.nonneg c h hh t hfree
  have hpotential : (minimumCut g).potential c = h.potential := by
    ext p
    rw [minimumCut, Run.answer_potential, Network.potentialAt, hh]
    rfl
  rw [hc.slackAt_eq t (hc.within_lt hsize hfree)] at hslack
  rw [hpotential]
  omega

/-- A minimum cut over submodular tables is as promised. -/
theorem minimumCut_honors (hw : g.WellFormed) (hg : g.Submodular) : (minimumCut g).Honors g where
  free := (minimumCut_leastMinimiser hw hg).free
  energy_le := (minimumCut_leastMinimiser hw hg).energy_le
  potential_le _ _ hfac _ ht := minimumCut_potential_le hw hg hfac ht

/-- What a minimum cut falls short by is the slack that it leaves. -/
theorem minimumCut_shortfall (hw : g.WellFormed) (c : Nat) :
    (minimumCut g).shortfall g c
      = (Network.ofGraph g).saturated.network.slackOn (minimumCut g).chosen c := by
  cases hfac : g.factors[c]? with
  | none =>
    -- past the end there is neither a factor nor a channel
    have hchannel : (Network.ofGraph g).saturated.network.channels[c]? = none := by
      rw [List.getElem?_eq_none_iff] at hfac ⊢
      rw [(Network.residual_saturated hw).1.length_eq]
      exact hfac
    rw [Answer.shortfall, Network.slackOn, hfac, hchannel]
    rfl
  | some f =>
    have hcut := minimumCut_factor_energy hw hfac
    have hfixed : ∀ p v, f.members[p]? = some v → g.isFixed v = true →
        (minimumCut g).potential c p = 0 := fun _ _ => minimumCut_potential_fixed hw hfac
    rw [← f.sum_maskOf ((minimumCut g).potential c) (minimumCut g).chosen] at hcut
    rw [Answer.shortfall, hfac, Option.map_some, Option.getD_some, Factor.sum_or_fixed hfixed]
    rw [Factor.energy, Factor.energy, f.maskOf_none] at hcut
    omega

/-- Over submodular tables it covers what it has chosen, since it leaves no slack there. -/
theorem minimumCut_covers (hw : g.WellFormed) (hg : g.Submodular) : (minimumCut g).Covers g :=
  fun c _ => by rw [minimumCut_shortfall hw c, minimumCut_slackOn hw hg c]

theorem maxFlow_conforms : maxFlow.Conforms () :=
  fun g hw hg => ⟨minimumCut g, maxFlow_solve hw, minimumCut_honors hw hg⟩

/-! ### Lower potentials -/

/-- An answer with lower potentials is as promised still. -/
theorem Answer.Honors.skew (h : a.Honors g) {offset : Int} (hoffset : offset ≤ 0) :
    (a.skew offset).Honors g := by
  refine ⟨h.free, h.energy_le, fun c f hfac t ht => ?_⟩
  have hle := h.potential_le c f hfac t ht
  have hlow : Mask.sum f.size (fun _ => offset) t ≤ 0 := by
    refine sumTo_nonpos fun p _ => ?_
    split
    · exact hoffset
    · exact Int.le_refl 0
  show Mask.sum f.size (fun p => a.potential c p + offset) t ≤ _
  rw [Mask.sum_add]
  omega

theorem skewed_solve (hw : g.WellFormed) (skew : Skew) :
    (skewed.solve g skew).result = .ok ((minimumCut g).skew skew.offset) := by
  show ((Action.zoom (fun _ => ()) (fun _ s => s) (maxFlow.solve g) >>= _ : Action Skew Answer)
    skew).result = _
  simp only [Action.bind_apply, Action.zoom, maxFlow_solve hw, Action.get_apply,
    Action.modify_apply, Action.pure_apply]

/-- Skewed downwards, the oracle keeps the promise. -/
theorem skewed_conforms {skew : Skew} (h : skew.offset ≤ 0) : skewed.Conforms skew :=
  fun _ hw hg => ⟨_, skewed_solve hw skew, (minimumCut_honors hw hg).skew h⟩

end FusionMove.Cut
