import FusionMove.Proofs.Energy.Draft
import Mathlib.Data.List.Induction

namespace FusionMove.Draft

/-!
# Drafts keep what they are told

A draft is one array that grows and is written to between its growths, and a list of cliques.  Its
number of variables is read off the size of the array.  Seen from outside it is the list of the calls
that it has accepted: how many variables they add, what they add to the cost of a label, and which
cliques they bring.

* `Draft.Call`, `Call.perform` — a call, and the draft after it if it is accepted;
* `Call.Fits`, `fitting` — which calls of a sequence ought to be accepted, with no draft in sight;
* `replay` — the draft that a sequence of calls leaves;
* `Draft.Stores` — where array and list hold what the calls said; every call keeps it;
* `Draft.Faithful` — what a caller reads in the draft, in terms of the calls;
* `replay_faithful` — it reads this after every sequence of calls.
-/

open scoped CoreArithmetic

/-! ### Calls -/

/-- What may be asked of a draft. -/
inductive Call where
  | addVar
  | addVars (count : Nat)
  | addCosts (var : Nat) (costs : Array Int)
  | addClique (clique : Clique)

namespace Call

/-- The draft after a call that is accepted. -/
def perform (d : Draft) : Call → Except Fault Draft
  | addVar => .ok d.addVar.2
  | addVars count => .ok (d.addVars count).2
  | addCosts var costs => d.addCosts var costs
  | addClique clique => (d.addClique clique).map (·.2)

/-- Costs come one a label, cliques have members within the limit, and every variable that is named
    is there. -/
def Fits (numLabels numVars : Nat) : Call → Prop
  | addVar => True
  | addVars _ => True
  | addCosts var costs => var < numVars ∧ costs.size = numLabels
  | addClique clique =>
    0 < clique.size ∧ clique.size ≤ cliqueSizeLimit ∧ ∀ v ∈ clique.nodes, v < numVars

instance (numLabels numVars : Nat) : (call : Call) → Decidable (call.Fits numLabels numVars)
  | addVar => inferInstanceAs (Decidable True)
  | addVars _ => inferInstanceAs (Decidable True)
  | addCosts _ _ => inferInstanceAs (Decidable (_ ∧ _))
  | addClique _ => inferInstanceAs (Decidable (_ ∧ _ ∧ _))

/-- How many variables a call adds. -/
def vars : Call → Nat
  | addVar => 1
  | addVars count => count
  | addCosts _ _ => 0
  | addClique _ => 0

/-- What a call adds to the cost of label `l` at variable `v`. -/
def cost (v l : Nat) : Call → Int
  | addCosts var costs => if var = v then costs.getD l 0 else 0
  | _ => 0

/-- The clique that a call adds. -/
def clique? : Call → Option Clique
  | addClique clique => some clique
  | _ => none

/-- The calls that a draft accepts are those that fit. -/
theorem perform_isOk_iff (d : Draft) (call : Call) :
    (∃ d', call.perform d = .ok d') ↔ call.Fits d.numLabels d.numVars := by
  cases call with
  | addVar => exact ⟨fun _ => trivial, fun _ => ⟨_, rfl⟩⟩
  | addVars count => exact ⟨fun _ => trivial, fun _ => ⟨_, rfl⟩⟩
  | addCosts var costs =>
    rw [perform, Draft.addCosts, Fits]
    split
    · simp only [reduceCtorEq, exists_false, false_iff]
      omega
    · split
      · rename_i hsize
        simp [hsize]
      · rename_i hsize
        exact ⟨fun _ => ⟨by omega, not_not.mp hsize⟩, fun _ => ⟨_, rfl⟩⟩
  | addClique clique =>
    rw [perform, Draft.addClique, Fits, Clique.size, ← @memberFault?_eq_none_iff d.cliques.size]
    cases memberFault? d.cliques.size clique.nodes d.numVars with
    | none => exact ⟨fun _ => rfl, fun _ => ⟨_, rfl⟩⟩
    | some fault => simp [Except.map]

end Call

/-! ### Sequences of calls -/

/-- The variables that calls add. -/
def varsOf (calls : List Call) : Nat :=
  (calls.map (·.vars)).sum

/-- The costs that calls add to label `l` at variable `v`, summed. -/
def costOf (calls : List Call) (v l : Nat) : Int :=
  (calls.map (·.cost v l)).sum

/-- The cliques that calls add, in order. -/
def cliquesOf (calls : List Call) : List Clique :=
  calls.filterMap (·.clique?)

section Sequences

variable (calls : List Call) (call : Call)

@[simp] theorem varsOf_concat : varsOf (calls ++ [call]) = varsOf calls + call.vars := by
  simp [varsOf]

@[simp] theorem costOf_concat (v l : Nat) :
    costOf (calls ++ [call]) v l = costOf calls v l + call.cost v l := by
  simp [costOf]

theorem cliquesOf_append (more : List Call) :
    cliquesOf (calls ++ more) = cliquesOf calls ++ cliquesOf more :=
  List.filterMap_append

/-- The calls that fit where they stand; the others are left out. -/
def fitting (numLabels : Nat) (calls : List Call) : List Call :=
  calls.foldl
    (fun kept call => if call.Fits numLabels (varsOf kept) then kept ++ [call] else kept) []

/-- The draft after a call.  A call that is refused leaves it as it is. -/
def attempt (d : Draft) (call : Call) : Draft :=
  match call.perform d with
  | .ok d' => d'
  | .error _ => d

/-- The draft after a sequence of calls. -/
def replay (d : Draft) (calls : List Call) : Draft :=
  calls.foldl attempt d

theorem fitting_concat (numLabels : Nat) :
    fitting numLabels (calls ++ [call]) =
      if call.Fits numLabels (varsOf (fitting numLabels calls)) then
        fitting numLabels calls ++ [call]
      else fitting numLabels calls := by
  rw [fitting, List.foldl_append]
  rfl

theorem replay_concat (d : Draft) : replay d (calls ++ [call]) = (replay d calls).attempt call := by
  rw [replay, List.foldl_append]
  rfl

/-- What fits goes on fitting, whatever is called after it. -/
theorem fitting_append_prefix (numLabels : Nat) (more : List Call) :
    ∃ later, fitting numLabels (calls ++ more) = fitting numLabels calls ++ later := by
  induction more using List.reverseRecOn with
  | nil => exact ⟨[], by simp⟩
  | append_singleton more call ih =>
    obtain ⟨later, ih⟩ := ih
    rw [← List.append_assoc, fitting_concat, ih]
    split
    · exact ⟨later ++ [call], by rw [List.append_assoc]⟩
    · exact ⟨later, rfl⟩

end Sequences

/-! ### What array and list hold -/

/-- The cost of every label at every variable lies at its place in the array, which reads as zero past
    its end. -/
structure Stores (numLabels : Nat) (calls : List Call) (d : Draft) : Prop where
  sound : d.Sound
  numLabels_eq : d.numLabels = numLabels
  numVars_eq : d.numVars = varsOf calls
  unary_eq : ∀ v, ∀ l < numLabels, d.unary.getD (v * numLabels + l) 0 = costOf calls v l
  cliques_eq : d.cliques.toList = cliquesOf calls

/-- New zeros at the end read like the default. -/
private theorem getD_append_zeros (xs : Array Int) (n i : Nat) :
    (xs ++ Array.replicate n 0).getD i 0 = xs.getD i 0 := by
  simp only [Array.getD_eq_getD_getElem?]
  rcases Nat.lt_or_ge i xs.size with hi | hi
  · rw [Array.getElem?_append_left hi]
  · rw [Array.getElem?_append_right hi, Array.getElem?_eq_none hi, Array.getElem?_replicate]
    split <;> rfl

/-- The row gains the values, entry by entry, and the rest of the array is left alone. -/
private theorem getD_addRow {xs : Array Int} {start n : Nat} (hroom : start + n ≤ xs.size)
    (f : Nat → Int) (i : Nat) :
    (addRow xs start n f).getD i 0
      = xs.getD i 0 + if start ≤ i ∧ i < start + n then f (i - start) else 0 := by
  induction n with
  | zero =>
    rw [if_neg (by omega), Int.add_zero]
    rfl
  | succ n ih =>
    have hnext : start + n < (addRow xs start n f).size := by
      rw [size_addRow]
      omega
    rw [addRow_succ, getD_modify_add, ih (by omega), Int.add_assoc]
    congr 1
    by_cases heq : start + n = i
    · -- the entry that comes in with this step
      subst heq
      rw [if_neg (by omega), if_pos ⟨hnext, rfl⟩, if_pos (by omega), Int.zero_add,
        Nat.add_sub_cancel_left]
    · have hother : ¬ (start + n < (addRow xs start n f).size ∧ start + n = i) := fun h => heq h.2
      rw [if_neg hother, Int.add_zero]
      by_cases hin : start ≤ i ∧ i < start + n
      · rw [if_pos hin, if_pos (by omega)]
      · rw [if_neg hin, if_neg (by omega)]

section Step

variable {numLabels : Nat} {calls : List Call} {d d' : Draft}

/-- Nothing has been said and nothing is there. -/
theorem stores_new (h : new numLabels = .ok d) : Stores numLabels [] d := by
  have hsound := sound_new h
  unfold new at h
  split at h
  · exact absurd h (by simp)
  · obtain rfl := Except.ok.inj h
    exact ⟨hsound, rfl, by simp [numVars, varsOf], fun _ _ _ => by simp [costOf], rfl⟩

/-- New variables cost nothing, and the costs of the old ones stay where they are. -/
theorem Stores.grow (h : Stores numLabels calls d) {call : Call} (hcost : ∀ v l, call.cost v l = 0)
    (hclique : call.clique? = none) :
    Stores numLabels (calls ++ [call]) (d.addVars call.vars).2 := by
  have hsound := h.sound.addVars call.vars
  refine ⟨hsound, h.numLabels_eq, ?_, fun v l hl => ?_, ?_⟩
  · rw [varsOf_concat, ← h.numVars_eq]
    exact h.sound.numVars_addVars call.vars
  · rw [costOf_concat, hcost, Int.add_zero, ← h.unary_eq v l hl]
    exact getD_append_zeros ..
  · have hnone : cliquesOf [call] = [] := by simp [cliquesOf, hclique]
    rw [cliquesOf_append, hnone, List.append_nil]
    exact h.cliques_eq

/-- The entries of a row are those from its start up to the start of the next. -/
private theorem mem_row_iff {v var l k : Nat} (hl : l < k) :
    var * k ≤ v * k + l ∧ v * k + l < var * k + k ↔ var = v := by
  have hpos : 0 < k := by omega
  have hdiv := (Heights.row_div_mod (v := v) hl).1
  rw [← Nat.succ_mul, ← Nat.le_div_iff_mul_le hpos, ← Nat.div_lt_iff_lt_mul hpos, hdiv]
  omega

/-- The costs are added in the row of their variable, and the other rows are left alone. -/
theorem Stores.addCosts (h : Stores numLabels calls d) {var : Nat} {costs : Array Int}
    (ha : d.addCosts var costs = .ok d') :
    Stores numLabels (calls ++ [.addCosts var costs]) d' := by
  obtain rfl := h.numLabels_eq
  have hsound := h.sound.addCosts ha
  obtain ⟨hvar, -, rfl⟩ := addCosts_eq_ok ha
  have hroom : var * d.numLabels + d.numLabels ≤ d.unary.size := by
    rw [h.sound.size_eq, ← Nat.succ_mul]
    exact Nat.mul_le_mul_right _ hvar
  refine ⟨hsound, rfl, ?_, fun v l hl => ?_, ?_⟩
  · rw [varsOf_concat, ← h.numVars_eq, numVars, size_addRow]
    rfl
  · rw [costOf_concat, ← h.unary_eq v l hl, getD_addRow hroom, Call.cost]
    simp only [mem_row_iff hl]
    split
    · rename_i hv
      rw [hv, Nat.add_sub_cancel_left]
    · rfl
  · rw [cliquesOf_append]
    exact h.cliques_eq.trans (List.append_nil _).symm

/-- The clique comes last. -/
theorem Stores.addClique (h : Stores numLabels calls d) {clique : Clique} {index : Nat}
    (ha : d.addClique clique = .ok (index, d')) :
    Stores numLabels (calls ++ [.addClique clique]) d' := by
  have hsound := h.sound.addClique ha
  obtain ⟨-, -, rfl⟩ := addClique_eq_ok ha
  refine ⟨hsound, h.numLabels_eq, ?_, fun v l hl => ?_, ?_⟩
  · rw [varsOf_concat, ← h.numVars_eq]
    rfl
  · rw [costOf_concat, ← h.unary_eq v l hl]
    exact (Int.add_zero _).symm
  · rw [cliquesOf_append, ← h.cliques_eq]
    exact Array.toList_push

/-- What is accepted is stored with all that was there. -/
theorem Stores.perform (h : Stores numLabels calls d) {call : Call}
    (hp : call.perform d = .ok d') : Stores numLabels (calls ++ [call]) d' := by
  cases call with
  | addVar =>
    obtain rfl := Except.ok.inj hp
    exact h.grow (fun _ _ => rfl) rfl
  | addVars count =>
    obtain rfl := Except.ok.inj hp
    exact h.grow (fun _ _ => rfl) rfl
  | addCosts var costs => exact h.addCosts hp
  | addClique clique =>
    cases ha : d.addClique clique with
    | error fault => simp [Call.perform, ha, Except.map] at hp
    | ok added =>
      obtain ⟨index, after⟩ := added
      obtain rfl : after = d' := by simpa [Call.perform, ha, Except.map] using hp
      exact h.addClique ha

/-- A call that fits is stored, and a call that does not leaves the draft as it is. -/
theorem Stores.attempt (h : Stores numLabels calls d) (call : Call) :
    Stores numLabels (if call.Fits numLabels (varsOf calls) then calls ++ [call] else calls)
      (d.attempt call) := by
  have hiff := Call.perform_isOk_iff d call
  rw [h.numLabels_eq, h.numVars_eq] at hiff
  rw [Draft.attempt]
  cases hp : call.perform d with
  | ok d' =>
    rw [if_pos (hiff.mp ⟨d', hp⟩)]
    exact h.perform hp
  | error fault =>
    rw [if_neg fun hfits => by simpa [hp] using hiff.mpr hfits]
    exact h

/-- Whatever is called, the draft holds what fits. -/
theorem stores_replay (h : new numLabels = .ok d) (calls : List Call) :
    Stores numLabels (fitting numLabels calls) (replay d calls) := by
  induction calls using List.reverseRecOn with
  | nil => exact stores_new h
  | append_singleton calls call ih =>
    rw [fitting_concat, replay_concat]
    exact ih.attempt call

end Step

/-! ### What a caller reads -/

/-- The model of a draft says what the calls said: so many variables, for each label the sum of its
    costs, and the cliques in the order of their calls. -/
structure Faithful (numLabels : Nat) (calls : List Call) (d : Draft) : Prop where
  numLabels_eq : d.toModel.numLabels = numLabels
  numVars_eq : d.toModel.numVars = varsOf calls
  unary?_eq : ∀ v < varsOf calls, ∀ l < numLabels, d.toModel.unary? v l = some (costOf calls v l)
  cliques_eq : d.toModel.cliques = cliquesOf calls
  members : ∀ c ∈ cliquesOf calls, 1 ≤ c.nodes.length ∧ c.nodes.length ≤ 32 ∧
    ∀ v ∈ c.nodes, v < varsOf calls
  /-- A labeling costs what its labels cost and what the cliques make of the labels of their
      members. -/
  evaluate_eq : ∀ labels : Array Nat, labels.size = varsOf calls → (∀ l ∈ labels, l < numLabels) →
    d.toModel.evaluate labels =
      .ok (sumTo (varsOf calls) (fun v => costOf calls v (labels.getD v 0)) +
        ((cliquesOf calls).map fun c => c.energy (c.nodes.map (labels.getD · 0))).sum)

section Read

variable {numLabels : Nat} {calls : List Call} {d : Draft}

/-- Every variable has a cost for every label. -/
theorem Stores.unary?_eq (h : Stores numLabels calls d) {v l : Nat} (hv : v < varsOf calls)
    (hl : l < numLabels) : d.toModel.unary? v l = some (costOf calls v l) := by
  rw [← h.unary_eq v l hl]
  obtain rfl := h.numLabels_eq
  exact h.sound.unary?_eq_some (h.numVars_eq ▸ hv) hl

/-- Every clique has members within the limit, all of them variables. -/
theorem Stores.members (h : Stores numLabels calls d) : ∀ c ∈ cliquesOf calls,
    1 ≤ c.nodes.length ∧ c.nodes.length ≤ 32 ∧ ∀ v ∈ c.nodes, v < varsOf calls := by
  rw [← h.cliques_eq, ← h.numVars_eq]
  exact h.sound.wellFormed

variable {labels : Array Nat}

/-- An evaluation finds the cost of every label and a label for every member. -/
theorem Stores.readable (h : Stores numLabels calls d) (hsize : labels.size = varsOf calls)
    (hlabels : ∀ v < varsOf calls, labels.getD v 0 < numLabels) :
    d.toModel.readable labels = true := by
  rw [Model.readable, Bool.and_eq_true]
  constructor
  · refine List.all_eq_true.mpr fun v hv => ?_
    have hv : v < varsOf calls := hsize ▸ List.mem_range.mp hv
    rw [h.unary?_eq hv (hlabels v hv)]
    rfl
  · refine List.all_eq_true.mpr fun c hc => List.all_eq_true.mpr fun v hv => ?_
    have hc : c ∈ cliquesOf calls := h.cliques_eq ▸ hc
    rw [decide_eq_true_eq, hsize]
    exact (h.members c hc).2.2 v (List.mem_of_mem_take hv)

/-- The energy of a labeling is what its labels cost and what the cliques make of the labels of their
    members. -/
theorem Stores.energy_eq (h : Stores numLabels calls d)
    (hlabels : ∀ v < varsOf calls, labels.getD v 0 < numLabels) :
    d.toModel.energy (labels.getD · 0) =
      sumTo (varsOf calls) (fun v => costOf calls v (labels.getD v 0)) +
        ((cliquesOf calls).map fun c => c.energy (c.nodes.map (labels.getD · 0))).sum := by
  have hcosts : sumTo d.toModel.numVars (fun v => d.toModel.unary v (labels.getD v 0)) =
      sumTo (varsOf calls) fun v => costOf calls v (labels.getD v 0) := by
    rw [show d.toModel.numVars = varsOf calls from h.numVars_eq]
    refine sumTo_congr fun v hv => ?_
    rw [Model.unary, h.unary?_eq hv (hlabels v hv)]
    rfl
  have hterms : d.toModel.cliques.map (·.energyAt (labels.getD · 0)) =
      (cliquesOf calls).map fun c => c.energy (c.nodes.map (labels.getD · 0)) := by
    rw [show d.toModel.cliques = cliquesOf calls from h.cliques_eq]
    refine List.map_congr_left fun c hc => ?_
    rw [Clique.energyAt, Clique.labelsAt_of_size_le (h.members c hc).2.1]
  rw [Model.energy, hcosts, hterms]

/-- What a draft stores is what a caller reads. -/
theorem Stores.faithful (h : Stores numLabels calls d) : Faithful numLabels calls d where
  numLabels_eq := h.numLabels_eq
  numVars_eq := h.numVars_eq
  unary?_eq _ hv _ hl := h.unary?_eq hv hl
  cliques_eq := h.cliques_eq
  members := h.members
  evaluate_eq labels hsize hlabels := by
    have hlabels : ∀ v < varsOf calls, labels.getD v 0 < numLabels := by
      intro v hv
      have hlt : v < labels.size := hsize ▸ hv
      rw [Array.getD_eq_getD_getElem?, Array.getElem?_eq_getElem hlt]
      exact hlabels _ (Array.getElem_mem hlt)
    rw [Model.evaluate_eq_energy (hsize.trans h.numVars_eq.symm) (h.readable hsize hlabels),
      h.energy_eq hlabels]

end Read

/-- Cliques are never moved nor taken out. -/
theorem cliques_replay_prefix {numLabels : Nat} {d : Draft} (h : new numLabels = .ok d)
    (calls more : List Call) :
    (replay d calls).toModel.cliques <+: (replay d (calls ++ more)).toModel.cliques := by
  obtain ⟨later, hlater⟩ := fitting_append_prefix calls numLabels more
  refine ⟨cliquesOf later, ?_⟩
  rw [(stores_replay h calls).faithful.cliques_eq, (stores_replay h (calls ++ more)).faithful.cliques_eq,
    hlater, cliquesOf_append]

/-- A clique stays at the index that it was given. -/
theorem clique_at_index {numLabels : Nat} {d d' : Draft} (h : new numLabels = .ok d)
    (calls more : List Call) {clique : Clique} {index : Nat}
    (ha : (replay d calls).addClique clique = .ok (index, d')) :
    (replay d (calls ++ .addClique clique :: more)).toModel.cliques[index]? = some clique := by
  obtain ⟨-, rfl, rfl⟩ := addClique_eq_ok ha
  have hnow : (replay d (calls ++ [.addClique clique])).cliques =
      (replay d calls).cliques.push clique := by
    rw [replay_concat, attempt, Call.perform, ha]
    rfl
  obtain ⟨later, hlater⟩ := cliques_replay_prefix h (calls ++ [.addClique clique]) more
  rw [List.append_assoc, List.singleton_append] at hlater
  rw [← hlater, toModel, hnow]
  simp

/-- **Drafts are faithful.**  Whatever is called on a new draft, it has accepted the calls that fit and
    will accept a call iff that fits, it says what these calls said, and a clique is found at the
    index that it was given, whatever is called later. -/
theorem replay_faithful {numLabels : Nat} (h : 0 < numLabels) (calls : List Call) :
    ∃ d, new numLabels = .ok d ∧
      Faithful numLabels (fitting numLabels calls) (replay d calls) ∧
      (∀ call : Call, (∃ d', call.perform (replay d calls) = .ok d') ↔
        call.Fits numLabels (varsOf (fitting numLabels calls))) ∧
      (∀ more, (replay d calls).toModel.cliques <+: (replay d (calls ++ more)).toModel.cliques) ∧
      ∀ clique index d', (replay d calls).addClique clique = .ok (index, d') →
        ∀ more, (replay d (calls ++ .addClique clique :: more)).toModel.cliques[index]? = some clique := by
  have hnew : new numLabels = .ok ⟨numLabels, #[], #[]⟩ := if_neg (Nat.ne_of_gt h)
  have hstores := stores_replay hnew calls
  refine ⟨_, hnew, hstores.faithful, fun call => ?_, cliques_replay_prefix hnew calls,
    fun clique index d' ha more => clique_at_index hnew calls more ha⟩
  rw [Call.perform_isOk_iff, hstores.numLabels_eq, hstores.numVars_eq]

/-- Costs before and after new variables, and three calls that are refused: costs of a variable that is
    not there yet, a clique on one, and costs for one label of two. -/
def interleaved : List Call :=
  [.addVars 2, .addCosts 1 #[0, 4], .addCosts 2 #[9, 9], .addVar, .addClique (.potts [2, 1] 7),
    .addCosts 1 #[3, 1], .addClique (.potts [3, 0] 8), .addVars 1, .addCosts 0 #[6],
    .addCosts 2 #[1, 2]]

theorem replay_faithful_interleaved : 0 < 2 ∧ ∃ d, new 2 = .ok d ∧
    (replay d interleaved).toModel.numVars = 4 ∧
    (replay d interleaved).toModel.unary? 1 1 = some 5 ∧
    (replay d interleaved).toModel.numCliques = 1 ∧
    (replay d interleaved).toModel.evaluate #[0, 1, 0, 1] = .ok 13 := by
  obtain ⟨d, hnew, hfaithful, -, -, -⟩ := replay_faithful (by decide : 0 < 2) interleaved
  refine ⟨by decide, d, hnew, hfaithful.numVars_eq, hfaithful.unary?_eq 1 (by decide) 1 (by decide),
    congrArg List.length hfaithful.cliques_eq, ?_⟩
  exact hfaithful.evaluate_eq #[0, 1, 0, 1] rfl (by decide)

end FusionMove.Draft
