import Mathlib.Algebra.BigOperators.Ring.List
import Mathlib.Algebra.Ring.Nat
import FusionMove.Solver.Portable
import FusionMove.Proofs.Solver.Start

namespace FusionMove

/-!
# Taking and restoring snapshots

A solver takes a snapshot that has the dimensions of the model and holds a valid certificate, and
nothing else.  What a certified solver captures is such a snapshot: the blocks that the duals are
cut into are put together again to the same table.

* `Snapshot.Fits`, `Snapshot.shapeFault?_eq_none_iff`, `Snapshot.contentFault?_eq_none_iff` — which
  snapshots pass the checks;
* `Snapshot.certificate_capture`, `Snapshot.capture_passes` — a captured snapshot holds the
  certificate of its solver, and passes;
* `Snapshot.ofTree?_toTree` — a written snapshot reads back;
* `Solver.Prepared`, `Solver.Refused`, `Solver.restore_restores` — what restoring does, and what it
  has done when it faults.
-/

open FusionMove.Action
open scoped CoreArithmetic

/-! ### Written snapshots -/

namespace Tree

variable {α : Type} {write : α → Tree} {read? : Tree → Option α}

theorem nat?_number (n : Nat) : (number n).nat? = some n := rfl

theorem int?_number (n : Int) : (number n).int? = some n := rfl

/-- A list reads back if its entries do. -/
theorem list?_ofList (h : ∀ x, read? (write x) = some x) (xs : List α) :
    (ofList write xs).list? read? = some xs := by
  show (xs.map write).mapM read? = some xs
  induction xs with
  | nil => rfl
  | cons x xs ih =>
    rw [List.map_cons, List.mapM_cons, h, ih]
    rfl

theorem array?_ofArray (h : ∀ x, read? (write x) = some x) (xs : Array α) :
    (ofArray write xs).array? read? = some xs := by
  rw [ofArray, array?, list?_ofList h]
  rfl

end Tree

theorem Phase.ofName?_name (phase : Phase) : Phase.ofName? phase.name = some phase := by
  cases phase <;> decide

namespace Snapshot

variable {m : Model} {p : Snapshot}

/-- A written snapshot reads back. -/
theorem ofTree?_toTree (p : Snapshot) : ofTree? p.toTree = some p := by
  -- numbers and names of entries are found by computation
  show (do
    let phase ← Phase.ofName? p.phase.name
    let labels ← (Tree.ofArray (fun label : Nat => .number label) p.labels).array? Tree.nat?
    let dual ← (Tree.ofList (.ofArray .number) p.dual).list? (Tree.array? Tree.int?)
    let heights ← (Tree.ofArray .number p.heights).array? Tree.int?
    return (⟨p.version, p.iteration, p.idle, phase, p.numLabels, labels, dual, heights⟩ :
      Snapshot)) = some p
  rw [Phase.ofName?_name, Tree.array?_ofArray Tree.nat?_number,
    Tree.list?_ofList (Tree.array?_ofArray Tree.int?_number), Tree.array?_ofArray Tree.int?_number]
  rfl

/-! ### Checks -/

/-- The dimensions of the model, and labels in range. -/
structure Fits (m : Model) (p : Snapshot) : Prop where
  version_eq : p.version = snapshotVersion
  phase_ne : p.phase ≠ .uninitialized
  numLabels_eq : p.numLabels = m.numLabels
  labels_size : p.labels.size = m.numVars
  labels_lt : ∀ l ∈ p.labels.toList, l < m.numLabels
  dual_sizes : p.dual.map (·.size) = m.cliques.map (·.size * m.numLabels)
  heights_size : p.heights.size = m.numVars * m.numLabels

/-- A list of checks finds no fault if none of them does. -/
private theorem ite_some_eq_none_iff {q : Prop} [Decidable q] {fault : Fault}
    {rest : Option Fault} : (if q then some fault else rest) = none ↔ ¬ q ∧ rest = none := by
  by_cases hq : q <;> simp [hq]

/-- The shape has no fault if it is that of the model. -/
theorem shapeFault?_eq_none_iff : p.shapeFault? m = none ↔ p.Fits m := by
  unfold shapeFault?
  simp only [ite_some_eq_none_iff, ne_eq, Decidable.not_not]
  constructor
  · rintro ⟨hversion, hphase, hnumLabels, hlabels, hrest⟩
    cases hfind : p.labels.toList.find? (m.numLabels ≤ ·) with
    | some label =>
      rw [hfind] at hrest
      exact absurd hrest (by simp)
    | none =>
      rw [hfind] at hrest
      simp only [ite_some_eq_none_iff, Decidable.not_not] at hrest
      obtain ⟨-, hdual, hheights, -⟩ := hrest
      exact ⟨hversion, hphase, hnumLabels, hlabels,
        fun l hl => by simpa using List.find?_eq_none.mp hfind l hl, hdual, hheights⟩
  · intro h
    have hfind : p.labels.toList.find? (m.numLabels ≤ ·) = none :=
      List.find?_eq_none.mpr fun l hl => by simpa using h.labels_lt l hl
    have hlength : p.dual.length = m.numCliques := by
      simpa [Model.numCliques] using congrArg List.length h.dual_sizes
    rw [hfind]
    simp only [ite_some_eq_none_iff, Decidable.not_not, and_true]
    exact ⟨h.version_eq, h.phase_ne, h.numLabels_eq, h.labels_size, hlength, h.dual_sizes,
      h.heights_size⟩

/-- The content has no fault if it is a valid certificate. -/
theorem contentFault?_eq_none_iff : p.contentFault? m = none ↔
    (p.certificate m).Tight m p.labeling ∧ (p.certificate m).Consistent m := by
  unfold contentFault?
  simp only [ite_some_eq_none_iff, Decidable.not_not, and_true]

/-- A snapshot of the model's dimensions holds a certificate of these dimensions. -/
theorem Fits.shaped (h : p.Fits m) : (p.certificate m).Shaped m := by
  have hlengths : (p.dual.map (·.toList)).map List.length
      = m.cliques.map (·.size * m.numLabels) := by
    rw [← h.dual_sizes, List.map_map]
    rfl
  refine ⟨⟨rfl, rfl, ?_⟩, rfl, h.heights_size⟩
  show (p.dual.map (·.toList)).flatten.toArray.size = (m.cliques.map (·.size)).sum * m.numLabels
  rw [List.size_toArray, List.length_flatten, hlengths, List.sum_map_mul_right]

/-- The labels of such a snapshot are in range. -/
theorem Fits.labeling_lt (h : p.Fits m) (hL : 0 < m.numLabels) (v : Nat) :
    p.labeling v < m.numLabels :=
  Solver.getD_lt_of_forall_mem hL (fun l hl => h.labels_lt l (Array.mem_toList_iff.mpr hl)) v

/-! ### Captured snapshots -/

section

variable {σ τ : Type} {s : Solver σ τ}

/-- A captured snapshot holds the certificate of its solver. -/
theorem certificate_capture (h : s.certificate.Shaped m) :
    (capture s).certificate m = s.certificate := by
  have hvalues : ((capture s).dual.map (·.toList)).flatten.toArray = s.certificate.dual.values := by
    show (s.certificate.dual.blocks.map (·.toList)).flatten.toArray = _
    rw [h.dual.laid.flatten_blocks]
  have hdual : ((capture s).certificate m).dual = s.certificate.dual := by
    rw [certificate, hvalues, Duals.ofSizes, ← h.dual.offsets_eq, ← h.dual.numLabels_eq]
  have hheights : ((capture s).certificate m).heights = s.certificate.heights := by
    rw [certificate, ← h.heights.numLabels_eq]
    rfl
  generalize hcertificate : (capture s).certificate m = t at hdual hheights
  cases t
  subst hdual hheights
  rfl

/-- A ready solver that has started captures the dimensions of the model. -/
theorem fits_capture (h : Solver.Ready m s) (hphase : s.phase ≠ .uninitialized) :
    (capture s).Fits m where
  version_eq := rfl
  phase_ne := hphase
  numLabels_eq := h.numLabels_eq
  labels_size := h.labels_size
  labels_lt l hl := by
    have hmem : l ∈ s.labels := Array.mem_toList_iff.mp hl
    obtain ⟨v, hv, rfl⟩ := Array.mem_iff_getElem.mp hmem
    have hlt := h.labeling_lt v
    rwa [Solver.labeling, Array.getD_eq_getD_getElem?, Array.getElem?_eq_getElem hv] at hlt
  dual_sizes := by
    show s.certificate.dual.blocks.map (·.size) = _
    rw [h.shaped.dual.laid.sizes_blocks, List.map_map]
    rfl
  heights_size := h.shaped.heights.size_eq

/-- What a certified solver captures once it has started passes all checks. -/
theorem capture_passes (h : Solver.Certified m s) (hphase : s.phase ≠ .uninitialized) :
    (capture s).shapeFault? m = none ∧ (capture s).contentFault? m = none := by
  refine ⟨shapeFault?_eq_none_iff.mpr (fits_capture h.toReady hphase),
    contentFault?_eq_none_iff.mpr ?_⟩
  rw [certificate_capture h.shaped]
  exact ⟨h.tight, h.consistent⟩

end

end Snapshot

namespace Solver

variable {σ τ : Type} {m : Model} {s : Solver σ τ}

/-! ### Restoring -/

theorem refuse_ends (fault? : Option Fault) (s : Solver σ τ) :
    Ends (refuse fault?) s (fun _ s' => s' = s ∧ fault? = none)
      (fun fault s' => s' = s ∧ fault? = some fault) := by
  unfold refuse
  cases fault? with
  | none => exact ends_pure ⟨rfl, rfl⟩
  | some fault => exact ends_fail ⟨rfl, rfl⟩

/-- What a snapshot is loaded into: a solver that has started as it is, any other one with fresh
    tables on a graph for the model. -/
inductive Prepared (m : Model) (s : Solver σ τ) : Solver σ τ → Prop
  | started : s.phase ≠ .uninitialized → Prepared m s s
  | fresh (g : Cut.Graph) : s.phase = .uninitialized → m.Valid →
      (s.graph.Fits m → g.Mirrors m) → Prepared m s (allocate m (s.withGraph g))

/-- Why a snapshot is not restored, and what the solver is left as. -/
inductive Refused (m : Model) (p : Snapshot) (s : Solver σ τ) (fault : Fault) : Solver σ τ → Prop
  | shape : p.shapeFault? m = some fault → Refused m p s fault s
  /-- Fresh tables cannot be built. -/
  | tables (g : Cut.Graph) : s.phase = .uninitialized → (s.graph.Fits m → g.Fits m) →
      ¬ (m.Valid ∧ s.graph.Fits m) → Refused m p s fault (s.withGraph g)
  /-- The tables stay. -/
  | content (s₁ : Solver σ τ) : p.shapeFault? m = none → Prepared m s s₁ →
      p.contentFault? m = some fault → Refused m p s fault s₁

/-- A snapshot is checked for its shape, tables are built if there are none, the content is checked,
    and it is loaded. -/
theorem restore_restores (m : Model) (p : Snapshot) (s : Solver σ τ) :
    Ends (restore m p) s
      (fun _ s' => p.shapeFault? m = none ∧ p.contentFault? m = none ∧
        ∃ s₁, Prepared m s s₁ ∧ s' = load m p s₁)
      (Refused m p s) := by
  unfold restore
  refine ends_bind ((refuse_ends _ s).mono (fun _ s₁ h₁ => ?_) fun fault s₁ h₁ => ?_)
  · obtain ⟨rfl, hshape⟩ := h₁
    have hload : ∀ s₂ : Solver σ τ, Prepared m s₁ s₂ → Ends (do
        refuse (p.contentFault? m)
        Action.modify (load m p)
        Action.record (.restored p.iteration p.phase.name)) s₂
        (fun _ s' => p.shapeFault? m = none ∧ p.contentFault? m = none ∧
          ∃ s₂, Prepared m s₁ s₂ ∧ s' = load m p s₂)
        (Refused m p s₁) := by
      intro s₂ hprepared
      refine ends_bind ((refuse_ends _ s₂).mono (fun _ s₃ h₃ => ?_) fun fault s₃ h₃ => ?_)
      · obtain ⟨rfl, hcontent⟩ := h₃
        exact ends_bind (ends_modify (ends_record ⟨hshape, hcontent, _, hprepared, rfl⟩))
      · obtain ⟨rfl, hcontent⟩ := h₃
        exact .content _ hshape hprepared hcontent
    refine ends_bind (ends_get ?_)
    dsimp only
    split
    · rename_i hphase
      refine ends_bind ((buildTables_ends m s₁).mono (fun _ s₂ h₂ => ?_) fun fault s₂ h₂ => ?_)
      · obtain ⟨hv, hmirrors, g, rfl⟩ := h₂
        exact hload _ (.fresh g hphase hv hmirrors)
      · obtain ⟨-, ⟨g, rfl⟩, hfits, hnot⟩ := h₂
        exact .tables g hphase hfits hnot
    · rename_i hphase
      exact hload s₁ (.started hphase)
  · obtain ⟨rfl, hshape⟩ := h₁
    exact .shape hshape

end Solver

end FusionMove
