import FusionMove.Proofs.Solver.Safety

namespace FusionMove

/-!
# Which snapshots are accepted

A snapshot may come from anywhere.  It is restored if it is a valid state of the model and refused
otherwise, whatever the solver has been through, and a solver that has restored it captures the same
snapshot again.

What a valid state is does not depend on how a solver lays its tables out.

* `Snapshot.Valid` — the snapshots that are valid states, read off their own blocks and rows;
* `Snapshot.Fits.get_certificate` — what stands in the blocks stands in the table made of them;
* `Snapshot.valid_iff` — the checks let these snapshots pass;
* `Snapshot.Fits.blocks_certificate` — the table is cut into the same blocks again;
* `Solver.session_accepts_valid` — after any session, restoring accepts these snapshots and is inverse
  to capturing.
-/

open FusionMove.Action
open scoped CoreArithmetic

namespace Snapshot

variable {m : Model} {p : Snapshot}

/-! ### Valid snapshots -/

/-- The dual of member `i` of clique `c` at the label `l`, in the block of the clique. -/
def dualAt (p : Snapshot) (c i l : Nat) : Int :=
  (p.dual.getD c #[]).getD (i * p.numLabels + l) 0

/-- The height of `v` at the label `l`. -/
def heightAt (p : Snapshot) (v l : Nat) : Int :=
  p.heights.getD (v * p.numLabels + l) 0

/-- The snapshot is a state of a started solver over the model: it has the counts of the model and
    labels in range, in every clique the duals at these labels sum to the energy, and every height
    is the unary cost plus the duals of the members that are its variable. -/
structure Valid (m : Model) (p : Snapshot) : Prop where
  version_eq : p.version = 1
  phase_ne : p.phase ≠ .uninitialized
  numLabels_eq : p.numLabels = m.numLabels
  numVars_eq : p.numVars = m.numVars
  numCliques_eq : p.dual.length = m.numCliques
  block_size : ∀ (c : Nat) (clique : Clique) (block : Array Int), m.cliques[c]? = some clique →
    p.dual[c]? = some block → block.size = clique.size * m.numLabels
  heights_size : p.heights.size = m.numVars * m.numLabels
  labels_lt : ∀ l ∈ p.labels, l < m.numLabels
  dual_eq : ∀ (c : Nat) (clique : Clique), m.cliques[c]? = some clique →
    sumTo clique.size (fun i => p.dualAt c i (p.labeling (clique.nodes.getD i 0)))
      = clique.energyAt p.labeling
  height_eq : ∀ v < m.numVars, ∀ l < m.numLabels, p.heightAt v l
    = m.unary v l + ((Certificate.places m v).map fun place => p.dualAt place.1 place.2 l).sum

/-! ### Tables made of blocks -/

/-- What stands in the blocks of a snapshot stands in the duals of its certificate. -/
theorem Fits.get_certificate (h : p.Fits m) {c i l : Nat} (hcell : m.HasCell c i l) :
    (p.certificate m).dual.get c i l = p.dualAt c i l := by
  obtain ⟨clique, hclique, hi, hl⟩ := hcell
  obtain ⟨block, hblock, -, hentry⟩ := h.exists_block hclique
  rw [dualAt, h.numLabels_eq, List.getD_eq_getElem?_getD, hblock, Option.getD_some,
    Array.getD_eq_getD_getElem?, hentry i hi l hl, Option.getD_some]

/-- What stands in its rows stands in the heights. -/
theorem Fits.height_certificate (h : p.Fits m) (v l : Nat) :
    (p.certificate m).heights.get v l = p.heightAt v l := by
  rw [heightAt, h.numLabels_eq]
  rfl

/-- The certificate is cut into the blocks of the snapshot again. -/
theorem Fits.blocks_certificate (h : p.Fits m) : (p.certificate m).dual.blocks = p.dual := by
  have hs := h.shaped.dual
  have hsizes : (p.certificate m).dual.blocks.map (·.size) = p.dual.map (·.size) := by
    rw [hs.laid.sizes_blocks, h.dual_sizes, List.map_map]
    rfl
  -- lists of blocks are equal if their sizes are, and all values in a row
  refine List.map_injective_iff.mpr (fun _ _ => Array.toList_inj.mp)
    (List.eq_iff_flatten_eq.mpr ⟨?_, ?_⟩)
  · exact hs.laid.flatten_blocks
  · rw [List.map_map, List.map_map]
    exact hsizes

/-! ### Checks -/

/-- The dimensions of a valid snapshot. -/
theorem Valid.fits (h : p.Valid m) : p.Fits m where
  version_eq := h.version_eq
  phase_ne := h.phase_ne
  numLabels_eq := h.numLabels_eq
  labels_size := h.numVars_eq
  labels_lt l hl := h.labels_lt l (Array.mem_toList_iff.mp hl)
  dual_sizes := by
    have hlength := h.numCliques_eq
    refine List.ext_getElem (by simpa [Model.numCliques] using hlength) fun c hc hc' => ?_
    rw [List.length_map] at hc hc'
    rw [List.getElem_map, List.getElem_map]
    exact h.block_size c _ _ (List.getElem?_eq_getElem hc') (List.getElem?_eq_getElem hc)
  heights_size := h.heights_size

/-- Duals are tight if the blocks of all cliques sum to their energies. -/
theorem Fits.tight_iff (h : p.Fits m) (hv : m.Valid) :
    (p.certificate m).Tight m p.labeling ↔ ∀ c clique, m.cliques[c]? = some clique →
      sumTo clique.size (fun i => p.dualAt c i (p.labeling (clique.nodes.getD i 0)))
        = clique.energyAt p.labeling := by
  rw [Certificate.tight_iff]
  refine forall_congr' fun c => forall_congr' fun clique => forall_congr' fun hclique => ?_
  rw [Certificate.dualSum_labelsAt hv.wellFormed hclique, sumTo_congr fun i hi =>
    h.get_certificate ⟨clique, hclique, hi, h.labeling_lt hv.numLabels_pos _⟩]

/-- Heights are consistent if the blocks and the unary costs sum to them. -/
theorem Fits.consistent_iff (h : p.Fits m) :
    (p.certificate m).Consistent m ↔ ∀ v < m.numVars, ∀ l < m.numLabels, p.heightAt v l
      = m.unary v l + ((Certificate.places m v).map fun place => p.dualAt place.1 place.2 l).sum := by
  refine forall_congr' fun v => forall_congr' fun _ => forall_congr' fun l => forall_congr' fun hl => ?_
  have hdual : ∀ place ∈ Certificate.places m v,
      (p.certificate m).dual.get place.1 place.2 l = p.dualAt place.1 place.2 l := by
    rintro ⟨c, i⟩ hplace
    obtain ⟨clique, hclique, hi⟩ := mem_incidence_map.mp hplace
    exact h.get_certificate ⟨clique, hclique, (List.getElem?_eq_some_iff.mp hi).1, hl⟩
  rw [h.height_certificate, Certificate.heightFrom, List.map_congr_left hdual]

/-- The checks let the valid snapshots pass, and no other ones. -/
theorem valid_iff (hv : m.Valid) :
    p.Valid m ↔ p.shapeFault? m = none ∧ p.contentFault? m = none := by
  rw [shapeFault?_eq_none_iff, contentFault?_eq_none_iff]
  constructor
  · exact fun h => ⟨h.fits, (h.fits.tight_iff hv).mpr h.dual_eq,
      h.fits.consistent_iff.mpr h.height_eq⟩
  · rintro ⟨h, htight, hconsistent⟩
    have hlength : p.dual.length = m.numCliques := by
      simpa [Model.numCliques] using congrArg List.length h.dual_sizes
    refine ⟨h.version_eq, h.phase_ne, h.numLabels_eq, h.labels_size, hlength,
      fun c clique block hclique hblock => ?_, h.heights_size,
      fun l hl => h.labels_lt l (Array.mem_toList_iff.mpr hl), (h.tight_iff hv).mp htight,
      h.consistent_iff.mp hconsistent⟩
    obtain ⟨block', hblock', hsize, -⟩ := h.exists_block hclique
    obtain rfl := Option.some.inj (hblock.symm.trans hblock')
    exact hsize

end Snapshot

namespace Solver

variable {σ τ : Type} {m : Model} {s : Solver σ τ} {p : Snapshot}

/-! ### Restoring -/

/-- On a graph that fits, restoring succeeds for the valid snapshots. -/
theorem restore_ok_iff (hv : m.Valid) (hg : s.graph.Fits m) :
    (restore m p s).result = .ok () ↔ p.Valid m := by
  have hrestore := restore_restores m p s
  rw [Snapshot.valid_iff hv]
  constructor
  · intro hok
    obtain ⟨hshape, hcontent, -⟩ := hrestore.of_ok hok
    exact ⟨hshape, hcontent⟩
  · rintro ⟨hshape, hcontent⟩
    obtain ⟨⟨⟩, hok, -⟩ := hrestore.exists_ok_of fun fault s' hrefused => by
      cases hrefused with
      | shape hfault => exact absurd (hshape.symm.trans hfault) (by simp)
      | tables _ _ _ hnot => exact hnot ⟨hv, hg⟩
      | content _ _ _ hfault => exact absurd (hcontent.symm.trans hfault) (by simp)
    exact hok

/-- A solver that has restored a snapshot captures it again. -/
theorem capture_restore (h : Booked m s) :
    Ends (restore m p) s (fun _ s' => Snapshot.capture s' = p) (fun _ _ => True) := by
  refine (restore_restores m p s).mono (fun _ s' h' => ?_) fun _ _ _ => trivial
  obtain ⟨hshape, -, s₁, hprepared, rfl⟩ := h'
  have hfits := Snapshot.shapeFault?_eq_none_iff.mp hshape
  have hnumLabels := (hprepared.tabled h).numLabels_eq.trans hfits.numLabels_eq.symm
  show (⟨snapshotVersion, p.iteration, p.idle, p.phase, s₁.numLabels, p.labels,
    (p.certificate m).dual.blocks, p.heights⟩ : Snapshot) = p
  rw [← hfits.version_eq, hnumLabels, hfits.blocks_certificate]

/-- Over every model that can be built, and after every session of a solver on its own oracle, whether
    its requests were refused or not, restoring accepts the valid snapshots and no other ones.  A
    solver that has accepted one captures just this snapshot. -/
theorem session_accepts_valid {d : Draft} (hd : d.Built) (config : Config)
    (requests : List (Request τ)) (p : Snapshot) {s : Solver Unit τ}
    (hs : (session (Request.run d.toModel) requests
      (Solver.new ⟨Cut.Graph.empty, ()⟩ config)).2 = s) :
    ((restore d.toModel p s).result = .ok () ↔ p.Valid d.toModel) ∧
      ((restore d.toModel p s).result = .ok () →
        Snapshot.capture (restore d.toModel p s).state = p) := by
  have hv : d.toModel.Valid := hd.valid
  have h := orderly_session hv.wellFormed requests (orderly_new (τ := τ) d.toModel config)
  rw [hs] at h
  exact ⟨restore_ok_iff hv h.onMirror.1, (capture_restore h.booked).of_ok⟩

/-- Three variables; one clique has the last of them twice, and both cliques have the second one.  No
    run leads to the duals of the snapshot, but they are in order.  One height beside the sum of its
    duals, and the snapshot is refused. -/
theorem session_accepts_valid_invented :
    let d : Draft :=
      ⟨2, #[0, 3, 4, 1, 0, 0], #[.potts [0, 1] 3, .affine [2, 1, 2] 1 [1, 2, 0]]⟩
    let p : Snapshot := ⟨1, 7, 9, .converged, 2, #[1, 1, 1],
      [#[2, -5, 9, 5], #[0, 3, 100, -4, 0, 5]], #[2, -2, 113, 2, 0, 8]⟩
    let beside : Snapshot := { p with heights := #[2, -2, 113, 2, 0, 9] }
    let s : Solver Unit Unit := (session (Request.run d.toModel) [.restore beside, .solve]
      (Solver.new ⟨Cut.Graph.empty, ()⟩ .standard)).2
    d.Built ∧ p.Valid d.toModel ∧ ¬ beside.Valid d.toModel ∧
      (restore d.toModel p s).result = .ok () ∧
      Snapshot.capture (restore d.toModel p s).state = p := by
  intro d p beside s
  have hpair : Draft.Built ⟨2, #[0, 3, 4, 1, 0, 0], #[.potts [0, 1] 3]⟩ := .addClique (.potts [0, 1] 3)
    (.addCosts 1 #[4, 1] (.addCosts 0 #[0, 3] (.addVars 3 (@Draft.Built.new 2 _ rfl)) rfl) rfl) rfl
  have hd : d.Built := .addClique (.affine [2, 1, 2] 1 [1, 2, 0]) hpair rfl
  have hok : (restore d.toModel p s).result = .ok () := by decide +kernel
  have hrefused : (restore d.toModel beside s).result ≠ .ok () := by decide +kernel
  obtain ⟨haccepts, hcapture⟩ := session_accepts_valid hd .standard _ p (s := s) rfl
  obtain ⟨hbeside, -⟩ := session_accepts_valid hd .standard _ beside (s := s) rfl
  exact ⟨hd, haccepts.mp hok, fun h => hrefused (hbeside.mpr h), hok, hcapture hok⟩

end Solver

end FusionMove
