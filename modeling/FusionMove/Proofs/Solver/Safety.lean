import FusionMove.Solver.Session
import FusionMove.Proofs.Energy.Draft
import FusionMove.Proofs.Solver.SnapshotBounds

namespace FusionMove.Solver

/-!
# Sessions are safe

A caller builds a model and then makes requests, in any order and with any arguments: snapshots from
anywhere, callbacks that answer with any labels.  Requests may be refused, and a refused one may have
done half of its work.

* `Solver.Orderly` — what every request keeps, refused or not;
* `Request.check_vouched` — a request on an orderly solver misses no entry;
* `Solver.SafeSession` — what a session that misses none is like, `Solver.session_safe` — all of them
  are.
-/

open FusionMove.Action

variable {τ : Type} {m : Model} {s s' : Solver Unit τ}

/-! ### What requests keep -/

/-- Nothing is there before the tables are. -/
def Blank (s : Solver Unit τ) : Prop :=
  ¬ s.Allocated → s.labels = #[] ∧ s.certificate = Certificate.empty

/-- A solver with its tables and its graph in order, as far as it has them. -/
structure Orderly (m : Model) (s : Solver Unit τ) : Prop where
  booked : Booked m s
  onMirror : OnMirror m s
  blank : Blank s

/-- A tabled solver has allocated its tables. -/
theorem Tabled.allocated (h : Tabled m s) : s.Allocated := by
  rw [Allocated, h.numLabels_eq]
  exact Nat.pos_iff_ne_zero.mp h.numLabels_pos

theorem Spared.blank (h : Spared m s s') (hblank : Blank s) : Blank s' := by
  rcases h with ⟨g, rfl⟩ | htabled
  · exact hblank
  · exact fun hfresh => absurd htabled.allocated hfresh

/-- A solver on an empty graph, as it is made. -/
theorem orderly_new (m : Model) (config : Config) :
    Orderly m (Solver.new ⟨Cut.Graph.empty, ()⟩ config : Solver Unit τ) where
  booked := booked_new _ _
  onMirror := ⟨Cut.Graph.fits_empty m, fun hne => absurd rfl hne⟩
  blank := fun _ => ⟨rfl, rfl⟩

/-- An operation that leaves tables or spares the solver, and leaves a graph that fits. -/
theorem keeps_orderly {α : Type} {x : Action (Solver Unit τ) α}
    (htables : ∀ s, Booked m s → Ends x s (fun _ s' => Tabled m s') fun _ s' => Spared m s s')
    (hmirror : Keeps (OnMirror m) x) : Keeps (Orderly m) x := by
  intro s h
  have hspared : Spared m s (x s).state := by
    cases hr : (x s).result with
    | ok a => exact .inr ((htables s h.booked).of_ok hr)
    | error fault => exact (htables s h.booked).of_error hr
  exact ⟨hspared.booked h.booked, hmirror s h.onMirror, hspared.blank h.blank⟩

theorem keeps_setStrategy_orderly (strategy : Strategy τ) :
    Keeps (Orderly m : Solver Unit τ → Prop) (setStrategy strategy) := fun _ h =>
  ⟨keeps_setStrategy strategy _ h.booked, setStrategy_onMirror strategy h.onMirror, h.blank⟩

/-- Every request keeps a solver orderly, whether it is refused or not. -/
theorem Request.keeps_orderly (hw : m.WellFormed) (request : Request τ) :
    Keeps (Orderly m) (request.run m) := by
  cases request with
  | solve =>
    exact keeps_bind (Solver.keeps_orderly (fun _ => iterate_tables _ maxBudget)
      (keeps_iterate_onMirror hw maxBudget)) fun _ => keeps_pure _ _
  | iterate budget =>
    exact keeps_bind (Solver.keeps_orderly (fun _ => iterate_tables _ budget)
      (keeps_iterate_onMirror hw budget)) fun _ => keeps_pure _ _
  | lowerBound =>
    exact keeps_bind (Solver.keeps_orderly (fun _ => lowerBound_tables)
      keeps_lowerBound_onMirror) fun _ => keeps_pure _ _
  | restore p =>
    exact keeps_bind (Solver.keeps_orderly (fun _ => restore_tables p)
      (keeps_restore_onMirror p)) fun _ => keeps_pure _ _
  | setStrategy strategy =>
    exact keeps_bind (keeps_setStrategy_orderly strategy) fun _ => keeps_pure _ _
  -- what only looks at a solver leaves it as it is
  | label | labels | dual | height | adjacent | iteration | phase | energy | capture =>
    exact fun _ h => h

/-! ### What requests ask for -/

/-- Any solver can be captured; without tables there is no block to cut out. -/
theorem Orderly.capture_eq_ok (h : Orderly m s) :
    Checked.capture s = .ok (Snapshot.capture s) := by
  rcases h.booked with ⟨-, hfresh⟩ | htabled
  · have hempty : s.certificate = Certificate.empty := (h.blank hfresh).2
    rw [Checked.capture, Snapshot.capture, hempty]
    rfl
  · exact Checked.capture_eq_ok htabled

/-- A response that is read off the solver. -/
theorem view_vouched (f : Solver Unit τ → Response) :
    Vouched (get >>= fun s => pure (f s)) (get >>= fun s => pure (f s)) s fun _ _ => True :=
  vouched_get_bind (vouched_pure trivial)

/-- Every entry that a request asks for is there. -/
theorem Request.check_vouched (hv : m.Valid) (h : Orderly m s) (request : Request τ) :
    Vouched (request.check m) (request.run m) s fun _ _ => True := by
  cases request with
  | solve =>
    exact vouched_bind ((iterate_vouched hv h.booked h.onMirror maxBudget).mono fun _ _ _ =>
      vouched_pure trivial)
  | iterate budget =>
    exact vouched_bind ((iterate_vouched hv h.booked h.onMirror budget).mono fun _ _ _ =>
      vouched_pure trivial)
  | lowerBound =>
    exact vouched_bind ((lowerBound_vouched hv h.booked h.onMirror).mono fun _ _ _ =>
      vouched_pure trivial)
  | restore p =>
    exact vouched_bind ((restore_vouched hv h.booked h.onMirror p).mono fun _ _ _ =>
      vouched_pure trivial)
  | setStrategy strategy => exact vouched_self trivial
  | label v => exact view_vouched fun s => .label (s.label? v)
  | labels => exact view_vouched fun s => .labels s.labels
  | adjacent v => exact view_vouched fun s => .places (s.adjacent v)
  | iteration => exact view_vouched fun s => .count s.iteration
  | phase => exact view_vouched fun s => .phase s.phase
  | dual c i l =>
    exact vouched_get_bind (vouched_read (Checked.dual_eq_ok h.booked c i l) (vouched_pure trivial))
  | height v l =>
    exact vouched_get_bind (vouched_read (Checked.height_eq_ok h.booked v l) (vouched_pure trivial))
  | energy =>
    exact vouched_get_bind (vouched_read (Checked.energy_eq_ok hv h.booked) (vouched_pure trivial))
  | capture =>
    exact vouched_get_bind (vouched_read h.capture_eq_ok (vouched_pure trivial))

/-! ### Sessions -/

/-- A session keeps a solver orderly. -/
theorem orderly_session (hw : m.WellFormed) (requests : List (Request τ)) (h : Orderly m s) :
    Orderly m (session (Request.run m) requests s).2 := by
  induction requests generalizing s with
  | nil => exact h
  | cons request requests ih => exact ih (request.keeps_orderly hw s h)

/-- The checked form of a session is the session. -/
theorem session_check_eq (hv : m.Valid) (requests : List (Request τ)) (h : Orderly m s) :
    session (Request.check m) requests s = session (Request.run m) requests s := by
  induction requests generalizing s with
  | nil => rfl
  | cons request requests ih =>
    rw [session, session, (request.check_vouched hv h).apply_eq,
      ih (request.keeps_orderly hv.wellFormed s h)]

/-- No response blames an access. -/
theorem session_blameless (hv : m.Valid) (requests : List (Request τ)) (h : Orderly m s) :
    ∀ fault, .error fault ∈ (session (Request.run m) requests s).1 → fault.blamesAccess = false := by
  induction requests generalizing s with
  | nil => exact fun _ hf => absurd hf List.not_mem_nil
  | cons request requests ih =>
    intro fault hf
    rcases List.mem_cons.mp hf with hhead | htail
    · exact (request.check_vouched hv h).ends.of_error hhead.symm
    · exact ih (request.keeps_orderly hv.wellFormed s h) fault htail

/-- A session in which every entry asked for is there and no divisor is zero: with all accesses
    checked it is the same, no request stops at one of them, and in the end the labels are empty, or
    one for every variable and each of them in range. -/
structure SafeSession (m : Model) (requests : List (Request τ)) (s : Solver Unit τ) : Prop where
  check_eq : session (Request.check m) requests s = session (Request.run m) requests s
  blameless : ∀ fault, .error fault ∈ (session (Request.run m) requests s).1 →
    fault ≠ .outOfRange ∧ fault ≠ .divisionByZero
  allocated : (session (Request.run m) requests s).2.phase ≠ .uninitialized →
    (session (Request.run m) requests s).2.Allocated
  labels_allocated : (session (Request.run m) requests s).2.Allocated →
    (session (Request.run m) requests s).2.labels.size = m.numVars ∧
      ∀ l ∈ (session (Request.run m) requests s).2.labels, l < m.numLabels
  labels_blank : ¬ (session (Request.run m) requests s).2.Allocated →
    (session (Request.run m) requests s).2.labels = #[]

/-- The labels of a solver with tables are in range. -/
theorem Tabled.labels_lt (h : Tabled m s) : ∀ l ∈ s.labels, l < m.numLabels := by
  intro l hl
  obtain ⟨v, hv, rfl⟩ := Array.getElem_of_mem hl
  have hlt := h.labeling_lt v
  rwa [labeling, Array.getD_eq_getD_getElem?, Array.getElem?_eq_getElem hv] at hlt

/-- Whatever model is built and whatever is then asked of a new solver, the session is safe.  As the
    first requests of a session are one too, this holds after every request, whether those before it
    were refused or not. -/
theorem session_safe {d : Draft} (hd : d.Built) (config : Config) (requests : List (Request τ)) :
    d.numLabels ≠ 0 ∧
      SafeSession d.toModel requests (Solver.new ⟨Cut.Graph.empty, ()⟩ config) := by
  have hv : d.toModel.Valid := hd.valid
  have hnew := orderly_new (τ := τ) d.toModel config
  have hend := orderly_session hv.wellFormed requests hnew
  refine ⟨Nat.pos_iff_ne_zero.mp hd.sound.numLabels_pos, ?_⟩
  refine ⟨session_check_eq hv requests hnew, fun fault hf => ?_, fun hphase => ?_,
    fun hallocated => ?_, fun hfresh => (hend.blank hfresh).1⟩
  · have hblames := session_blameless hv requests hnew fault hf
    constructor <;> rintro rfl <;> exact absurd hblames (by decide)
  · exact (hend.booked.tabled hphase).allocated
  · have htabled : Tabled d.toModel _ := hend.booked.resolve_left fun h => h.2 hallocated
    exact ⟨htabled.labels_size, htabled.labels_lt⟩

/-- A snapshot whose duals are not tight is refused after tables were built for it, a callback answers
    with labels that the model does not have, and the clique turns out to be negative in the middle
    of an iteration.  The solver is asked on all the same. -/
theorem session_safe_refused :
    let clique : Clique := .lookup [0, 1] 2 #[0, 0, 0, -5]
    let d : Draft := ⟨2, #[0, 3, 4, 1], #[clique]⟩
    let foreign : Snapshot :=
      ⟨snapshotVersion, 7, 0, .converged, 2, #[0, 1], [#[7, 7, 7, 7]], #[0, 3, 4, 1]⟩
    let requests : List (Request Nat) := [.capture, .restore foreign, .labels,
      .setStrategy (.custom (fun k _ _ _ => (fun v => 99 + v, k + 1)) 0), .solve, .energy, .capture,
      .lowerBound, .height 1 1, .solve]
    let s₀ : Solver Unit Nat := Solver.new ⟨Cut.Graph.empty, ()⟩ .standard
    d.Built ∧ SafeSession d.toModel requests s₀ ∧
      (session (Request.run d.toModel) requests s₀).1.map (·.isOk)
        = [true, false, true, true, false, true, true, false, true, true] ∧
      (session (Request.run d.toModel) requests s₀).2.labels = #[1, 1] := by
  intro clique d foreign requests s₀
  have hd : d.Built := .addClique clique (.addCosts 1 #[4, 1] (.addCosts 0 #[0, 3]
    (.addVars 2 (@Draft.Built.new 2 _ rfl)) rfl) rfl) rfl
  exact ⟨hd, (session_safe hd .standard requests).2, by decide +kernel, by decide +kernel⟩

end FusionMove.Solver
