import FusionMove.Action

namespace FusionMove.Action

/-!
# How actions end

`Ends x s Q E` says how the action `x` ends when it starts in the state `s`: with a value and a
state in `Q`, or with a fault and a state in `E`.  With an empty `E` the action does not fault;
with a full one only its successes matter.

* `ends_bind` — a sequence, step by step;
* `mem_events_bind_left`, `mem_events_bind_right` — what its steps report, `Quietly` — how an action
  ends if it reports no warning, and `Silent` — an action that never does;
* `ends_forEach`, `ends_foldlM` — a loop, with what holds after each entry as its invariant.
-/

-- runs on given inputs can be compared with what they should be
deriving instance DecidableEq for Except

variable {σ τ α β : Type} {Q Q' : α → σ → Prop} {E E' : Fault → σ → Prop} {s : σ}

/-- From `s` the action ends with a value and a state in `Q`, or with a fault and a state in `E`. -/
def Ends (x : Action σ α) (s : σ) (Q : α → σ → Prop) (E : Fault → σ → Prop) : Prop :=
  match (x s).result with
  | .ok a => Q a (x s).state
  | .error fault => E fault (x s).state

theorem ends_iff {x : Action σ α} :
    Ends x s Q E ↔ (∀ a, (x s).result = .ok a → Q a (x s).state) ∧
      ∀ fault, (x s).result = .error fault → E fault (x s).state := by
  unfold Ends
  cases (x s).result <;> simp

/-- What holds after a success. -/
theorem Ends.of_ok {x : Action σ α} (h : Ends x s Q E) {a : α} (ha : (x s).result = .ok a) :
    Q a (x s).state :=
  (ends_iff.mp h).1 a ha

/-- What holds after a fault. -/
theorem Ends.of_error {x : Action σ α} (h : Ends x s Q E) {fault : Fault}
    (hf : (x s).result = .error fault) : E fault (x s).state :=
  (ends_iff.mp h).2 fault hf

/-- An action that cannot fault has a value. -/
theorem Ends.exists_ok_of {x : Action σ α} (h : Ends x s Q E) (hE : ∀ fault s', ¬ E fault s') :
    ∃ a, (x s).result = .ok a ∧ Q a (x s).state := by
  cases hr : (x s).result with
  | ok a => exact ⟨a, rfl, h.of_ok hr⟩
  | error fault => exact absurd (h.of_error hr) (hE fault _)

theorem Ends.exists_ok {x : Action σ α} (h : Ends x s Q fun _ _ => False) :
    ∃ a, (x s).result = .ok a ∧ Q a (x s).state :=
  h.exists_ok_of fun _ _ hf => hf

theorem Ends.mono {x : Action σ α} (h : Ends x s Q E) (hQ : ∀ a s', Q a s' → Q' a s')
    (hE : ∀ fault s', E fault s' → E' fault s') : Ends x s Q' E' :=
  ends_iff.mpr ⟨fun a ha => hQ a _ (h.of_ok ha), fun fault hf => hE fault _ (h.of_error hf)⟩

theorem Ends.mono_ok {x : Action σ α} (h : Ends x s Q E) (hQ : ∀ a s', Q a s' → Q' a s') :
    Ends x s Q' E :=
  h.mono hQ fun _ _ hE => hE

/-- Every action ends somehow. -/
theorem ends_true (x : Action σ α) (s : σ) : Ends x s (fun _ _ => True) fun _ _ => True :=
  ends_iff.mpr ⟨fun _ _ => trivial, fun _ _ => trivial⟩

/-- What is known of the end from two sides holds together. -/
theorem Ends.and {x : Action σ α} (h : Ends x s Q E) (h' : Ends x s Q' E') :
    Ends x s (fun a s' => Q a s' ∧ Q' a s') fun fault s' => E fault s' ∧ E' fault s' :=
  ends_iff.mpr ⟨fun _ ha => ⟨h.of_ok ha, h'.of_ok ha⟩,
    fun _ hf => ⟨h.of_error hf, h'.of_error hf⟩⟩

/-- The value and the state in which an action ends are those of its outcome. -/
theorem Ends.with_outcome {x : Action σ α} (h : Ends x s Q E) :
    Ends x s (fun a s' => Q a s' ∧ (x s).result = .ok a ∧ s' = (x s).state) E :=
  ends_iff.mpr ⟨fun _ ha => ⟨h.of_ok ha, ha, rfl⟩, fun _ hf => h.of_error hf⟩

/-- An action that is known to succeed. -/
theorem ends_of_ok {x : Action σ α} {a : α} (h : (x s).result = .ok a) :
    Ends x s (fun b s' => b = a ∧ s' = (x s).state) E := by
  refine ends_iff.mpr ⟨fun b hb => ⟨Except.ok.inj (hb.symm.trans h), rfl⟩, fun fault hf => ?_⟩
  rw [h] at hf
  exact absurd hf (by simp)

/-- An action keeps what holds whether it succeeds or faults. -/
theorem keeps_iff_ends {P : σ → Prop} {x : Action σ α} :
    Keeps P x ↔ ∀ s, P s → Ends x s (fun _ => P) fun _ => P := by
  unfold Keeps Ends
  refine forall_congr' fun s => imp_congr_right fun _ => ?_
  cases (x s).result <;> rfl

/-! ### Primitives -/

theorem ends_pure {a : α} (h : Q a s) : Ends (pure a) s Q E := h

theorem ends_fail {fault : Fault} (h : E fault s) : Ends (fail fault) s Q E := h

theorem ends_record {event : Event} {Q : Unit → σ → Prop} (h : Q () s) :
    Ends (record event) s Q E := h

theorem ends_get {Q : σ → σ → Prop} (h : Q s s) : Ends get s Q E := h

theorem ends_modify {f : σ → σ} {Q : Unit → σ → Prop} (h : Q () (f s)) :
    Ends (modify f) s Q E := h

theorem ends_ofExcept {x : Except Fault α} (hok : ∀ a, x = .ok a → Q a s)
    (herror : ∀ fault, x = .error fault → E fault s) : Ends (ofExcept x) s Q E := by
  cases x with
  | ok a => exact hok a rfl
  | error fault => exact herror fault rfl

theorem ends_require {p : Prop} [Decidable p] {fault : Fault} {Q : Unit → σ → Prop}
    (hok : p → Q () s) (herror : ¬ p → E fault s) : Ends (require p fault) s Q E := by
  unfold require
  split
  · rename_i hp
    exact hok hp
  · rename_i hp
    exact herror hp

/-! ### Sequences and parts -/

/-- Sequences obey the laws of a monad, what they report included. -/
instance : LawfulMonad (Action σ) :=
  LawfulMonad.mk' (Action σ)
    (fun x => funext fun s => by
      show (x >>= fun a => pure a) s = x s
      rcases hx : x s with ⟨_ | _, s₁, es⟩
      · rw [bind_apply_error hx]
      · rw [bind_apply_ok hx]
        simp)
    (fun _ _ => rfl)
    (fun x f g => funext fun s => by
      rcases hx : x s with ⟨_ | a, s₁, es⟩
      · rw [bind_apply_error hx, bind_apply_error (bind_apply_error hx)]
      · rw [bind_apply_ok hx]
        rcases hf : f a s₁ with ⟨_ | b, s₂, es₂⟩
        · rw [bind_apply_error hf, bind_apply_error ((bind_apply_ok hx).trans (by rw [hf]))]
        · rw [bind_apply_ok hf, bind_apply_ok ((bind_apply_ok hx).trans (by rw [hf])),
            List.append_assoc])

/-- What reads the state first goes on with it. -/
theorem get_bind_apply (f : σ → Action σ α) (s : σ) : (get >>= f) s = f s s := rfl

/-- First steps that run alike make sequences that do. -/
theorem bind_apply_eq {x y : Action σ α} {t : σ} (h : x s = y t) (f : α → Action σ β) :
    (x >>= f) s = (y >>= f) t := by
  rw [bind_apply, bind_apply, h]

/-- A first step that faults gives a sequence its fault. -/
theorem bind_result_of_error {x : Action σ α} {fault : Fault} (h : (x s).result = .error fault)
    (f : α → Action σ β) : ((x >>= f) s).result = .error fault := by
  rw [bind_apply, h]

/-- Sequences that go on alike from where their first step ends are alike. -/
theorem bind_apply_congr {x : Action σ α} {f g : α → Action σ β}
    (h : ∀ a, (x s).result = .ok a → f a (x s).state = g a (x s).state) :
    (x >>= f) s = (x >>= g) s := by
  rcases hx : x s with ⟨_ | a, s₁, es⟩
  · rw [bind_apply_error hx, bind_apply_error hx]
  · rw [hx] at h
    rw [bind_apply_ok hx, bind_apply_ok hx, h a rfl]

theorem ends_bind {x : Action σ α} {f : α → Action σ β} {Q : β → σ → Prop}
    (h : Ends x s (fun a s' => Ends (f a) s' Q E) E) : Ends (x >>= f) s Q E := by
  unfold Ends at h ⊢
  rw [bind_apply]
  cases hr : (x s).result with
  | ok a =>
    rw [hr] at h
    exact h
  | error fault =>
    rw [hr] at h
    exact h

/-- An action on a part of the state. -/
theorem ends_zoom {view : σ → τ} {put : τ → σ → σ} {x : Action τ α}
    (h : Ends x (view s) (fun a t => Q a (put t s)) fun fault t => E fault (put t s)) :
    Ends (zoom view put x) s Q E := h

/-! ### Events -/

/-- What the first step of a sequence reports, the sequence reports. -/
theorem mem_events_bind_left {x : Action σ α} {f : α → Action σ β} {e : Event}
    (he : e ∈ (x s).events) : e ∈ ((x >>= f) s).events := by
  rw [bind_apply]
  cases (x s).result with
  | ok a => exact List.mem_append_left _ he
  | error fault => exact he

/-- So with the second step, if the first one succeeds. -/
theorem mem_events_bind_right {x : Action σ α} {f : α → Action σ β} {a : α} {e : Event}
    (ha : (x s).result = .ok a) (he : e ∈ (f a (x s).state).events) : e ∈ ((x >>= f) s).events := by
  rw [bind_apply, ha]
  exact List.mem_append_right _ he

/-! ### Runs without a warning -/

/-- The run has reported no warning. -/
def Quiet (r : Outcome σ α) : Prop :=
  ∀ e ∈ r.events, e.level ≠ .warn

instance (r : Outcome σ α) : Decidable (Quiet r) :=
  inferInstanceAs (Decidable (∀ e ∈ r.events, _))

/-- The first step of a quiet sequence is quiet. -/
theorem quiet_of_bind {x : Action σ α} {f : α → Action σ β} (h : Quiet ((x >>= f) s)) :
    Quiet (x s) :=
  fun e he => h e (mem_events_bind_left he)

/-- So is the second one, if the first one succeeds. -/
theorem quiet_of_bind_ok {x : Action σ α} {f : α → Action σ β} (h : Quiet ((x >>= f) s)) {a : α}
    (ha : (x s).result = .ok a) : Quiet (f a (x s).state) :=
  fun e he => h e (mem_events_bind_right ha he)

/-- A sequence is quiet if its steps are. -/
theorem quiet_bind {x : Action σ α} {f : α → Action σ β} (hx : Quiet (x s))
    (hf : ∀ a, (x s).result = .ok a → Quiet (f a (x s).state)) : Quiet ((x >>= f) s) := by
  intro e he
  rw [bind_apply] at he
  cases hr : (x s).result with
  | ok a =>
    rw [hr] at he
    exact (List.mem_append.mp he).elim (hx e) (hf a hr e)
  | error fault =>
    rw [hr] at he
    exact hx e he

/-- The action is quiet wherever it starts. -/
def Silent (x : Action σ α) : Prop :=
  ∀ s, Quiet (x s)

theorem silent_pure (a : α) : Silent (pure a : Action σ α) :=
  fun _ _ he => absurd he List.not_mem_nil

theorem silent_fail (fault : Fault) : Silent (fail fault : Action σ α) :=
  fun _ _ he => absurd he List.not_mem_nil

theorem silent_get : Silent (get : Action σ σ) :=
  fun _ _ he => absurd he List.not_mem_nil

theorem silent_modify (f : σ → σ) : Silent (modify f) :=
  fun _ _ he => absurd he List.not_mem_nil

theorem silent_ofExcept (x : Except Fault α) : Silent (ofExcept x : Action σ α) :=
  fun _ _ he => absurd he List.not_mem_nil

/-- A report is silent unless it is a warning. -/
theorem silent_record {event : Event} (h : event.level ≠ .warn) :
    Silent (record event : Action σ Unit) := by
  intro s e he
  obtain rfl := List.mem_singleton.mp he
  exact h

theorem silent_require (p : Prop) [Decidable p] (fault : Fault) :
    Silent (require p fault : Action σ Unit) := by
  unfold require
  split
  · exact silent_pure ()
  · exact silent_fail fault

theorem silent_bind {x : Action σ α} {f : α → Action σ β} (hx : Silent x)
    (hf : ∀ a, Silent (f a)) : Silent (x >>= f) :=
  fun s => quiet_bind (hx s) fun a _ => hf a _

theorem silent_zoom {view : σ → τ} {put : τ → σ → σ} {x : Action τ α} (hx : Silent x) :
    Silent (zoom view put x) :=
  fun s => hx (view s)

theorem silent_forEach {as : List α} {f : α → Action σ Unit} (hf : ∀ a, Silent (f a)) :
    Silent (forEach as f) := by
  induction as with
  | nil => exact silent_pure ()
  | cons a as ih => exact silent_bind (hf a) fun _ => ih

/-- From `s` the action ends with a value and a state in `Q`, or with a fault, or has warned. -/
def Quietly (x : Action σ α) (s : σ) (Q : α → σ → Prop) : Prop :=
  ∀ a, (x s).result = .ok a → Quiet (x s) → Q a (x s).state

theorem Ends.quietly {x : Action σ α} (h : Ends x s Q E) : Quietly x s Q :=
  fun _ ha _ => h.of_ok ha

theorem Quietly.and {x : Action σ α} (h : Quietly x s Q) (h' : Quietly x s Q') :
    Quietly x s fun a s' => Q a s' ∧ Q' a s' :=
  fun a ha hquiet => ⟨h a ha hquiet, h' a ha hquiet⟩

theorem Quietly.mono {x : Action σ α} (h : Quietly x s Q) (hQ : ∀ a s', Q a s' → Q' a s') :
    Quietly x s Q' :=
  fun a ha hquiet => hQ a _ (h a ha hquiet)

theorem quietly_pure {a : α} (h : Q a s) : Quietly (pure a) s Q := by
  rintro _ ⟨⟩ _
  exact h

theorem quietly_get {Q : σ → σ → Prop} (h : Q s s) : Quietly get s Q := by
  rintro _ ⟨⟩ _
  exact h

theorem quietly_modify {f : σ → σ} {Q : Unit → σ → Prop} (h : Q () (f s)) :
    Quietly (modify f) s Q :=
  fun _ _ _ => h

theorem quietly_bind {x : Action σ α} {f : α → Action σ β} {Q : β → σ → Prop}
    (h : Quietly x s fun a s' => Quietly (f a) s' Q) : Quietly (x >>= f) s Q := by
  intro b hb hquiet
  obtain ⟨a, ha, hb⟩ := bind_result_eq_ok_iff.mp hb
  rw [bind_state_of_ok ha]
  exact h a ha (quiet_of_bind hquiet) b hb (quiet_of_bind_ok hquiet ha)

/-! ### Loops -/

/-- A loop, given what holds before each of its entries. -/
theorem ends_forEach {as : List α} {f : α → Action σ Unit} {I : Nat → σ → Prop}
    (hstep : ∀ i a, as[i]? = some a → ∀ s, I i s → Ends (f a) s (fun _ s' => I (i + 1) s') E)
    (h0 : I 0 s) : Ends (forEach as f) s (fun _ s' => I as.length s') E := by
  induction as generalizing s I with
  | nil => exact h0
  | cons a as ih =>
    rw [forEach_cons]
    apply ends_bind
    have hhead := hstep 0 a rfl s h0
    refine hhead.mono_ok fun _ s' h1 => ?_
    exact ih (fun i b hb => hstep (i + 1) b (by simpa using hb)) h1

/-- A loop over a list with its indices. -/
theorem ends_forEach_zipIdx {as : List α} {f : α × Nat → Action σ Unit} {I : Nat → σ → Prop}
    (hstep : ∀ i a, as[i]? = some a → ∀ s, I i s →
      Ends (f (a, i)) s (fun _ s' => I (i + 1) s') E)
    (h0 : I 0 s) : Ends (forEach as.zipIdx f) s (fun _ s' => I as.length s') E := by
  have hloop : Ends (forEach as.zipIdx f) s (fun _ s' => I as.zipIdx.length s') E := by
    refine ends_forEach (fun i p hp => ?_) h0
    obtain ⟨a, j⟩ := p
    rw [List.getElem?_zipIdx, Option.map_eq_some_iff] at hp
    obtain ⟨b, hb, heq⟩ := hp
    obtain ⟨rfl, rfl⟩ := Prod.mk.inj heq
    rw [Nat.zero_add]
    exact hstep i b hb
  rwa [List.length_zipIdx] at hloop

/-- A loop with a result so far, given what holds once the entries `seen` are done. -/
theorem ends_foldlM_seen {as : List α} {f : β → α → Action σ β} {b : β}
    {I : List α → β → σ → Prop}
    (hstep : ∀ seen, ∀ a ∈ as, ∀ b s, I seen b s → Ends (f b a) s (I (seen ++ [a])) E)
    (h0 : I [] b s) : Ends (as.foldlM f b) s (I as) E := by
  -- the entries done stand before those to come
  suffices key : ∀ (rest seen : List α) (b : β) (s : σ), (∀ a ∈ rest, a ∈ as) → I seen b s →
      Ends (rest.foldlM f b) s (I (seen ++ rest)) E from key as [] b s (fun _ h => h) h0
  intro rest
  induction rest with
  | nil =>
    intro seen b s _ h
    rw [List.append_nil]
    exact h
  | cons a rest ih =>
    intro seen b s hmem h
    rw [List.foldlM_cons]
    apply ends_bind
    refine (hstep seen a (hmem a (by simp)) b s h).mono_ok fun b' s' h' => ?_
    have hrest := ih (seen ++ [a]) b' s' (fun c hc => hmem c (by simp [hc])) h'
    rwa [List.append_assoc, List.singleton_append] at hrest

/-- The same if what holds does not depend on the entries done. -/
theorem ends_foldlM {as : List α} {f : β → α → Action σ β} {b : β} {I : β → σ → Prop}
    (hstep : ∀ a ∈ as, ∀ b s, I b s → Ends (f b a) s I E) (h0 : I b s) :
    Ends (as.foldlM f b) s I E :=
  ends_foldlM_seen (I := fun _ => I) (fun _ => hstep) h0

end FusionMove.Action
