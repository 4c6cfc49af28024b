import FusionMove.Proofs.Action

namespace FusionMove.Action

/-!
# Agreement

Two runs agree if they yield the same value or the same fault.  `Agree x y s t Q E` says so of the
action `x` from the state `s` and the action `y` from the state `t`, and that the states in which
they end are related by `Q` after a value and by `E` after a fault.  What the runs report does not
matter.

* `agree_bind` — two sequences, step by step;
* `agree_forEach_zipIdx`, `agree_foldlM` — two loops over one list, with a relation of states as
  their invariant;
* `Agree.ends` — a run agrees with itself in what holds of its end.
-/

variable {σ τ σ' τ' α β : Type}

/-- The runs of `x` from `s` and of `y` from `t` have the same result, and end in states that are
    related by `Q`, or by `E` if they fault. -/
structure Agree (x : Action σ α) (y : Action τ α) (s : σ) (t : τ) (Q : α → σ → τ → Prop)
    (E : σ → τ → Prop) : Prop where
  result_eq : (y t).result = (x s).result
  of_ok : ∀ a, (x s).result = .ok a → Q a (x s).state (y t).state
  of_error : ∀ fault, (x s).result = .error fault → E (x s).state (y t).state

variable {s : σ} {t : τ} {Q Q' : α → σ → τ → Prop} {E E' : σ → τ → Prop}

theorem Agree.mono {x : Action σ α} {y : Action τ α} (h : Agree x y s t Q E)
    (hQ : ∀ a s' t', Q a s' t' → Q' a s' t') (hE : ∀ s' t', E s' t' → E' s' t') :
    Agree x y s t Q' E' :=
  ⟨h.result_eq, fun a ha => hQ a _ _ (h.of_ok a ha), fun fault hf => hE _ _ (h.of_error fault hf)⟩

theorem Agree.mono_ok {x : Action σ α} {y : Action τ α} (h : Agree x y s t Q E)
    (hQ : ∀ a s' t', Q a s' t' → Q' a s' t') : Agree x y s t Q' E :=
  h.mono hQ fun _ _ hE => hE

/-- Whatever the result, the states at the end are related if both relations say so. -/
theorem Agree.state {x : Action σ α} {y : Action τ α} (h : Agree x y s t (fun _ => E) E) :
    E (x s).state (y t).state := by
  cases hr : (x s).result with
  | ok a => exact h.of_ok a hr
  | error fault => exact h.of_error fault hr

/-- What relates a run to itself holds of its end. -/
theorem Agree.ends {x : Action σ α} {s : σ} {Q : α → σ → σ → Prop} {E : σ → σ → Prop}
    (h : Agree x x s s Q E) : Ends x s (fun a s' => Q a s' s') fun _ s' => E s' s' :=
  ends_iff.mpr ⟨h.of_ok, h.of_error⟩

/-- Two runs that both end well agree if their values do. -/
theorem agree_of_ok {x : Action σ α} {y : Action τ α} {a : α} (hx : (x s).result = .ok a)
    (hy : (y t).result = .ok a) (h : Q a (x s).state (y t).state) : Agree x y s t Q E := by
  refine ⟨hy.trans hx.symm, fun b hb => ?_, fun fault hf => ?_⟩
  · rw [← Except.ok.inj (hx.symm.trans hb)]
    exact h
  · exact absurd (hx.symm.trans hf) (by simp)

/-- A run agrees with itself. -/
theorem agree_self (x : Action σ α) (s : σ) :
    Agree x x s s (fun a s' t' => t' = s' ∧ (x s).result = .ok a ∧ s' = (x s).state)
      fun s' t' => t' = s' :=
  ⟨rfl, fun _ ha => ⟨rfl, ha, rfl⟩, fun _ _ => rfl⟩

/-- Runs that have the outcomes of two runs that agree do so themselves. -/
theorem Agree.of_apply {x x' : Action σ α} {y y' : Action τ α} {s' : σ} {t' : τ}
    (h : Agree x' y' s' t' Q E) (hx : x s = x' s') (hy : y t = y' t') : Agree x y s t Q E := by
  refine ⟨?_, ?_, ?_⟩
  · rw [hx, hy]
    exact h.result_eq
  · rw [hx, hy]
    exact h.of_ok
  · rw [hx, hy]
    exact h.of_error

/-! ### Primitives -/

theorem agree_pure {a : α} (h : Q a s t) : Agree (pure a) (pure a) s t Q E :=
  agree_of_ok rfl rfl h

theorem agree_fail {fault : Fault} (h : E s t) : Agree (fail fault) (fail fault) s t Q E :=
  ⟨rfl, fun _ ha => absurd ha (by simp), fun _ _ => h⟩

/-- The reports may differ. -/
theorem agree_record {event event' : Event} {Q : Unit → σ → τ → Prop} (h : Q () s t) :
    Agree (record event) (record event') s t Q E :=
  agree_of_ok rfl rfl h

theorem agree_modify {f : σ → σ} {g : τ → τ} {Q : Unit → σ → τ → Prop} (h : Q () (f s) (g t)) :
    Agree (modify f) (modify g) s t Q E :=
  agree_of_ok rfl rfl h

theorem agree_ofExcept {x : Except Fault α} (hok : ∀ a, x = .ok a → Q a s t)
    (herror : ∀ fault, x = .error fault → E s t) : Agree (ofExcept x) (ofExcept x) s t Q E :=
  ⟨rfl, hok, herror⟩

theorem agree_require {p : Prop} [Decidable p] {fault : Fault} {Q : Unit → σ → τ → Prop}
    (hok : p → Q () s t) (herror : ¬ p → E s t) :
    Agree (require p fault) (require p fault) s t Q E := by
  unfold require
  split
  · rename_i hp
    exact agree_pure (hok hp)
  · rename_i hp
    exact agree_fail (herror hp)

/-! ### Sequences and parts -/

theorem agree_bind {x : Action σ α} {y : Action τ α} {f : α → Action σ β} {g : α → Action τ β}
    {Q : β → σ → τ → Prop}
    (h : Agree x y s t (fun a s' t' => Agree (f a) (g a) s' t' Q E) E) :
    Agree (x >>= f) (y >>= g) s t Q E := by
  have hy := h.result_eq
  cases hr : (x s).result with
  | ok a =>
    have hrest := h.of_ok a hr
    rw [hr] at hy
    refine ⟨?_, fun b hb => ?_, fun fault hf => ?_⟩
    · rw [bind_apply, bind_apply, hr, hy]
      exact hrest.result_eq
    · rw [bind_apply, hr] at hb
      rw [bind_apply, bind_apply, hr, hy]
      exact hrest.of_ok b hb
    · rw [bind_apply, hr] at hf
      rw [bind_apply, bind_apply, hr, hy]
      exact hrest.of_error fault hf
  | error fault =>
    rw [hr] at hy
    refine ⟨?_, fun b hb => ?_, fun _ _ => ?_⟩
    · rw [bind_apply, bind_apply, hr, hy]
    · rw [bind_apply, hr] at hb
      exact absurd hb (by simp)
    · rw [bind_apply, bind_apply, hr, hy]
      exact h.of_error fault hr

/-- A first step of one of them that is known to succeed. -/
theorem agree_bind_left {x : Action σ α} {f : α → Action σ β} {y : Action τ β}
    {Q : β → σ → τ → Prop} {a : α} {s' : σ} {events : List Event} (hx : x s = ⟨.ok a, s', events⟩)
    (h : Agree (f a) y s' t Q E) : Agree (x >>= f) y s t Q E := by
  refine ⟨?_, ?_, ?_⟩
  · rw [bind_apply_ok hx]
    exact h.result_eq
  · rw [bind_apply_ok hx]
    exact h.of_ok
  · rw [bind_apply_ok hx]
    exact h.of_error

/-- What reads the state first goes on with the state that it starts in. -/
theorem agree_get_bind {f : σ → Action σ α} {g : τ → Action τ α}
    (h : Agree (f s) (g t) s t Q E) : Agree (get >>= f) (get >>= g) s t Q E :=
  ⟨h.result_eq, h.of_ok, h.of_error⟩

/-- Two choices that are decided alike. -/
theorem agree_ite {p q : Prop} [Decidable p] [Decidable q] {x x' : Action σ α} {y y' : Action τ α}
    (hpq : p ↔ q) (hpos : p → Agree x y s t Q E) (hneg : ¬ p → Agree x' y' s t Q E) :
    Agree (if p then x else x') (if q then y else y') s t Q E := by
  by_cases hp : p
  · rw [if_pos hp, if_pos (hpq.mp hp)]
    exact hpos hp
  · rw [if_neg hp, if_neg fun hq => hp (hpq.mpr hq)]
    exact hneg hp

/-- Actions on parts of the states. -/
theorem agree_zoom {view : σ → σ'} {put : σ' → σ → σ} {view' : τ → τ'} {put' : τ' → τ → τ}
    {x : Action σ' α} {y : Action τ' α}
    (h : Agree x y (view s) (view' t) (fun a u w => Q a (put u s) (put' w t))
      fun u w => E (put u s) (put' w t)) :
    Agree (zoom view put x) (zoom view' put' y) s t Q E :=
  ⟨h.result_eq, h.of_ok, h.of_error⟩

/-! ### Loops -/

/-- Two loops over one list with its indices. -/
theorem agree_forEach_zipIdx {as : List α} {f : α × Nat → Action σ Unit}
    {g : α × Nat → Action τ Unit} {I : Nat → σ → τ → Prop}
    (hstep : ∀ i a, as[i]? = some a → ∀ s t, I i s t →
      Agree (f (a, i)) (g (a, i)) s t (fun _ s' t' => I (i + 1) s' t') E)
    (h0 : I 0 s t) :
    Agree (forEach as.zipIdx f) (forEach as.zipIdx g) s t (fun _ s' t' => I as.length s' t') E := by
  -- the entries to come carry their indices
  suffices key : ∀ (rest : List α) (n : Nat) (s : σ) (t : τ),
      (∀ i a, rest[i]? = some a → ∀ s t, I (n + i) s t →
        Agree (f (a, n + i)) (g (a, n + i)) s t (fun _ s' t' => I (n + i + 1) s' t') E) →
      I n s t → Agree (forEach (rest.zipIdx n) f) (forEach (rest.zipIdx n) g) s t
        (fun _ s' t' => I (n + rest.length) s' t') E by
    have := key as 0 s t (fun i a ha => by simpa using hstep i a ha) h0
    rwa [Nat.zero_add] at this
  intro rest
  induction rest with
  | nil => exact fun n s t _ h => agree_pure h
  | cons a rest ih =>
    intro n s t hstep h
    rw [List.zipIdx_cons, forEach_cons, forEach_cons]
    refine agree_bind ((hstep 0 a rfl s t h).mono_ok fun _ s' t' h' => ?_)
    have hrest := ih (n + 1) s' t' (fun i b hb => by
      have := hstep (i + 1) b (by simpa using hb)
      rwa [← Nat.add_assoc, Nat.add_right_comm] at this) h'
    rwa [Nat.add_assoc, Nat.add_comm 1] at hrest

/-- Two loops with a result so far. -/
theorem agree_foldlM {as : List α} {f : β → α → Action σ β} {g : β → α → Action τ β} {b : β}
    {I : σ → τ → Prop}
    (hstep : ∀ a ∈ as, ∀ b s t, I s t → Agree (f b a) (g b a) s t (fun _ => I) E) (h0 : I s t) :
    Agree (as.foldlM f b) (as.foldlM g b) s t (fun _ => I) E := by
  induction as generalizing b s t with
  | nil => exact agree_pure h0
  | cons a as ih =>
    rw [List.foldlM_cons, List.foldlM_cons]
    exact agree_bind ((hstep a (by simp) b s t h0).mono_ok fun b' s' t' h' =>
      ih (fun c hc => hstep c (by simp [hc])) h')

end FusionMove.Action
