import FusionMove.Access
import FusionMove.Proofs.Action

namespace FusionMove

/-!
# Vouching for accesses

`Vouched y x s Q` says that from the state `s` the checked form `y` of an action `x` has the outcome
of `x` itself, events included; that this outcome, if it is a value, has `Q`; and that it is no fault
of a failed access.  So nothing that `y` asks for is missing, and `x` nowhere reads a default.

* `Action.vouched_bind` — two sequences, step by step;
* `Action.vouched_read` — a checked computation that is known to have a value, which only the checked
  form goes through;
* `Action.vouched_forEach`, `Action.vouched_foldlM` — two loops over one list, with what holds of the
  states as their invariant.
-/

/-- The fault says that an index was out of range or a divisor zero. -/
def Fault.blamesAccess : Fault → Bool
  | .outOfRange | .divisionByZero => true
  | _ => false

namespace Action

variable {σ α β : Type} {s : σ} {Q Q' : α → σ → Prop}

/-- From `s` the checked form `y` does what `x` does: it ends with a value and a state in `Q`, or
    with a fault that no access is to blame for. -/
structure Vouched (y x : Action σ α) (s : σ) (Q : α → σ → Prop) : Prop where
  apply_eq : y s = x s
  ends : Ends x s Q fun fault _ => fault.blamesAccess = false

theorem Vouched.mono {y x : Action σ α} (h : Vouched y x s Q) (hQ : ∀ a s', Q a s' → Q' a s') :
    Vouched y x s Q' :=
  ⟨h.apply_eq, h.ends.mono_ok hQ⟩

/-- What is its own checked form. -/
theorem vouched_self {x : Action σ α} (h : Ends x s Q fun fault _ => fault.blamesAccess = false) :
    Vouched x x s Q :=
  ⟨rfl, h⟩

theorem vouched_pure {a : α} (h : Q a s) : Vouched (pure a) (pure a) s Q :=
  vouched_self h

theorem vouched_modify {f g : σ → σ} {Q : Unit → σ → Prop} (hfg : g s = f s) (h : Q () (f s)) :
    Vouched (modify g) (modify f) s Q := by
  refine ⟨?_, h⟩
  rw [modify_apply, modify_apply, hfg]

/-! ### Sequences -/

theorem vouched_bind {y x : Action σ α} {g f : α → Action σ β} {Q : β → σ → Prop}
    (h : Vouched y x s fun a s' => Vouched (g a) (f a) s' Q) : Vouched (y >>= g) (x >>= f) s Q := by
  refine ⟨?_, ends_bind (h.ends.mono_ok fun a s' h' => h'.ends)⟩
  rw [bind_apply_eq h.apply_eq g]
  exact bind_apply_congr fun a ha => (h.ends.of_ok ha).apply_eq

/-- Both read the state first. -/
theorem vouched_get_bind {g f : σ → Action σ α} (h : Vouched (g s) (f s) s Q) :
    Vouched (get >>= g) (get >>= f) s Q :=
  ⟨h.apply_eq, h.ends⟩

/-- Only the checked form reads the state first. -/
theorem vouched_get_left {g : σ → Action σ α} {x : Action σ α} (h : Vouched (g s) x s Q) :
    Vouched (get >>= g) x s Q :=
  ⟨h.apply_eq, h.ends⟩

/-- A checked computation that has a value. -/
theorem vouched_read {e : Except Fault β} {b : β} {g : β → Action σ α} {x : Action σ α}
    (he : e = .ok b) (h : Vouched (g b) x s Q) : Vouched (ofExcept e >>= g) x s Q := by
  rw [he, ofExcept_ok_bind]
  exact h

/-- One that both go through. -/
theorem vouched_ofExcept_bind {e e' : Except Fault β} {b : β} {g f : β → Action σ α}
    (he : e = .ok b) (he' : e' = .ok b) (h : Vouched (g b) (f b) s Q) :
    Vouched (ofExcept e >>= g) (ofExcept e' >>= f) s Q := by
  rw [he, he', ofExcept_ok_bind, ofExcept_ok_bind]
  exact h

/-- Two choices that are decided alike. -/
theorem vouched_ite {p : Prop} [Decidable p] {y y' x x' : Action σ α}
    (hpos : p → Vouched y x s Q) (hneg : ¬ p → Vouched y' x' s Q) :
    Vouched (if p then y else y') (if p then x else x') s Q := by
  by_cases hp : p
  · rw [if_pos hp, if_pos hp]
    exact hpos hp
  · rw [if_neg hp, if_neg hp]
    exact hneg hp

/-! ### Loops -/

theorem vouched_forEach {as : List α} {g f : α → Action σ Unit} {I : σ → Prop}
    (hstep : ∀ a ∈ as, ∀ s, I s → Vouched (g a) (f a) s fun _ => I) (h0 : I s) :
    Vouched (forEach as g) (forEach as f) s fun _ => I := by
  induction as generalizing s with
  | nil => exact vouched_pure h0
  | cons a as ih =>
    rw [forEach_cons, forEach_cons]
    exact vouched_bind ((hstep a (by simp) s h0).mono fun _ s' h' =>
      ih (fun b hb => hstep b (by simp [hb])) h')

/-- A loop with a result so far. -/
theorem vouched_foldlM {as : List α} {g f : β → α → Action σ β} {b : β} {I : σ → Prop}
    (hstep : ∀ a ∈ as, ∀ b s, I s → Vouched (g b a) (f b a) s fun _ => I) (h0 : I s) :
    Vouched (as.foldlM g b) (as.foldlM f b) s fun _ => I := by
  induction as generalizing b s with
  | nil => exact vouched_pure h0
  | cons a as ih =>
    rw [List.foldlM_cons, List.foldlM_cons]
    exact vouched_bind ((hstep a (by simp) b s h0).mono fun b' s' h' =>
      ih (fun c hc => hstep c (by simp [hc])) h')

end Action

end FusionMove
