import FusionMove.Event

namespace FusionMove

/-!
# Actions — computations that change a state and may fault

An `Action σ α` starts in a state and yields an `Outcome`: a value or a fault, the state it ends
in, and the events it recorded.  A fault keeps the state reached so far: what an action wrote
before it stopped stays written.

* `Action.fail` and `Action.require` raise faults, `Action.record` reports an event;
* `Action.forEach` runs an action for every entry of a list, up to the first fault;
* `Action.zoom` runs an action on a part of the state;
* `Action.Keeps P x` says that `x` leads from states with `P` to states with `P`, faults included.
-/

/-- What an action ends with. -/
structure Outcome (σ α : Type) where
  result : Except Fault α
  state : σ
  events : List Event

/-- A computation on a state `σ`. -/
def Action (σ α : Type) : Type :=
  σ → Outcome σ α

namespace Action

variable {σ τ α β : Type}

/-- Yield `a` and change nothing. -/
protected def pure (a : α) : Action σ α := fun s =>
  ⟨.ok a, s, []⟩

/-- Run `x` and continue with its value; a fault of `x` ends the run. -/
protected def bind (x : Action σ α) (f : α → Action σ β) : Action σ β := fun s =>
  match (x s).result with
  | .ok a => ⟨(f a (x s).state).result, (f a (x s).state).state,
      (x s).events ++ (f a (x s).state).events⟩
  | .error fault => ⟨.error fault, (x s).state, (x s).events⟩

instance : Monad (Action σ) where
  pure := Action.pure
  bind := Action.bind

/-- Stop with a fault. -/
def fail (fault : Fault) : Action σ α := fun s =>
  ⟨.error fault, s, []⟩

/-- Report an event. -/
def record (event : Event) : Action σ Unit := fun s =>
  ⟨.ok (), s, [event]⟩

/-- Report several events. -/
def recordAll (events : List Event) : Action σ Unit := fun s =>
  ⟨.ok (), s, events⟩

/-- The current state. -/
def get : Action σ σ := fun s =>
  ⟨.ok s, s, []⟩

/-- Change the state by `f`. -/
def modify (f : σ → σ) : Action σ Unit := fun s =>
  ⟨.ok (), f s, []⟩

/-- Stop with `fault` unless `p` holds. -/
def require (p : Prop) [Decidable p] (fault : Fault) : Action σ Unit :=
  if p then Action.pure () else fail fault

/-- A value that is already computed, or its fault. -/
def ofExcept (x : Except Fault α) : Action σ α := fun s =>
  ⟨x, s, []⟩

/-- Run `f` on the entries of a list in order. -/
def forEach : List α → (α → Action σ Unit) → Action σ Unit
  | [], _ => Action.pure ()
  | a :: as, f => Action.bind (f a) fun _ => forEach as f

/-- Run an action on the part of the state that `view` reads and `put` writes. -/
def zoom (view : σ → τ) (put : τ → σ → σ) (x : Action τ α) : Action σ α := fun s =>
  ⟨(x (view s)).result, put (x (view s)).state s, (x (view s)).events⟩

/-! ### Running the primitives -/

@[simp] theorem pure_apply (a : α) (s : σ) : (pure a : Action σ α) s = ⟨.ok a, s, []⟩ := rfl

@[simp] theorem fail_apply (fault : Fault) (s : σ) :
    (fail fault : Action σ α) s = ⟨.error fault, s, []⟩ := rfl

@[simp] theorem record_apply (event : Event) (s : σ) : record event s = ⟨.ok (), s, [event]⟩ := rfl

@[simp] theorem recordAll_apply (events : List Event) (s : σ) :
    recordAll events s = ⟨.ok (), s, events⟩ := rfl

@[simp] theorem get_apply (s : σ) : get s = ⟨.ok s, s, []⟩ := rfl

@[simp] theorem modify_apply (f : σ → σ) (s : σ) : modify f s = ⟨.ok (), f s, []⟩ := rfl

@[simp] theorem ofExcept_apply (x : Except Fault α) (s : σ) : ofExcept x s = ⟨x, s, []⟩ := rfl

/-- The run of a sequence, by the result of its first step. -/
theorem bind_apply (x : Action σ α) (f : α → Action σ β) (s : σ) :
    (x >>= f) s = match (x s).result with
      | .ok a => ⟨(f a (x s).state).result, (f a (x s).state).state,
          (x s).events ++ (f a (x s).state).events⟩
      | .error fault => ⟨.error fault, (x s).state, (x s).events⟩ := rfl

/-- A value that is already there is handed on. -/
theorem ofExcept_ok_bind (a : α) (f : α → Action σ β) : (ofExcept (.ok a) >>= f) = f a := rfl

/-- A step that succeeds hands its value and state on. -/
theorem bind_apply_ok {x : Action σ α} {f : α → Action σ β} {s s' : σ} {a : α}
    {es : List Event} (h : x s = ⟨.ok a, s', es⟩) :
    (x >>= f) s = ⟨(f a s').result, (f a s').state, es ++ (f a s').events⟩ := by
  rw [bind_apply, h]

/-- A step that faults ends the run. -/
theorem bind_apply_error {x : Action σ α} {f : α → Action σ β} {s s' : σ} {fault : Fault}
    {es : List Event} (h : x s = ⟨.error fault, s', es⟩) :
    (x >>= f) s = ⟨.error fault, s', es⟩ := by
  rw [bind_apply, h]

/-- A sequence succeeds iff its first step does and the second does from there. -/
theorem bind_result_eq_ok_iff {x : Action σ α} {f : α → Action σ β} {s : σ} {b : β} :
    ((x >>= f) s).result = .ok b ↔
      ∃ a, (x s).result = .ok a ∧ (f a (x s).state).result = .ok b := by
  rw [bind_apply]
  cases h : (x s).result with
  | ok a => simp
  | error fault => simp

/-- After a first step that succeeds, a sequence ends where the second step ends. -/
theorem bind_state_of_ok {x : Action σ α} {f : α → Action σ β} {s : σ} {a : α}
    (h : (x s).result = .ok a) : ((x >>= f) s).state = (f a (x s).state).state := by
  rw [bind_apply, h]

@[simp] theorem forEach_nil (f : α → Action σ Unit) : forEach [] f = pure () := rfl

@[simp] theorem forEach_cons (a : α) (as : List α) (f : α → Action σ Unit) :
    forEach (a :: as) f = (f a >>= fun _ => forEach as f) := rfl

/-! ### Predicates that an action keeps -/

/-- From a state with `P` the action ends in a state with `P`, whether it faults or not. -/
def Keeps (P : σ → Prop) (x : Action σ α) : Prop :=
  ∀ s, P s → P (x s).state

theorem keeps_pure (P : σ → Prop) (a : α) : Keeps P (pure a : Action σ α) :=
  fun _ h => h

theorem keeps_fail (P : σ → Prop) (fault : Fault) : Keeps P (fail fault : Action σ α) :=
  fun _ h => h

theorem keeps_record (P : σ → Prop) (event : Event) : Keeps P (record event) :=
  fun _ h => h

theorem keeps_ofExcept (P : σ → Prop) (x : Except Fault α) : Keeps P (ofExcept x) :=
  fun _ h => h

theorem keeps_modify {P : σ → Prop} {f : σ → σ} (hf : ∀ s, P s → P (f s)) : Keeps P (modify f) :=
  hf

theorem keeps_bind {P : σ → Prop} {x : Action σ α} {f : α → Action σ β} (hx : Keeps P x)
    (hf : ∀ a, Keeps P (f a)) : Keeps P (x >>= f) := by
  intro s h
  show P (Action.bind x f s).state
  unfold Action.bind
  split
  · exact hf _ _ (hx s h)
  · exact hx s h

/-- What reads the state first knows that it has `P`. -/
theorem keeps_get_bind {P : σ → Prop} {f : σ → Action σ α} (hf : ∀ s, P s → Keeps P (f s)) :
    Keeps P (get >>= f) :=
  fun s h => hf s h s h

theorem keeps_forEach {P : σ → Prop} {as : List α} {f : α → Action σ Unit}
    (hf : ∀ a ∈ as, Keeps P (f a)) : Keeps P (forEach as f) := by
  induction as with
  | nil => exact keeps_pure P ()
  | cons a as ih =>
    exact keeps_bind (hf a (by simp)) fun _ => ih fun b hb => hf b (by simp [hb])

theorem keeps_foldlM {P : σ → Prop} {as : List α} {f : β → α → Action σ β}
    (hf : ∀ b, ∀ a ∈ as, Keeps P (f b a)) (b : β) : Keeps P (as.foldlM f b) := by
  induction as generalizing b with
  | nil => exact keeps_pure P b
  | cons a as ih =>
    rw [List.foldlM_cons]
    exact keeps_bind (hf b a (by simp)) (ih fun b c hc => hf b c (by simp [hc]))

end Action

end FusionMove
