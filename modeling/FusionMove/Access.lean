import FusionMove.Fault
import FusionMove.Incidence

namespace FusionMove

/-!
# Checked access

Most definitions read a missing entry as a default and drop a write to one.  Their *checked forms*,
whose names end in a question mark, stop with `Fault.outOfRange` instead, and with
`Fault.divisionByZero` where a divisor is zero.  A checked form that yields what the definition
itself yields has asked for nothing that is not there.

* `present`, `setAt?`, `modifyAt?`, `slice?`, `divide?` — single accesses;
* `getD_modify`, `getD_modify_add`, `getD_setIfInBounds` — how an array reads after a change;
* `mapM_eq_ok`, `foldlM_eq_ok`, `allM_eq_ok`, `findM?_eq_ok` — a loop whose steps have values has one;
* `arrayOf?`, `modifyAll?` — an array entry by entry, and changes to one, one after the other;
* `filledUpTo` — an array in the middle of being filled from the front;
* `placeTable?` — where every variable occurs, collected member by member.
-/

variable {α β : Type}

/-! ### Single accesses -/

/-- A value that has to be there. -/
def present (x : Option α) : Except Fault α :=
  match x with
  | some a => .ok a
  | none => .error .outOfRange

/-- Overwrite an entry that the array has. -/
def setAt? (xs : Array α) (i : Nat) (a : α) : Except Fault (Array α) :=
  if i < xs.size then .ok (xs.setIfInBounds i a) else .error .outOfRange

/-- Change an entry that the array has. -/
def modifyAt? (xs : Array α) (i : Nat) (f : α → α) : Except Fault (Array α) :=
  if i < xs.size then .ok (xs.modify i f) else .error .outOfRange

/-- The entries of the array from `start` up to `stop`. -/
def slice? (xs : Array α) (start stop : Nat) : Except Fault (Array α) :=
  if start ≤ stop ∧ stop ≤ xs.size then .ok (xs.extract start stop) else .error .outOfRange

/-- The quotient by a number that is not zero. -/
def divide? (a b : Int) : Except Fault Int :=
  if b = 0 then .error .divisionByZero else .ok (a / b)

/-- An entry that is changed reads as changed, if it is there; the others read as before. -/
theorem getD_modify (xs : Array α) (i : Nat) (f : α → α) (j : Nat) (d : α) :
    (xs.modify i f).getD j d =
      if i < xs.size ∧ i = j then f (xs.getD j d) else xs.getD j d := by
  simp only [Array.getD_eq_getD_getElem?, Array.getElem?_modify]
  by_cases heq : i = j
  · subst heq
    by_cases hlt : i < xs.size
    · simp [hlt]
    · simp [hlt]
  · simp [heq]

/-- Adding to an entry. -/
theorem getD_modify_add (xs : Array Int) (i : Nat) (a : Int) (j : Nat) :
    (xs.modify i (· + a)).getD j 0 = xs.getD j 0 + if i < xs.size ∧ i = j then a else 0 := by
  rw [getD_modify]
  split
  · rfl
  · exact (Int.add_zero _).symm

/-- An entry that is overwritten reads as what was put there, and the others read as before. -/
theorem getD_setIfInBounds (xs : Array α) (i j : Nat) (a d : α) (hi : i < xs.size) :
    (xs.setIfInBounds i a).getD j d = if i = j then a else xs.getD j d := by
  simp only [Array.getD_eq_getD_getElem?, Array.getElem?_setIfInBounds]
  by_cases h : i = j
  · subst h
    simp [hi]
  · simp [h]

/-- To change an entry is to overwrite it with what it becomes. -/
theorem modify_eq_setIfInBounds (xs : Array α) (i : Nat) (f : α → α) (d : α) :
    xs.modify i f = xs.setIfInBounds i (f (xs.getD i d)) := by
  apply Array.ext_getElem?
  intro j
  rw [Array.getElem?_modify, Array.getElem?_setIfInBounds]
  by_cases heq : i = j
  · subst heq
    by_cases hlt : i < xs.size <;> simp [hlt]
  · rw [if_neg heq, if_neg heq]

/-- A step that has a value hands it on. -/
theorem ok_bind (a : α) (f : α → Except Fault β) : (Except.ok a >>= f) = f a := rfl

theorem present_eq_ok {x : Option α} {a : α} (h : x = some a) : present x = .ok a := by
  rw [h, present]

theorem present_array {xs : Array α} {i : Nat} (h : i < xs.size) (d : α) :
    present xs[i]? = .ok (xs.getD i d) :=
  present_eq_ok (by simp [h])

theorem present_list {xs : List α} {i : Nat} (h : i < xs.length) (d : α) :
    present xs[i]? = .ok (xs.getD i d) :=
  present_eq_ok (by simp [h])

theorem setAt?_eq_ok {xs : Array α} {i : Nat} (h : i < xs.size) (a : α) :
    setAt? xs i a = .ok (xs.setIfInBounds i a) := if_pos h

theorem modifyAt?_eq_ok {xs : Array α} {i : Nat} (h : i < xs.size) (f : α → α) :
    modifyAt? xs i f = .ok (xs.modify i f) := if_pos h

theorem slice?_eq_ok {xs : Array α} {start stop : Nat} (h : start ≤ stop) (h' : stop ≤ xs.size) :
    slice? xs start stop = .ok (xs.extract start stop) := if_pos ⟨h, h'⟩

theorem divide?_eq_ok (a : Int) {b : Int} (h : b ≠ 0) : divide? a b = .ok (a / b) := if_neg h

/-! ### Loops -/

theorem mapM_eq_ok {f : α → Except Fault β} {g : α → β} {as : List α}
    (h : ∀ a ∈ as, f a = .ok (g a)) : as.mapM f = .ok (as.map g) := by
  induction as with
  | nil => rfl
  | cons a as ih =>
    rw [List.mapM_cons, h a (by simp), ok_bind, ih fun b hb => h b (by simp [hb])]
    rfl

/-- A loop with a state, given an invariant of it. -/
theorem foldlM_eq_ok {f : β → α → Except Fault β} {g : β → α → β} {I : β → Prop} {as : List α}
    (hstep : ∀ a ∈ as, ∀ b, I b → f b a = .ok (g b a) ∧ I (g b a)) {b : β} (h0 : I b) :
    as.foldlM f b = .ok (as.foldl g b) ∧ I (as.foldl g b) := by
  induction as generalizing b with
  | nil => exact ⟨rfl, h0⟩
  | cons a as ih =>
    obtain ⟨hok, hinv⟩ := hstep a (by simp) b h0
    rw [List.foldlM_cons, hok, List.foldl_cons]
    exact ih (fun c hc => hstep c (by simp [hc])) hinv

/-- A loop over the numbers below `n`, given its state before every step. -/
theorem foldlM_range_eq_ok {f : β → Nat → Except Fault β} {n : Nat} (state : Nat → β)
    (hstep : ∀ i < n, f (state i) i = .ok (state (i + 1))) :
    (List.range n).foldlM f (state 0) = .ok (state n) := by
  induction n with
  | zero => rfl
  | succ n ih =>
    rw [List.range_succ, List.foldlM_append, ih fun i hi => hstep i (by omega)]
    show ([n].foldlM f (state n)) = _
    rw [List.foldlM_cons, hstep n (by omega)]
    rfl

theorem allM_eq_ok {f : α → Except Fault Bool} {p : α → Bool} {as : List α}
    (h : ∀ a ∈ as, f a = .ok (p a)) : as.allM f = .ok (as.all p) := by
  induction as with
  | nil => rfl
  | cons a as ih =>
    have ih := ih fun b hb => h b (by simp [hb])
    rw [List.allM, h a (by simp), ok_bind, List.all_cons]
    cases p a with
    | false => rfl
    | true => rw [ih, Bool.true_and]

theorem findM?_eq_ok {f : α → Except Fault Bool} {p : α → Bool} {as : List α}
    (h : ∀ a ∈ as, f a = .ok (p a)) : as.findM? f = .ok (as.find? p) := by
  induction as with
  | nil => rfl
  | cons a as ih =>
    have ih := ih fun b hb => h b (by simp [hb])
    rw [List.findM?, h a (by simp), ok_bind, List.find?_cons]
    cases p a with
    | false => rw [ih]
    | true => rfl

/-- The array of `n` entries, computed one by one. -/
def arrayOf? (n : Nat) (f : Nat → Except Fault α) : Except Fault (Array α) := do
  let entries ← (List.range n).mapM f
  return entries.toArray

/-- The entries of a list of values, as an array. -/
theorem toArray_map_range (n : Nat) (g : Nat → α) :
    ((List.range n).map g).toArray = Array.ofFn fun i : Fin n => g i := by
  apply Array.ext_getElem?
  intro i
  by_cases hi : i < n <;> simp [hi]

theorem arrayOf?_eq_ok {n : Nat} {f : Nat → Except Fault α} {g : Nat → α}
    (h : ∀ i < n, f i = .ok (g i)) : arrayOf? n f = .ok (Array.ofFn fun i : Fin n => g i) := by
  rw [arrayOf?, mapM_eq_ok fun i hi => h i (List.mem_range.mp hi), ok_bind, toArray_map_range]
  rfl

/-- An array of equal entries. -/
theorem replicate_eq_ofFn (n : Nat) (a : α) :
    Array.replicate n a = Array.ofFn fun _ : Fin n => a := by
  apply Array.ext_getElem?
  intro i
  by_cases hi : i < n <;> simp [hi]

/-! ### Arrays filled from the front -/

/-- The array whose first `k` entries are those of `f`, and the others still those of `g`. -/
def filledUpTo (f g : Nat → α) (n k : Nat) : Array α :=
  Array.ofFn fun i : Fin n => if i.val < k then f i else g i

section

variable (f g : Nat → α) (n k : Nat)

@[simp] theorem size_filledUpTo : (filledUpTo f g n k).size = n := Array.size_ofFn

@[simp] theorem getElem_filledUpTo {i : Nat} (h : i < (filledUpTo f g n k).size) :
    (filledUpTo f g n k)[i] = if i < k then f i else g i := by
  simp [filledUpTo]

theorem getElem?_filledUpTo (i : Nat) :
    (filledUpTo f g n k)[i]? = if i < n then some (if i < k then f i else g i) else none := by
  rw [filledUpTo, Array.getElem?_ofFn]
  rfl

theorem filledUpTo_zero : filledUpTo f g n 0 = Array.ofFn fun i : Fin n => g i := by
  simp [filledUpTo]

theorem filledUpTo_self : filledUpTo f g n n = Array.ofFn fun i : Fin n => f i := by
  simp [filledUpTo]

variable {f g n k}

/-- Writing the next entry. -/
theorem setIfInBounds_filledUpTo {a : α} (h : f k = a) :
    (filledUpTo f g n k).setIfInBounds k a = filledUpTo f g n (k + 1) := by
  subst h
  apply Array.ext_getElem?
  intro i
  rw [Array.getElem?_setIfInBounds, getElem?_filledUpTo, getElem?_filledUpTo, size_filledUpTo]
  by_cases heq : k = i
  · subst heq
    rw [if_pos rfl, if_pos (Nat.lt_succ_self k)]
  · have hstep : i < k + 1 ↔ i < k := by omega
    rw [if_neg heq]
    simp only [hstep]

/-- Changing the next entry to what it has to be. -/
theorem modify_filledUpTo {change : α → α} (h : change (g k) = f k) :
    (filledUpTo f g n k).modify k change = filledUpTo f g n (k + 1) := by
  rw [← setIfInBounds_filledUpTo rfl]
  apply Array.ext_getElem?
  intro i
  rw [Array.getElem?_modify, Array.getElem?_setIfInBounds]
  by_cases heq : k = i
  · subst heq
    by_cases hk : k < n <;> simp [hk, h]
  · rw [if_neg heq, if_neg heq]

/-- There is nothing to write if the next entry is what it has to be. -/
theorem filledUpTo_succ (h : g k = f k) : filledUpTo f g n (k + 1) = filledUpTo f g n k := by
  apply Array.ext_getElem?
  intro i
  rw [getElem?_filledUpTo, getElem?_filledUpTo]
  by_cases heq : i = k
  · subst heq
    rw [if_pos (Nat.lt_succ_self i), if_neg (Nat.lt_irrefl i), h]
  · have hstep : i < k + 1 ↔ i < k := by omega
    simp only [hstep]

end

/-! ### Changes to an array -/

/-- Change entries that the array has, one after the other. -/
def modifyAll? (f : β → α → α) (changes : List (Nat × β)) (xs : Array α) :
    Except Fault (Array α) :=
  changes.foldlM (fun xs p => modifyAt? xs p.1 (f p.2)) xs

/-- Every entry goes through the changes that name it. -/
private theorem getElem?_foldl_modify (f : β → α → α) (changes : List (Nat × β)) (xs : Array α)
    (i : Nat) : (changes.foldl (fun xs p => xs.modify p.1 (f p.2)) xs)[i]?
      = xs[i]?.map fun a => (changes.filter (·.1 = i)).foldl (fun a p => f p.2 a) a := by
  induction changes generalizing xs with
  | nil => simp
  | cons p changes ih =>
    rw [List.foldl_cons, ih, Array.getElem?_modify]
    by_cases h : p.1 = i
    · simp [h, Function.comp_def]
    · simp [h]

/-- Changes to entries that are all there. -/
theorem modifyAll?_eq_ok {f : β → α → α} {changes : List (Nat × β)} {xs : Array α}
    (h : ∀ p ∈ changes, p.1 < xs.size) : modifyAll? f changes xs
      = .ok (Array.ofFn fun i : Fin xs.size =>
          (changes.filter fun p => p.1 = i.val).foldl (fun a p => f p.2 a) xs[i]) := by
  have hstep : ∀ p ∈ changes, ∀ ys : Array α, ys.size = xs.size →
      modifyAt? ys p.1 (f p.2) = .ok (ys.modify p.1 (f p.2)) ∧
        (ys.modify p.1 (f p.2)).size = xs.size := fun p hp ys hys =>
    ⟨modifyAt?_eq_ok (by rw [hys]; exact h p hp) _, by rw [Array.size_modify, hys]⟩
  rw [modifyAll?, (foldlM_eq_ok hstep rfl).1, Except.ok.injEq]
  apply Array.ext_getElem?
  intro i
  rw [getElem?_foldl_modify]
  by_cases hi : i < xs.size
  · simp [hi]
  · simp [hi]

/-! ### Tables of places -/

/-- The members of all lists in order, each with its place. -/
def memberPlaces (memberLists : List (List Nat)) : List (Nat × (Nat × Nat)) :=
  memberLists.zipIdx.flatMap fun ms => ms.1.zipIdx.map fun p => (p.1, (ms.2, p.2))

/-- For every variable below `numVars` its places, collected member by member. -/
def placeTable? (memberLists : List (List Nat)) (numVars : Nat) :
    Except Fault (Array (List (Nat × Nat))) :=
  modifyAll? (fun place places => places ++ [place]) (memberPlaces memberLists)
    (Array.replicate numVars [])

theorem mem_memberPlaces {memberLists : List (List Nat)} {v c i : Nat} :
    (v, (c, i)) ∈ memberPlaces memberLists ↔
      ∃ ms, memberLists[c]? = some ms ∧ ms[i]? = some v := by
  simp only [memberPlaces, List.mem_flatMap, List.mem_map, Prod.mk.injEq]
  constructor
  · rintro ⟨⟨ms, d⟩, hms, ⟨u, j⟩, hu, rfl, rfl, rfl⟩
    exact ⟨ms, List.mem_zipIdx_iff_getElem?.mp hms, List.mem_zipIdx_iff_getElem?.mp hu⟩
  · rintro ⟨ms, hms, hv⟩
    exact ⟨(ms, c), List.mem_zipIdx_iff_getElem?.mpr hms, (v, i),
      List.mem_zipIdx_iff_getElem?.mpr hv, rfl, rfl, rfl⟩

/-- The places of a variable are those of the members that are it. -/
theorem map_filter_memberPlaces (memberLists : List (List Nat)) (v : Nat) :
    ((memberPlaces memberLists).filter (·.1 = v)).map (·.2) = incidence memberLists v := by
  rw [memberPlaces, List.filter_flatMap, List.map_flatMap, incidence]
  congr 1
  funext ms
  rw [List.filter_map, List.map_map, positions]
  induction ms.1.zipIdx with
  | nil => rfl
  | cons p ps ih =>
    by_cases h : p.1 = v
    · simpa [h] using ih
    · simpa [h] using ih

/-- Members below `numVars` all find their entry. -/
theorem placeTable?_eq_ok {memberLists : List (List Nat)} {numVars : Nat}
    (h : ∀ ms ∈ memberLists, ∀ v ∈ ms, v < numVars) : placeTable? memberLists numVars
      = .ok (Array.ofFn fun v : Fin numVars => incidence memberLists v) := by
  have hmem : ∀ p ∈ memberPlaces memberLists,
      p.1 < (Array.replicate numVars ([] : List (Nat × Nat))).size := by
    rintro ⟨v, c, i⟩ hp
    obtain ⟨ms, hms, hv⟩ := mem_memberPlaces.mp hp
    rw [Array.size_replicate]
    exact h ms (List.mem_of_getElem? hms) v (List.mem_of_getElem? hv)
  -- appending one place after the other lists them in order
  have happend : ∀ (ps : List (Nat × (Nat × Nat))) (qs : List (Nat × Nat)),
      ps.foldl (fun qs p => qs ++ [p.2]) qs = qs ++ ps.map (·.2) := by
    intro ps
    induction ps with
    | nil => simp
    | cons p ps ih => simp [ih]
  rw [placeTable?, modifyAll?_eq_ok hmem, Except.ok.injEq]
  apply Array.ext_getElem?
  intro v
  by_cases hv : v < numVars
  · simp [hv, happend, map_filter_memberPlaces]
  · simp [hv]

end FusionMove
