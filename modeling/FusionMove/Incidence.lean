import FusionMove.Sum

namespace FusionMove

/-!
# Incidence — where a variable occurs

`incidence ms v` lists the places at which `v` occurs in the member lists `ms`: pairs of the index
of a list and a position in it, by list and then by position.  A variable may occur several times
in one list.
-/

open scoped CoreArithmetic

/-- The positions of `v` in one member list. -/
def positions (members : List Nat) (v : Nat) : List Nat :=
  members.zipIdx.filterMap fun p => if p.1 = v then some p.2 else none

/-- The places at which `v` occurs. -/
def incidence (memberLists : List (List Nat)) (v : Nat) : List (Nat × Nat) :=
  memberLists.zipIdx.flatMap fun p => (positions p.1 v).map fun i => (p.2, i)

/-- The positions of `v` are the indices at which the list holds `v`. -/
theorem mem_positions {members : List Nat} {v i : Nat} :
    i ∈ positions members v ↔ members[i]? = some v := by
  simp only [positions, List.mem_filterMap, Option.ite_none_right_eq_some, Option.some.injEq]
  constructor
  · rintro ⟨⟨u, j⟩, h, rfl, rfl⟩
    exact List.mem_zipIdx_iff_getElem?.mp h
  · intro h
    exact ⟨(v, i), List.mem_zipIdx_iff_getElem?.mpr h, rfl, rfl⟩

/-- The places of `v` are the members that are `v`. -/
theorem mem_incidence {memberLists : List (List Nat)} {v c i : Nat} :
    (c, i) ∈ incidence memberLists v ↔ ∃ ms, memberLists[c]? = some ms ∧ ms[i]? = some v := by
  simp only [incidence, List.mem_flatMap, List.mem_map, Prod.mk.injEq]
  constructor
  · rintro ⟨⟨ms, j⟩, h, k, hk, rfl, rfl⟩
    exact ⟨ms, List.mem_zipIdx_iff_getElem?.mp h, mem_positions.mp hk⟩
  · rintro ⟨ms, h, hi⟩
    exact ⟨(ms, c), List.mem_zipIdx_iff_getElem?.mpr h, i, mem_positions.mpr hi, rfl, rfl⟩

/-- The same over things that have member lists. -/
theorem mem_incidence_map {α : Type} {xs : List α} {members : α → List Nat} {v c i : Nat} :
    (c, i) ∈ incidence (xs.map members) v ↔ ∃ x, xs[c]? = some x ∧ (members x)[i]? = some v := by
  rw [mem_incidence]
  constructor
  · rintro ⟨ms, hms, hi⟩
    rw [List.getElem?_map, Option.map_eq_some_iff] at hms
    obtain ⟨x, hx, rfl⟩ := hms
    exact ⟨x, hx, hi⟩
  · rintro ⟨x, hx, hi⟩
    exact ⟨members x, by rw [List.getElem?_map, hx]; rfl, hi⟩

/-! ### Sums over places -/

/-- A sum over the positions of `v`. -/
theorem sum_positions (members : List Nat) (v : Nat) (f : Nat → Int) :
    ((positions members v).map f).sum
      = sumTo members.length fun i => if members[i]? = some v then f i else 0 := by
  rw [positions, sum_map_filterMap,
    sum_map_zipIdx members fun u i => ((if u = v then some i else none).map f).getD 0]
  apply sumTo_congr
  intro i hi
  by_cases h : members[i] = v <;> simp [hi, h]

/-- A sum over the places of `v`. -/
theorem sum_incidence (memberLists : List (List Nat)) (v : Nat) (f : Nat × Nat → Int) :
    ((incidence memberLists v).map f).sum
      = sumTo memberLists.length fun c => sumTo (memberLists.getD c []).length fun i =>
          if (memberLists.getD c [])[i]? = some v then f (c, i) else 0 := by
  rw [incidence, sum_map_flatMap, sum_map_zipIdx memberLists fun ms c =>
    (((positions ms v).map fun i => (c, i)).map f).sum]
  apply sumTo_congr
  intro c hc
  simp [hc, List.map_map, Function.comp_def, sum_positions]

/-- Double counting: summed over all variables, the places of each variable are all members of all
    lists. -/
theorem sumTo_sum_incidence {memberLists : List (List Nat)} {n : Nat}
    (hn : ∀ ms ∈ memberLists, ∀ v ∈ ms, v < n) (f : Nat → Nat × Nat → Int) :
    sumTo n (fun v => ((incidence memberLists v).map (f v)).sum)
      = sumTo memberLists.length fun c => sumTo (memberLists.getD c []).length fun i =>
          f ((memberLists.getD c []).getD i 0) (c, i) := by
  simp only [sum_incidence]
  rw [sumTo_comm]
  apply sumTo_congr
  intro c hc
  rw [sumTo_comm]
  apply sumTo_congr
  intro i hi
  have hlist : memberLists.getD c [] ∈ memberLists := by
    rw [List.getD_eq_getElem?_getD, List.getElem?_eq_getElem hc]
    exact List.getElem_mem hc
  have hlt := hn _ hlist
  generalize memberLists.getD c [] = members at hi hlt ⊢
  rw [List.getD_eq_getElem?_getD, List.getElem?_eq_getElem hi]
  simp only [Option.some.injEq, Option.getD_some]
  rw [sumTo_single n _ fun v => f v (c, i), if_pos (hlt _ (List.getElem_mem hi))]

/-- A member is one place of one variable. -/
theorem sum_incidence_single {memberLists : List (List Nat)} {members : List Nat} {c i u : Nat}
    (hc : memberLists[c]? = some members) (hi : members[i]? = some u) (v : Nat) (a : Int) :
    ((incidence memberLists v).map fun place => if place = (c, i) then a else 0).sum
      = if u = v then a else 0 := by
  rw [sum_incidence]
  have hlen : c < memberLists.length := (List.getElem?_eq_some_iff.mp hc).1
  have hilen : i < members.length := (List.getElem?_eq_some_iff.mp hi).1
  have hinner : ∀ d < memberLists.length, (sumTo (memberLists.getD d []).length fun j =>
      if (memberLists.getD d [])[j]? = some v then if (d, j) = (c, i) then a else 0 else 0)
      = if c = d then if u = v then a else 0 else 0 := by
    intro d _
    by_cases hd : c = d
    · subst hd
      rw [List.getD_eq_getElem?_getD, hc, Option.getD_some, if_pos rfl]
      have hterm : ∀ j < members.length, (if members[j]? = some v then
          if (c, j) = (c, i) then a else 0 else 0)
          = if i = j then if u = v then a else 0 else 0 := by
        intro j _
        by_cases hj : i = j
        · subst hj; simp [hi]
        · have : j ≠ i := fun h => hj h.symm
          simp [hj, this]
      rw [sumTo_congr hterm, sumTo_single members.length i fun _ => if u = v then a else 0,
        if_pos hilen]
    · have hne : ∀ j, (d, j) ≠ (c, i) := fun j h => hd (Prod.mk.inj h).1.symm
      simp [hd, hne]
  rw [sumTo_congr hinner, sumTo_single memberLists.length c fun _ => if u = v then a else 0,
    if_pos hlen]

end FusionMove
