import FusionMove.Certificate.Validity

namespace FusionMove

/-!
# Cells of a certificate

A table of duals with the dimensions of a model keeps every clique, member and label that the model
has in a cell of its own, and so does a table of heights for variables and labels.  Adding to one
cell therefore leaves all others alone.

* `Model.HasCell` — the cliques, members and labels of a model;
* `Certificate.Shaped` — both tables have the dimensions of the model;
* `Duals.Laid.sizes_blocks`, `Duals.Laid.flatten_blocks` — the blocks of a table, one after the
  other, are the table;
* `Duals.Laid.address_injective` — different cells have different addresses;
* `Certificate.Shaped.get_shift_dual` — what a shift changes.
-/

open scoped CoreArithmetic

/-- The model has a clique `c` with a member `i`, and a label `l`. -/
def Model.HasCell (m : Model) (c i l : Nat) : Prop :=
  ∃ clique, m.cliques[c]? = some clique ∧ i < clique.size ∧ l < m.numLabels

/-- Only the sizes of the cliques matter. -/
theorem Model.HasCell.exists_size {m : Model} {c i l : Nat} (h : m.HasCell c i l) :
    ∃ k, (m.cliques.map (·.size))[c]? = some k ∧ i < k ∧ l < m.numLabels := by
  obtain ⟨clique, hclique, hi, hl⟩ := h
  exact ⟨clique.size, by rw [List.getElem?_map, hclique]; rfl, hi, hl⟩

namespace Duals

/-! ### Blocks -/

/-- Blocks start where the blocks before them end. -/
theorem getD_blockBounds (numLabels : Nat) (sizes : List Nat) (start : Nat) {c : Nat}
    (hc : c ≤ sizes.length) :
    (blockBounds numLabels sizes start).getD c 0 = start + (sizes.take c).sum * numLabels := by
  induction sizes generalizing start c with
  | nil =>
    obtain rfl := Nat.le_zero.mp hc
    simp [blockBounds]
  | cons k ks ih =>
    cases c with
    | zero => simp [blockBounds]
    | succ c =>
      rw [List.length_cons] at hc
      rw [blockBounds, List.getD_cons_succ, ih _ (by omega), List.take_succ_cons, List.sum_cons,
        Nat.add_mul, Nat.add_assoc]

@[simp] theorem length_blockBounds (numLabels : Nat) (sizes : List Nat) (start : Nat) :
    (blockBounds numLabels sizes start).length = sizes.length + 1 := by
  induction sizes generalizing start with
  | nil => rfl
  | cons k ks ih => rw [blockBounds, List.length_cons, ih, List.length_cons]

/-- The next block starts where a block ends. -/
theorem sum_take_succ {sizes : List Nat} {c k : Nat} (hk : sizes[c]? = some k) :
    (sizes.take (c + 1)).sum = (sizes.take c).sum + k := by
  rw [List.take_add_one, hk, List.sum_append]
  simp

/-- A block ends before every later one starts. -/
theorem sum_take_add_le {sizes : List Nat} {c d k : Nat} (hk : sizes[c]? = some k) (hcd : c < d) :
    (sizes.take c).sum + k ≤ (sizes.take d).sum := by
  induction sizes generalizing c d with
  | nil => simp at hk
  | cons a as ih =>
    obtain ⟨d, rfl⟩ : ∃ e, d = e + 1 := ⟨d - 1, by omega⟩
    rw [List.take_succ_cons, List.sum_cons]
    cases c with
    | zero =>
      rw [List.getElem?_cons_zero, Option.some.injEq] at hk
      rw [List.take_zero, List.sum_nil]
      omega
    | succ c =>
      rw [List.getElem?_cons_succ] at hk
      have := ih hk (by omega : c < d)
      rw [List.take_succ_cons, List.sum_cons]
      omega

/-- Every block ends within the table. -/
theorem sum_take_add_le_sum {sizes : List Nat} {c k : Nat} (hk : sizes[c]? = some k) :
    (sizes.take c).sum + k ≤ sizes.sum := by
  have hc : c < sizes.length := (List.getElem?_eq_some_iff.mp hk).1
  simpa using sum_take_add_le hk hc

/-- Blocks for cliques of the given sizes lie one after the other, and nothing else is there. -/
structure Laid (sizes : List Nat) (numLabels : Nat) (t : Duals) : Prop where
  numLabels_eq : t.numLabels = numLabels
  offsets_eq : t.offsets = (blockBounds numLabels sizes 0).toArray
  size_eq : t.values.size = sizes.sum * numLabels

theorem laid_ofSizes (sizes : List Nat) (numLabels : Nat) :
    (ofSizes sizes numLabels).Laid sizes numLabels :=
  ⟨rfl, rfl, by simp [ofSizes]⟩

@[simp] theorem get_ofSizes (sizes : List Nat) (numLabels c i l : Nat) :
    (ofSizes sizes numLabels).get c i l = 0 := by
  simp only [get, ofSizes, Array.getD_eq_getD_getElem?, Array.getElem?_replicate]
  split <;> rfl

namespace Laid

variable {t : Duals} {sizes : List Nat} {numLabels c i l k c' i' l' k' : Nat}

/-- Where a block starts. -/
theorem getD_offsets (ht : t.Laid sizes numLabels) (hc : c ≤ sizes.length) :
    t.offsets.getD c 0 = (sizes.take c).sum * numLabels := by
  rw [ht.offsets_eq, Array.getD_eq_getD_getElem?, List.getElem?_toArray, ← List.getD_eq_getElem?_getD,
    getD_blockBounds _ _ _ hc, Nat.zero_add]

theorem size_offsets (ht : t.Laid sizes numLabels) : t.offsets.size = sizes.length + 1 := by
  rw [ht.offsets_eq, List.size_toArray, length_blockBounds]

theorem numCliques_eq (ht : t.Laid sizes numLabels) : t.numCliques = sizes.length := by
  rw [numCliques, ht.size_offsets, Nat.add_sub_cancel]

/-- A block has a row for every member. -/
theorem size_block (ht : t.Laid sizes numLabels) (hk : sizes[c]? = some k) :
    (t.block c).size = k * numLabels := by
  have hc : c < sizes.length := (List.getElem?_eq_some_iff.mp hk).1
  have hend := sum_take_succ hk
  have hle : (sizes.take (c + 1)).sum * numLabels ≤ t.values.size := by
    rw [ht.size_eq, hend]
    exact Nat.mul_le_mul_right _ (sum_take_add_le_sum hk)
  rw [block, ht.getD_offsets (Nat.le_of_lt hc), ht.getD_offsets hc, Array.size_extract,
    Nat.min_eq_left hle, hend, Nat.add_mul, Nat.add_sub_cancel_left]

/-- The blocks have the sizes of the cliques, a row a member. -/
theorem sizes_blocks (ht : t.Laid sizes numLabels) :
    t.blocks.map (·.size) = sizes.map (· * numLabels) := by
  rw [blocks, List.map_map, ht.numCliques_eq]
  apply List.ext_getElem?
  intro c
  rw [List.getElem?_map, List.getElem?_map]
  by_cases hc : c < sizes.length
  · have hk : sizes[c]? = some sizes[c] := List.getElem?_eq_getElem hc
    rw [List.getElem?_range hc, hk]
    exact congrArg some (ht.size_block hk)
  · rw [List.getElem?_eq_none (by simpa using hc), List.getElem?_eq_none (by omega)]
    rfl

/-- The first blocks together are the values up to where the next one starts. -/
theorem flatten_take_blocks (ht : t.Laid sizes numLabels) {n : Nat} (hn : n ≤ sizes.length) :
    (((List.range n).map t.block).map (·.toList)).flatten
      = t.values.toList.take ((sizes.take n).sum * numLabels) := by
  induction n with
  | zero => simp
  | succ n ih =>
    have hk : sizes[n]? = some sizes[n] := List.getElem?_eq_getElem hn
    have hend : (sizes.take (n + 1)).sum * numLabels
        = (sizes.take n).sum * numLabels + sizes[n] * numLabels := by
      rw [sum_take_succ hk, Nat.add_mul]
    rw [List.range_succ, List.map_append, List.map_append, List.flatten_append, ih (by omega), hend,
      List.take_add]
    congr 1
    simp [block, ht.getD_offsets (Nat.le_of_lt hn), ht.getD_offsets hn, hend]

/-- All blocks together are the values. -/
theorem flatten_blocks (ht : t.Laid sizes numLabels) :
    (t.blocks.map (·.toList)).flatten = t.values.toList := by
  rw [blocks, ht.numCliques_eq, ht.flatten_take_blocks (Nat.le_refl _), List.take_length,
    ← ht.size_eq]
  exact List.take_of_length_le (Nat.le_of_eq Array.length_toList)

/-! ### Addresses -/

/-- The rows of all cliques are counted through. -/
theorem address_eq (ht : t.Laid sizes numLabels) (hk : sizes[c]? = some k) (i l : Nat) :
    t.address c i l = ((sizes.take c).sum + i) * numLabels + l := by
  have hc : c < sizes.length := (List.getElem?_eq_some_iff.mp hk).1
  rw [address, ht.getD_offsets (Nat.le_of_lt hc), ht.numLabels_eq, ← Nat.add_mul]

/-- Cells lie inside the table. -/
theorem address_lt (ht : t.Laid sizes numLabels) (hk : sizes[c]? = some k) (hi : i < k)
    (hl : l < numLabels) : t.address c i l < t.values.size := by
  rw [ht.address_eq hk, ht.size_eq]
  have hrow := sum_take_add_le_sum hk
  -- the row of the cell ends where the next one starts, and that one is still within the table
  calc ((sizes.take c).sum + i) * numLabels + l
      < ((sizes.take c).sum + i) * numLabels + numLabels := by omega
    _ = ((sizes.take c).sum + i + 1) * numLabels := by rw [Nat.add_mul _ 1, Nat.one_mul]
    _ ≤ sizes.sum * numLabels := Nat.mul_le_mul_right _ (by omega)

theorem inBounds (ht : t.Laid sizes numLabels) (hk : sizes[c]? = some k) (hi : i < k)
    (hl : l < numLabels) : t.inBounds c i l = true := by
  have hc : c < sizes.length := (List.getElem?_eq_some_iff.mp hk).1
  have hoffsets := ht.size_offsets
  simp only [Duals.inBounds, Bool.and_eq_true, decide_eq_true_eq]
  exact ⟨by omega, ht.address_lt hk hi hl⟩

/-- Different cells have different addresses. -/
theorem address_injective (ht : t.Laid sizes numLabels) (hk : sizes[c]? = some k) (hi : i < k)
    (hl : l < numLabels) (hk' : sizes[c']? = some k') (hi' : i' < k') (hl' : l' < numLabels)
    (heq : t.address c i l = t.address c' i' l') : c = c' ∧ i = i' ∧ l = l' := by
  rw [ht.address_eq hk, ht.address_eq hk'] at heq
  -- the row and the label are quotient and remainder
  have hlabel : l = l' := by
    have := congrArg (· % numLabels) heq
    simpa [Nat.mul_add_mod_self_right, Nat.mod_eq_of_lt hl, Nat.mod_eq_of_lt hl'] using this
  have hrow : (sizes.take c).sum + i = (sizes.take c').sum + i' := by
    subst hlabel
    exact Nat.eq_of_mul_eq_mul_right (by omega) (Nat.add_right_cancel heq)
  -- equal rows lie in one block, since blocks do not overlap
  rcases Nat.lt_trichotomy c c' with hlt | rfl | hlt
  · have := sum_take_add_le hk hlt
    omega
  · exact ⟨rfl, by omega, hlabel⟩
  · have := sum_take_add_le hk' hlt
    omega

end Laid

/-- A table with the dimensions of the model. -/
structure Shaped (m : Model) (t : Duals) : Prop where
  numLabels_eq : t.numLabels = m.numLabels
  offsets_eq : t.offsets = (blockBounds m.numLabels (m.cliques.map (·.size)) 0).toArray
  size_eq : t.values.size = (m.cliques.map (·.size)).sum * m.numLabels

theorem shaped_ofSizes (m : Model) : (ofSizes (m.cliques.map (·.size)) m.numLabels).Shaped m :=
  ⟨rfl, rfl, by simp [ofSizes]⟩

namespace Shaped

variable {m : Model} {t : Duals} {c i l c' i' l' : Nat}

theorem laid (hs : t.Shaped m) : t.Laid (m.cliques.map (·.size)) m.numLabels :=
  ⟨hs.numLabels_eq, hs.offsets_eq, hs.size_eq⟩

theorem numCliques_eq (hs : t.Shaped m) : t.numCliques = m.numCliques := by
  rw [hs.laid.numCliques_eq, List.length_map, Model.numCliques]

/-- The cells of a model are inside a table of its dimensions. -/
theorem inBounds (hs : t.Shaped m) (h : m.HasCell c i l) : t.inBounds c i l = true := by
  obtain ⟨k, hk, hi, hl⟩ := h.exists_size
  exact hs.laid.inBounds hk hi hl

theorem add (hs : t.Shaped m) (c i l : Nat) (delta : Int) : (t.add c i l delta).Shaped m :=
  ⟨hs.numLabels_eq, hs.offsets_eq, by rw [size_values_add, hs.size_eq]⟩

/-- Adding to a cell changes this cell only. -/
theorem get_add_cell (hs : t.Shaped m) (h : m.HasCell c i l) (h' : m.HasCell c' i' l')
    (delta : Int) : (t.add c i l delta).get c' i' l'
      = t.get c' i' l' + if c = c' ∧ i = i' ∧ l = l' then delta else 0 := by
  obtain ⟨k, hk, hi, hl⟩ := h.exists_size
  obtain ⟨k', hk', hi', hl'⟩ := h'.exists_size
  have hcell : t.address c i l < t.values.size ∧ t.address c i l = t.address c' i' l' ↔
      c = c' ∧ i = i' ∧ l = l' := by
    constructor
    · exact fun ⟨_, heq⟩ => hs.laid.address_injective hk hi hl hk' hi' hl' heq
    · rintro ⟨rfl, rfl, rfl⟩
      exact ⟨hs.laid.address_lt hk hi hl, rfl⟩
  rw [get_add]
  simp only [hcell]

end Shaped

end Duals

namespace Heights

/-! ### Rows -/

/-- A table with the dimensions of the model. -/
structure Shaped (m : Model) (t : Heights) : Prop where
  numLabels_eq : t.numLabels = m.numLabels
  size_eq : t.values.size = m.numVars * m.numLabels

theorem shaped_ofFn (m : Model) (f : Nat → Nat → Int) : (ofFn m.numVars m.numLabels f).Shaped m :=
  ⟨rfl, by simp [ofFn]⟩

/-- A row and a label are less than all rows. -/
theorem row_lt {v l n k : Nat} (hv : v < n) (hl : l < k) : v * k + l < n * k := by
  calc v * k + l < v * k + k := by omega
    _ = (v + 1) * k := by rw [Nat.add_mul, Nat.one_mul]
    _ ≤ n * k := Nat.mul_le_mul_right _ hv

/-- The row and the label are quotient and remainder. -/
theorem row_div_mod {v l k : Nat} (hl : l < k) : (v * k + l) / k = v ∧ (v * k + l) % k = l := by
  refine ⟨?_, ?_⟩
  · rw [Nat.mul_comm, Nat.mul_add_div (by omega), Nat.div_eq_of_lt hl, Nat.add_zero]
  · rw [Nat.mul_comm, Nat.mul_add_mod, Nat.mod_eq_of_lt hl]

theorem get_ofFn {n k v l : Nat} (f : Nat → Nat → Int) (hv : v < n) (hl : l < k) :
    (ofFn n k f).get v l = f v l := by
  have hlt := row_lt hv hl
  obtain ⟨hdiv, hmod⟩ := row_div_mod (v := v) hl
  simp [get, ofFn, address, hlt, hdiv, hmod]

namespace Shaped

variable {m : Model} {t : Heights} {v l w k : Nat}

theorem inBounds (hs : t.Shaped m) (hv : v < m.numVars) (hl : l < m.numLabels) :
    t.inBounds v l = true := by
  have := row_lt hv hl
  simp only [Heights.inBounds, address, hs.numLabels_eq, hs.size_eq, decide_eq_true_eq]
  exact this

theorem numVars_eq (hs : t.Shaped m) (hL : 0 < m.numLabels) : t.numVars = m.numVars := by
  rw [numVars, hs.size_eq, hs.numLabels_eq, Nat.mul_div_cancel _ hL]

/-- The lowest height of a variable is below its heights at all labels. -/
theorem lowest_le (hs : t.Shaped m) (hv : v < m.numVars) (hl : l < m.numLabels) :
    t.lowest v ≤ t.get v l := by
  have hin : t.address v l < t.values.size := of_decide_eq_true (hs.inBounds hv hl)
  have hmem : t.get v l ∈ (t.row v).toList := by
    have hstop : (v + 1) * t.numLabels = v * t.numLabels + t.numLabels := Nat.succ_mul _ _
    have hlabels := hs.numLabels_eq
    unfold address at hin
    rw [Array.mem_toList_iff, row, Array.mem_extract_iff_getElem]
    refine ⟨l, by omega, ?_⟩
    simp [Heights.get, address, hin]
  obtain ⟨least, hleast⟩ := Option.isSome_iff_exists.mp (List.isSome_min?_of_mem hmem)
  unfold lowest
  rw [hleast]
  exact (List.min?_eq_some_iff.mp hleast).2 _ hmem

theorem add (hs : t.Shaped m) (v l : Nat) (delta : Int) : (t.add v l delta).Shaped m :=
  ⟨hs.numLabels_eq, by rw [size_values_add, hs.size_eq]⟩

/-- Adding to one height changes this height only. -/
theorem get_add_cell (hs : t.Shaped m) (hv : v < m.numVars) (hl : l < m.numLabels)
    (hk : k < m.numLabels) (delta : Int) : (t.add v l delta).get w k
      = t.get w k + if v = w ∧ l = k then delta else 0 := by
  have hcell : (t.inBounds v l = true ∧ t.address v l = t.address w k) ↔ v = w ∧ l = k := by
    constructor
    · rintro ⟨-, heq⟩
      rw [address, address, hs.numLabels_eq] at heq
      have hlk : l = k := by
        have := congrArg (· % m.numLabels) heq
        simpa [Nat.mul_add_mod_self_right, Nat.mod_eq_of_lt hl, Nat.mod_eq_of_lt hk] using this
      subst hlk
      exact ⟨Nat.eq_of_mul_eq_mul_right (by omega) (Nat.add_right_cancel heq), rfl⟩
    · rintro ⟨rfl, rfl⟩
      exact ⟨hs.inBounds hv hl, rfl⟩
  rw [get_add]
  simp only [hcell]

end Shaped

end Heights

namespace Certificate

/-! ### Shifts -/

/-- Both tables have the dimensions of the model. -/
structure Shaped (m : Model) (t : Certificate) : Prop where
  dual : t.dual.Shaped m
  heights : t.heights.Shaped m

theorem shaped_initial (m : Model) : (initial m).Shaped m :=
  ⟨Duals.shaped_ofSizes m, Heights.shaped_ofFn m _⟩

/-- Before any dual is set the heights are the unary costs. -/
theorem consistent_initial (m : Model) : (initial m).Consistent m := by
  intro v hv l hl
  have hzero : ((places m v).map fun p => (initial m).dual.get p.1 p.2 l).sum = 0 := by
    simp [initial]
  rw [heightFrom, hzero, Int.add_zero]
  exact Heights.get_ofFn m.unary hv hl

namespace Shaped

variable {m : Model} {t : Certificate} {c i v l : Nat}

theorem shift (hs : t.Shaped m) (c i v l : Nat) (delta : Int) :
    (t.shift c i v l delta).Shaped m :=
  ⟨hs.dual.add c i l delta, hs.heights.add v l delta⟩

/-- A shift changes one dual. -/
theorem get_shift_dual (hs : t.Shaped m) (h : m.HasCell c i l) {c' i' l' : Nat}
    (h' : m.HasCell c' i' l') (v : Nat) (delta : Int) :
    (t.shift c i v l delta).dual.get c' i' l'
      = t.dual.get c' i' l' + if c = c' ∧ i = i' ∧ l = l' then delta else 0 :=
  hs.dual.get_add_cell h h' delta

/-- A shift at the place of its variable keeps the heights consistent. -/
theorem consistent_shift (hs : t.Shaped m) (hc : t.Consistent m) {clique : Clique}
    (hclique : m.cliques[c]? = some clique) (hi : clique.nodes[i]? = some v) (hv : v < m.numVars)
    (hl : l < m.numLabels) (delta : Int) : (t.shift c i v l delta).Consistent m := by
  intro w hw k hk
  have hcell : m.HasCell c i l := ⟨clique, hclique, (List.getElem?_eq_some_iff.mp hi).1, hl⟩
  have hnodes : (m.cliques.map (·.nodes))[c]? = some clique.nodes := by
    rw [List.getElem?_map, hclique]
    rfl
  -- among the places of `w` only `(c, i)` can see the shift
  have hdual : ∀ p ∈ places m w, (t.shift c i v l delta).dual.get p.1 p.2 k
      = t.dual.get p.1 p.2 k + if p = (c, i) then (if l = k then delta else 0) else 0 := by
    rintro ⟨c', i'⟩ hp
    obtain ⟨clique', hclique', hi'⟩ := mem_incidence_map.mp hp
    rw [hs.get_shift_dual hcell ⟨clique', hclique', (List.getElem?_eq_some_iff.mp hi').1, hk⟩]
    by_cases h : (c', i') = (c, i)
    · obtain ⟨rfl, rfl⟩ := Prod.mk.inj h
      simp
    · have hne : ¬ (c = c' ∧ i = i' ∧ l = k) := fun ⟨h1, h2, _⟩ => h (by rw [h1, h2])
      rw [if_neg h, if_neg hne]
  have hheight : (t.shift c i v l delta).heights.get w k
      = t.heights.get w k + if v = w ∧ l = k then delta else 0 :=
    hs.heights.get_add_cell hv hl hk delta
  -- and it is a place of `w` only if `w` is the variable of the shift
  have hplaces := sum_incidence_single hnodes hi w (if l = k then delta else 0)
  rw [hheight, hc w hw k hk, heightFrom, heightFrom, List.map_congr_left hdual, sum_map_add, places,
    hplaces]
  by_cases hvw : v = w <;> by_cases hlk : l = k <;> simp [hvw, hlk, Int.add_assoc]

end Shaped

end Certificate

end FusionMove
