import FusionMove.Proofs.Certificate.Checked
import Mathlib.Data.List.Basic
import Mathlib.Data.List.Induction

namespace FusionMove.Duals

/-!
# A table of duals is a map

All values of a table lie in one array, block after block, and the blocks differ in length; some are
empty.  Seen from outside there is one number for every clique, member and label: what is written to
such a cell is read there and nowhere else.  Blocks list these numbers row by row, and the least
value is the least of them.

* `Duals.Cell`, `Cell.In` — a clique, member and label, and when a table has room for them;
* `Duals.Write`, `writeAll?`, `lastWritten` — writes one after the other, and what they say with no
  table in sight;
* `Duals.Holds` — every cell holds its number; a write keeps it for the numbers after it;
* `Duals.Displays` — what a caller reads in a table that holds given numbers;
* `writeAll?_displays` — after every sequence of writes it is what was written last.
-/

/-! ### Cells and writes -/

/-- A clique, a member and a label. -/
@[ext]
structure Cell where
  clique : Nat
  member : Nat
  label : Nat
  deriving DecidableEq, Repr

namespace Cell

/-- The clique is one of those whose sizes are given, it has the member, and the label is in range. -/
def In (sizes : List Nat) (numLabels : Nat) (p : Cell) : Prop :=
  p.clique < sizes.length ∧ p.member < sizes.getD p.clique 0 ∧ p.label < numLabels

instance (sizes : List Nat) (numLabels : Nat) (p : Cell) : Decidable (p.In sizes numLabels) :=
  inferInstanceAs (Decidable (_ ∧ _ ∧ _))

theorem in_iff {sizes : List Nat} {numLabels : Nat} {p : Cell} : p.In sizes numLabels ↔
    ∃ k, sizes[p.clique]? = some k ∧ p.member < k ∧ p.label < numLabels := by
  rw [In, List.getD_eq_getElem?_getD]
  constructor
  · rintro ⟨hclique, hmember, hlabel⟩
    rw [List.getElem?_eq_getElem hclique] at hmember ⊢
    exact ⟨_, rfl, hmember, hlabel⟩
  · rintro ⟨k, hk, hmember, hlabel⟩
    rw [hk]
    exact ⟨(List.getElem?_eq_some_iff.mp hk).1, hmember, hlabel⟩

end Cell

/-- A value that goes into a cell. -/
structure Write where
  cell : Cell
  value : Int
  deriving DecidableEq, Repr

/-- The table after a write. -/
def Write.perform? (t : Duals) (w : Write) : Except Fault Duals :=
  t.set? w.cell.clique w.cell.member w.cell.label w.value

/-- The table after all writes, one after the other. -/
def writeAll? (t : Duals) (writes : List Write) : Except Fault Duals :=
  writes.foldlM Write.perform? t

/-- The value that was written last to a cell, and zero if none was. -/
def lastWritten (writes : List Write) (p : Cell) : Int :=
  ((writes.filter (·.cell = p)).getLast?.map (·.value)).getD 0

theorem lastWritten_concat (writes : List Write) (w : Write) (p : Cell) :
    lastWritten (writes ++ [w]) p = if w.cell = p then w.value else lastWritten writes p := by
  by_cases h : w.cell = p <;> simp [lastWritten, List.filter_append, h]

/-! ### What a write changes -/

/-- The table has the given dimensions, and every cell holds its number. -/
structure Holds (sizes : List Nat) (numLabels : Nat) (number : Cell → Int) (t : Duals) : Prop where
  laid : t.Laid sizes numLabels
  get_eq : ∀ p : Cell, p.In sizes numLabels → t.get p.clique p.member p.label = number p

section

variable {t : Duals} {sizes : List Nat} {numLabels : Nat} {number : Cell → Int}

/-- A new table holds zeros. -/
theorem holds_ofSizes (sizes : List Nat) (numLabels : Nat) :
    (ofSizes sizes numLabels).Holds sizes numLabels fun _ => 0 :=
  ⟨laid_ofSizes sizes numLabels, fun _ _ => get_ofSizes ..⟩

theorem Laid.inBounds_cell (ht : t.Laid sizes numLabels) {p : Cell} (hp : p.In sizes numLabels) :
    t.inBounds p.clique p.member p.label = true := by
  obtain ⟨k, hk, hmember, hlabel⟩ := Cell.in_iff.mp hp
  exact ht.inBounds hk hmember hlabel

/-- Two cells that have an address in common are the same. -/
theorem Laid.cell_eq (ht : t.Laid sizes numLabels) {p q : Cell} (hp : p.In sizes numLabels)
    (hq : q.In sizes numLabels)
    (heq : t.address p.clique p.member p.label = t.address q.clique q.member q.label) : p = q := by
  obtain ⟨k, hk, hmember, hlabel⟩ := Cell.in_iff.mp hp
  obtain ⟨k', hk', hmember', hlabel'⟩ := Cell.in_iff.mp hq
  obtain ⟨hc, hi, hl⟩ := ht.address_injective hk hmember hlabel hk' hmember' hlabel' heq
  exact Cell.ext hc hi hl

/-- A write to a cell is carried out, and the other cells keep their numbers. -/
theorem Holds.write (h : t.Holds sizes numLabels number) {w : Write}
    (hw : w.cell.In sizes numLabels) : ∃ t', w.perform? t = .ok t' ∧
      t'.Holds sizes numLabels fun p => if w.cell = p then w.value else number p := by
  refine ⟨_, if_pos (h.laid.inBounds_cell hw),
    ⟨h.laid.numLabels_eq, h.laid.offsets_eq, ?_⟩, fun p hp => ?_⟩
  · exact Array.size_setIfInBounds.trans h.laid.size_eq
  · obtain ⟨k, hk, hmember, hlabel⟩ := Cell.in_iff.mp hw
    have hlt := h.laid.address_lt hk hmember hlabel
    show (t.values.setIfInBounds (t.address w.cell.clique w.cell.member w.cell.label) w.value).getD
      (t.address p.clique p.member p.label) 0 = _
    rw [getD_setIfInBounds _ _ _ _ _ hlt]
    by_cases hcell : w.cell = p
    · rw [if_pos hcell, if_pos (by rw [hcell])]
    · rw [if_neg hcell, if_neg fun heq => hcell (h.laid.cell_eq hw hp heq)]
      exact h.get_eq p hp

/-- Adding to a cell writes the sum to it. -/
theorem Holds.add?_eq_set? (h : t.Holds sizes numLabels number) {p : Cell}
    (hp : p.In sizes numLabels) (delta : Int) :
    t.add? p.clique p.member p.label delta
      = t.set? p.clique p.member p.label (number p + delta) := by
  have hin := h.laid.inBounds_cell hp
  rw [add?, set?, if_pos hin, if_pos hin, add, ← h.get_eq p hp, get,
    modify_eq_setIfInBounds _ _ _ 0]

/-- Whatever is written, every cell holds what was written to it last. -/
theorem writeAll?_holds {writes : List Write} (h : ∀ w ∈ writes, w.cell.In sizes numLabels) :
    ∃ t, writeAll? (ofSizes sizes numLabels) writes = .ok t ∧
      t.Holds sizes numLabels (lastWritten writes) := by
  induction writes using List.reverseRecOn with
  | nil => exact ⟨_, rfl, holds_ofSizes sizes numLabels⟩
  | append_singleton writes w ih =>
    obtain ⟨t, ht, hholds⟩ := ih fun w hw => h w (by simp [hw])
    obtain ⟨t', ht', hholds'⟩ := hholds.write (h w (by simp))
    refine ⟨t', ?_, ?_⟩
    · rw [writeAll?] at ht ⊢
      rw [List.foldlM_append, ht, ok_bind, List.foldlM_cons, ht']
      rfl
    · rw [show lastWritten (writes ++ [w]) = _ from funext (lastWritten_concat writes w)]
      exact hholds'

end

/-! ### What a caller reads -/

/-- The numbers of a clique with `size` members, row by row with one row a member. -/
def listing (number : Cell → Int) (numLabels c size : Nat) : List Int :=
  (List.range size).flatMap fun i => (List.range numLabels).map fun l => number ⟨c, i, l⟩

/-- What a table shows: the number of every cell, the block of every clique as a listing of its
    numbers, all its values in the blocks, and the least of all numbers. -/
structure Displays (sizes : List Nat) (numLabels : Nat) (number : Cell → Int) (t : Duals) :
    Prop where
  numCliques_eq : t.numCliques = sizes.length
  get?_eq : ∀ p : Cell, p.In sizes numLabels →
    t.get? p.clique p.member p.label = .ok (number p)
  block?_eq : ∀ c size, sizes[c]? = some size → ∃ block, t.block? c = .ok block ∧
    t.slice? c = .ok block ∧ block.size = size * numLabels ∧
    block.toList = listing number numLabels c size
  values_eq : t.values.toList = (t.blocks.map (·.toList)).flatten
  minValue?_eq_none_iff : t.minValue? = none ↔ ∀ p : Cell, ¬ p.In sizes numLabels
  minValue?_eq_some_iff : ∀ least, t.minValue? = some least ↔
    (∃ p : Cell, p.In sizes numLabels ∧ number p = least) ∧
      ∀ p : Cell, p.In sizes numLabels → least ≤ number p

/-- The entries of a block are counted from its start. -/
theorem getElem_block (t : Duals) (c : Nat) {j : Nat} (hj : j < (t.block c).size) :
    (t.block c)[j] = t.values.getD (t.offsets.getD c 0 + j) 0 := by
  have hin : t.offsets.getD c 0 + j < t.values.size := by
    rw [block, Array.size_extract] at hj
    omega
  rw [Array.getD_eq_getD_getElem?, Array.getElem?_eq_getElem hin, Option.getD_some]
  exact Array.getElem_extract hj

/-- A range in rows of equal length. -/
theorem range_mul_eq_flatMap (k n : Nat) :
    List.range (k * n) = (List.range k).flatMap fun i => (List.range n).map (i * n + ·) := by
  induction k with
  | zero => simp
  | succ k ih =>
    rw [Nat.succ_mul, List.range_add, ih, List.range_succ, List.flatMap_append,
      List.flatMap_singleton]

section

variable {t : Duals} {sizes : List Nat} {numLabels : Nat} {number : Cell → Int}

/-- A block lists the numbers of its clique. -/
theorem Holds.toList_block (h : t.Holds sizes numLabels number) {c size : Nat}
    (hk : sizes[c]? = some size) :
    (t.block c).toList = listing number numLabels c size := by
  have hsize := h.laid.size_block hk
  have hentries : (t.block c).toList = (List.range (size * numLabels)).map fun j =>
      t.values.getD (t.offsets.getD c 0 + j) 0 := by
    refine List.ext_getElem (by simp [hsize]) fun j hj _ => ?_
    rw [Array.getElem_toList, List.getElem_map, List.getElem_range, getElem_block]
  rw [hentries, range_mul_eq_flatMap, List.map_flatMap, listing]
  refine List.flatMap_congr fun i hi => ?_
  rw [List.map_map]
  refine List.map_congr_left fun l hl => ?_
  have hp : Cell.In sizes numLabels ⟨c, i, l⟩ :=
    Cell.in_iff.mpr ⟨size, hk, List.mem_range.mp hi, List.mem_range.mp hl⟩
  rw [← h.get_eq _ hp, get, address, h.laid.numLabels_eq, Nat.add_assoc]
  rfl

/-- The values of a table are the numbers of its cells. -/
theorem Holds.mem_values_iff (h : t.Holds sizes numLabels number) {a : Int} :
    a ∈ t.values.toList ↔ ∃ p : Cell, p.In sizes numLabels ∧ number p = a := by
  rw [← h.laid.flatten_blocks]
  simp only [blocks, h.laid.numCliques_eq, List.map_map, List.mem_flatten, List.mem_map,
    List.mem_range, Function.comp_apply]
  constructor
  · rintro ⟨_, ⟨c, hc, rfl⟩, ha⟩
    have hk : sizes[c]? = some sizes[c] := List.getElem?_eq_getElem hc
    rw [h.toList_block hk, listing] at ha
    obtain ⟨i, hi, ha⟩ := List.mem_flatMap.mp ha
    obtain ⟨l, hl, rfl⟩ := List.mem_map.mp ha
    exact ⟨⟨c, i, l⟩, Cell.in_iff.mpr ⟨_, hk, List.mem_range.mp hi, List.mem_range.mp hl⟩, rfl⟩
  · rintro ⟨⟨c, i, l⟩, hp, rfl⟩
    obtain ⟨k, hk, hi, hl⟩ := Cell.in_iff.mp hp
    refine ⟨_, ⟨c, hp.1, rfl⟩, ?_⟩
    rw [h.toList_block hk, listing]
    exact List.mem_flatMap.mpr ⟨i, List.mem_range.mpr hi,
      List.mem_map.mpr ⟨l, List.mem_range.mpr hl, rfl⟩⟩

/-- What a table holds is what it shows. -/
theorem Holds.displays (h : t.Holds sizes numLabels number) :
    t.Displays sizes numLabels number where
  numCliques_eq := h.laid.numCliques_eq
  get?_eq p hp := by rw [get?, if_pos (h.laid.inBounds_cell hp), h.get_eq p hp]
  block?_eq c size hk := by
    have hc : c < t.numCliques := by
      rw [h.laid.numCliques_eq]
      exact (List.getElem?_eq_some_iff.mp hk).1
    exact ⟨t.block c, if_pos hc, h.laid.slice?_eq_ok hk, h.laid.size_block hk, h.toList_block hk⟩
  values_eq := h.laid.flatten_blocks.symm
  minValue?_eq_none_iff := by
    rw [minValue?, List.min?_eq_none_iff, List.eq_nil_iff_forall_not_mem]
    simp only [h.mem_values_iff]
    exact ⟨fun hnone p hp => hnone _ ⟨p, hp, rfl⟩, fun hnone _ ⟨p, hp, _⟩ => hnone p hp⟩
  minValue?_eq_some_iff least := by
    rw [minValue?, List.min?_eq_some_iff, h.mem_values_iff]
    simp only [h.mem_values_iff]
    refine and_congr_right fun _ => ⟨fun hle p hp => hle _ ⟨p, hp, rfl⟩, ?_⟩
    rintro hle _ ⟨p, hp, rfl⟩
    exact hle p hp

end

/-- **Duals are a map.**  In-range writes to a table for cliques of any sizes are all carried out, and
    then the table shows in each cell what was written there last, and zero if nothing was.  One
    more write to a cell is read there and changes what is read in no other cell, and adding to a
    cell is to write the sum. -/
theorem writeAll?_displays (sizes : List Nat) (numLabels : Nat) {writes : List Write}
    (h : ∀ w ∈ writes, w.cell.In sizes numLabels) :
    ∃ t, writeAll? (ofSizes sizes numLabels) writes = .ok t ∧
      t.Displays sizes numLabels (lastWritten writes) ∧
      (∀ w : Write, w.cell.In sizes numLabels → ∃ t', w.perform? t = .ok t' ∧
        t'.get? w.cell.clique w.cell.member w.cell.label = .ok w.value ∧
        ∀ p : Cell, p.In sizes numLabels → p ≠ w.cell →
          t'.get? p.clique p.member p.label = t.get? p.clique p.member p.label) ∧
      ∀ p : Cell, p.In sizes numLabels → ∀ delta,
        t.add? p.clique p.member p.label delta
          = Write.perform? t ⟨p, lastWritten writes p + delta⟩ := by
  obtain ⟨t, ht, hholds⟩ := writeAll?_holds h
  refine ⟨t, ht, hholds.displays, fun w hw => ?_, fun p hp delta => hholds.add?_eq_set? hp delta⟩
  obtain ⟨t', ht', hholds'⟩ := hholds.write hw
  refine ⟨t', ht', ?_, fun p hp hne => ?_⟩
  · rw [hholds'.displays.get?_eq _ hw, if_pos rfl]
  · rw [hholds'.displays.get?_eq p hp, hholds.displays.get?_eq p hp, if_neg hne.symm]

/-- Two writes to one cell and a negative value, on cliques of which the second is empty. -/
def ragged : List Write :=
  [⟨⟨0, 1, 0⟩, 5⟩, ⟨⟨2, 0, 1⟩, -3⟩, ⟨⟨0, 1, 0⟩, 7⟩]

theorem writeAll?_displays_ragged : (∀ w ∈ ragged, w.cell.In [2, 0, 1] 2) ∧
    ∃ t, writeAll? (ofSizes [2, 0, 1] 2) ragged = .ok t ∧
      t.get? 0 1 0 = .ok 7 ∧ t.get? 0 0 1 = .ok 0 ∧
      t.slice? 0 = .ok #[0, 0, 7, 0] ∧ t.slice? 1 = .ok #[] ∧ t.slice? 2 = .ok #[0, -3] ∧
      t.minValue? = some (-3) := by
  have hin : ∀ w ∈ ragged, w.cell.In [2, 0, 1] 2 := by decide
  obtain ⟨t, ht, hshows, -, -⟩ := writeAll?_displays [2, 0, 1] 2 hin
  have hblock : ∀ c size entries, [2, 0, 1][c]? = some size →
      listing (lastWritten ragged) 2 c size = entries → t.slice? c = .ok entries.toArray := by
    rintro c size _ hsize rfl
    obtain ⟨block, -, hslice, -, hlist⟩ := hshows.block?_eq c size hsize
    rw [hslice, ← hlist]
  have hlow : ∀ p : Cell, p.In [2, 0, 1] 2 → -3 ≤ lastWritten ragged p := by
    have hall : ∀ c < 3, ∀ i < [2, 0, 1].getD c 0, ∀ l < 2, -3 ≤ lastWritten ragged ⟨c, i, l⟩ := by
      decide
    exact fun p hp => hall p.clique hp.1 p.member hp.2.1 p.label hp.2.2
  exact ⟨hin, t, ht, hshows.get?_eq ⟨0, 1, 0⟩ (by decide), hshows.get?_eq ⟨0, 0, 1⟩ (by decide),
    hblock 0 2 _ rfl (by decide), hblock 1 0 _ rfl (by decide), hblock 2 1 _ rfl (by decide),
    (hshows.minValue?_eq_some_iff (-3)).mpr ⟨⟨⟨2, 0, 1⟩, by decide, by decide⟩, hlow⟩⟩

end FusionMove.Duals
