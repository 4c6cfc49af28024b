import FusionMove.Mask
import FusionMove.Energy.Clique

namespace FusionMove.Cut

/-!
# Cut graphs — sums of set functions

A `Graph` gives every set `S` of its nodes the energy

    E(S) = constant + Σ_v (cost1 v if v ∈ S, else cost0 v) + Σ_F table_F(S ∩ F),

where a factor `F` is an ordered list of member nodes with a table over member masks.  Some nodes
may be fixed: they stay outside of `S`.

A graph also records the last cut: which nodes were chosen, and the potential of every member of
every factor.

* `Graph.energy` — the energy of a set;
* `Graph.WellFormed` — members are nodes and tables have an entry for every mask; every operation
  here keeps it.
-/

open scoped CoreArithmetic

/-- A node: what it costs outside and inside of the set, and whether the last cut chose it. -/
structure Node where
  cost0 : Int
  cost1 : Int
  chosen : Bool
  deriving DecidableEq, Repr, Inhabited

/-- A node without costs. -/
def Node.blank : Node :=
  ⟨0, 0, false⟩

/-- A set function on a list of nodes, with the potentials of the last cut. -/
structure Factor where
  members : List Nat
  table : Array Int
  potential : Array Int
  deriving DecidableEq, Repr

namespace Factor

/-- A factor that no cut has seen. -/
def ofTable (members : List Nat) (table : Array Int) : Factor :=
  ⟨members, table, Array.replicate members.length 0⟩

/-- Number of members. -/
def size (f : Factor) : Nat :=
  f.members.length

/-- The table entry of a mask. -/
def entry (f : Factor) (mask : Nat) : Int :=
  f.table.getD mask 0

/-- The mask of the members in `S`. -/
def maskOf (f : Factor) (S : Nat → Bool) : Nat :=
  Mask.ofBits (f.members.map S)

/-- The energy of the factor at `S`. -/
def energy (f : Factor) (S : Nat → Bool) : Int :=
  f.entry (f.maskOf S)

/-- Members are below `numNodes`, and the table has an entry for every mask. -/
def WellFormed (f : Factor) (numNodes : Nat) : Prop :=
  (∀ v ∈ f.members, v < numNodes) ∧ f.table.size = 2 ^ f.size

instance (f : Factor) (numNodes : Nat) : Decidable (f.WellFormed numNodes) :=
  inferInstanceAs (Decidable (_ ∧ _))

end Factor

/-- Nodes, factors, a constant, and which nodes are fixed; nodes past the end of `fixed` are
    free. -/
structure Graph where
  nodes : Array Node
  factors : List Factor
  constant : Int
  fixed : Array Bool
  deriving DecidableEq, Repr

namespace Graph

/-- The graph without nodes. -/
def empty : Graph :=
  ⟨#[], [], 0, #[]⟩

/-- Number of nodes. -/
def numNodes (g : Graph) : Nat :=
  g.nodes.size

/-- The cost of leaving `v` outside. -/
def cost0 (g : Graph) (v : Nat) : Int :=
  (g.nodes.getD v Node.blank).cost0

/-- The cost of taking `v`. -/
def cost1 (g : Graph) (v : Nat) : Int :=
  (g.nodes.getD v Node.blank).cost1

/-- Whether the last cut chose `v`. -/
def chosen (g : Graph) (v : Nat) : Bool :=
  (g.nodes.getD v Node.blank).chosen

/-- Whether `v` has to stay outside. -/
def isFixed (g : Graph) (v : Nat) : Bool :=
  g.fixed.getD v false

/-- The energy of the set `S`. -/
def energy (g : Graph) (S : Nat → Bool) : Int :=
  g.constant + sumTo g.numNodes (fun v => if S v then g.cost1 v else g.cost0 v) +
    (g.factors.map (·.energy S)).sum

/-- Every factor is well formed. -/
def WellFormed (g : Graph) : Prop :=
  ∀ f ∈ g.factors, f.WellFormed g.numNodes

instance (g : Graph) : Decidable g.WellFormed :=
  inferInstanceAs (Decidable (∀ f ∈ g.factors, f.WellFormed g.numNodes))

/-! ### Building -/

/-- Add `count` nodes without costs; the result is the first new one. -/
def addNodes (g : Graph) (count : Nat) : Nat × Graph :=
  (g.numNodes, { g with nodes := g.nodes ++ Array.replicate count Node.blank })

/-- Add a factor; the result is its index. -/
def addFactor (g : Graph) (members : List Nat) (table : Array Int) : Except Fault (Nat × Graph) :=
  match memberFault? g.factors.length members g.numNodes with
  | some fault => .error fault
  | none =>
    if table.size = 2 ^ members.length then
      .ok (g.factors.length, { g with factors := g.factors ++ [Factor.ofTable members table] })
    else .error (.tableSize g.factors.length (2 ^ members.length) table.size)

/-- Set all costs to zero. -/
def clearCosts (g : Graph) : Graph :=
  { g with nodes := Array.ofFn fun v : Fin g.numNodes => ⟨0, 0, g.chosen v⟩ }

/-- Add to both costs of a node. -/
def addCosts (g : Graph) (v : Nat) (e0 e1 : Int) : Graph :=
  { g with nodes := g.nodes.modify v fun n => ⟨n.cost0 + e0, n.cost1 + e1, n.chosen⟩ }

/-- Add to the constant. -/
def addConstant (g : Graph) (delta : Int) : Graph :=
  { g with constant := g.constant + delta }

/-- Put another table in the place of that of factor `c`. -/
def setTable (g : Graph) (c : Nat) (table : Array Int) : Graph :=
  { g with factors := g.factors.modify c fun f => { f with table := table } }

/-! ### Checked access -/

/-- Add to both costs of a node that the graph has. -/
def addCosts? (g : Graph) (v : Nat) (e0 e1 : Int) : Except Fault Graph :=
  if v < g.numNodes then .ok (g.addCosts v e0 e1) else .error .outOfRange

/-- Overwrite an entry that the table of factor `c` has. -/
def setEntry? (g : Graph) (c mask : Nat) (value : Int) : Except Fault Graph :=
  match g.factors[c]? with
  | none => .error .outOfRange
  | some f =>
    if mask < f.table.size then .ok (g.setTable c (f.table.setIfInBounds mask value))
    else .error .outOfRange

/-! ### Every operation keeps a graph well formed -/

theorem wellFormed_empty : empty.WellFormed := by
  simp [WellFormed, empty]

theorem wellFormed_addNodes {g : Graph} (h : g.WellFormed) (count : Nat) :
    (g.addNodes count).2.WellFormed := by
  intro f hf
  refine ⟨fun v hv => ?_, (h f hf).2⟩
  have hlt : v < g.nodes.size := (h f hf).1 v hv
  simp only [addNodes, numNodes, Array.size_append, Array.size_replicate]
  omega

/-- What `addFactor` accepts has members among the nodes and a table of the right size. -/
theorem addFactor_eq_ok_iff {g g' : Graph} {members : List Nat} {table : Array Int} {c : Nat} :
    g.addFactor members table = .ok (c, g') ↔
      (0 < members.length ∧ members.length ≤ cliqueSizeLimit ∧ ∀ v ∈ members, v < g.numNodes) ∧
      table.size = 2 ^ members.length ∧ c = g.factors.length ∧
      g' = { g with factors := g.factors ++ [Factor.ofTable members table] } := by
  rw [← @memberFault?_eq_none_iff g.factors.length, addFactor]
  cases memberFault? g.factors.length members g.numNodes with
  | some fault => simp
  | none =>
    by_cases hs : table.size = 2 ^ members.length
    · simp [hs, eq_comm]
    · simp [hs]

theorem wellFormed_addFactor {g g' : Graph} {members : List Nat} {table : Array Int} {c : Nat}
    (h : g.WellFormed) (ha : g.addFactor members table = .ok (c, g')) : g'.WellFormed := by
  obtain ⟨⟨-, -, hm⟩, hs, -, rfl⟩ := addFactor_eq_ok_iff.mp ha
  intro f hf
  rcases List.mem_append.mp hf with hf | hf
  · exact h f hf
  · obtain rfl := List.mem_singleton.mp hf
    exact ⟨hm, hs⟩

theorem wellFormed_clearCosts {g : Graph} (h : g.WellFormed) : g.clearCosts.WellFormed := by
  intro f hf
  simpa [clearCosts, numNodes] using h f hf

theorem wellFormed_addCosts {g : Graph} (h : g.WellFormed) (v : Nat) (e0 e1 : Int) :
    (g.addCosts v e0 e1).WellFormed := by
  intro f hf
  simpa [addCosts, numNodes] using h f hf

theorem wellFormed_addConstant {g : Graph} (h : g.WellFormed) (delta : Int) :
    (g.addConstant delta).WellFormed :=
  h

/-- A table of the same size may take the place of another. -/
theorem wellFormed_setTable {g : Graph} (h : g.WellFormed) {c : Nat} {table : Array Int}
    (hs : ∀ f, g.factors[c]? = some f → table.size = f.table.size) :
    (g.setTable c table).WellFormed := by
  intro f hf
  obtain ⟨i, hi, rfl⟩ := List.mem_iff_getElem.mp hf
  simp only [setTable, List.length_modify] at hi
  have hw := h g.factors[i] (List.getElem_mem hi)
  simp only [setTable, List.getElem_modify]
  split
  · rename_i hc
    subst hc
    refine ⟨hw.1, ?_⟩
    rw [hs _ (List.getElem?_eq_getElem hi)]
    exact hw.2
  · exact hw

theorem wellFormed_setEntry {g g' : Graph} (h : g.WellFormed) {c mask : Nat} {value : Int}
    (he : g.setEntry? c mask value = .ok g') : g'.WellFormed := by
  unfold setEntry? at he
  split at he
  · simp at he
  · rename_i f hf
    split at he
    · simp only [Except.ok.injEq] at he
      subst he
      exact wellFormed_setTable h fun f' hf' => by simp_all
    · simp at he

end Graph

end FusionMove.Cut
