import FusionMove.Energy.Model

namespace FusionMove

/-!
# Drafts — energy models under construction

A `Draft` grows by variables, unary costs and cliques; what does not fit is refused and changes
nothing.  Unary costs lie in one array, variable by variable, and start at zero; the number of
variables is the array's size divided by the number of labels.  `Draft.toModel` is the model that
a draft stands for.
-/

/-- An energy model that is still being built. -/
structure Draft where
  numLabels : Nat
  unary : Array Int
  cliques : Array Clique

namespace Draft

/-- An empty draft; a model needs at least one label. -/
def new (numLabels : Nat) : Except Fault Draft :=
  if numLabels = 0 then .error .noLabels
  else .ok ⟨numLabels, #[], #[]⟩

/-- Number of variables. -/
def numVars (d : Draft) : Nat :=
  d.unary.size / d.numLabels

/-- Number of cliques. -/
def numCliques (d : Draft) : Nat :=
  d.cliques.size

/-- Add `count` variables without costs; the result is the first new one. -/
def addVars (d : Draft) (count : Nat) : Nat × Draft :=
  (d.numVars, { d with unary := d.unary ++ Array.replicate (count * d.numLabels) 0 })

/-- Add one variable without costs. -/
def addVar (d : Draft) : Nat × Draft :=
  d.addVars 1

/-- Add `costs`, one a label, to the unary costs of `var`. -/
def addCosts (d : Draft) (var : Nat) (costs : Array Int) : Except Fault Draft :=
  if d.numVars ≤ var then .error (.variableOutOfRange var d.numVars)
  else if costs.size ≠ d.numLabels then .error (.costsLength d.numLabels costs.size)
  else .ok { d with
    unary := (List.range d.numLabels).foldl
      (fun us l => us.modify (var * d.numLabels + l) (· + costs.getD l 0)) d.unary }

/-- Add a clique; the result is its index. -/
def addClique (d : Draft) (c : Clique) : Except Fault (Nat × Draft) :=
  match memberFault? d.cliques.size c.nodes d.numVars with
  | some fault => .error fault
  | none => .ok (d.cliques.size, { d with cliques := d.cliques.push c })

/-- The model under construction. -/
def toModel (d : Draft) : Model where
  numVars := d.numVars
  numLabels := d.numLabels
  unary? v l := d.unary[v * d.numLabels + l]?
  cliques := d.cliques.toList

/-- A draft with the given unary costs, one row a variable, and cliques. -/
def ofRows (numLabels : Nat) (rows : List (Array Int)) (cliques : List Clique) :
    Except Fault Draft := do
  let empty ← new numLabels
  let blank := (empty.addVars rows.length).2
  let costed ← rows.zipIdx.foldlM (fun d p => d.addCosts p.2 p.1) blank
  cliques.foldlM (fun d c => return (← d.addClique c).2) costed

end Draft

end FusionMove
