import FusionMove.Solver.Snapshot

namespace FusionMove

/-!
# The written form of a snapshot

A snapshot travels as a record of named entries, in the order in which its layout lists them.
Reading looks the entries up by their names, so it does not depend on the order, and refuses a
record in which one is missing or is of another kind.  Numbers have no width here.
-/

/-- Written data. -/
inductive Tree where
  | number (value : Int)
  | text (value : String)
  | list (entries : List Tree)
  | record (entries : List (String × Tree))

namespace Tree

variable {α : Type}

/-- The entry of a record under a name. -/
def field? (t : Tree) (name : String) : Option Tree :=
  match t with
  | record entries => entries.lookup name
  | _ => none

def int? : Tree → Option Int
  | number value => some value
  | _ => none

def nat? : Tree → Option Nat
  | number value => value.toNat?
  | _ => none

def text? : Tree → Option String
  | text value => some value
  | _ => none

def list? (read? : Tree → Option α) : Tree → Option (List α)
  | list entries => entries.mapM read?
  | _ => none

def array? (read? : Tree → Option α) (t : Tree) : Option (Array α) :=
  (t.list? read?).map (·.toArray)

/-- A list, written entry by entry. -/
def ofList (write : α → Tree) (xs : List α) : Tree :=
  list (xs.map write)

/-- An array is written as a list. -/
def ofArray (write : α → Tree) (xs : Array α) : Tree :=
  ofList write xs.toList

end Tree

namespace Snapshot

/-- Write a snapshot. -/
def toTree (p : Snapshot) : Tree :=
  .record [
    ("version", .number p.version),
    ("iteration", .number p.iteration),
    ("unchanged_streak", .number p.idle),
    ("state", .text p.phase.name),
    ("num_labels", .number p.numLabels),
    ("labels", .ofArray (fun label : Nat => .number label) p.labels),
    ("dual", .ofList (.ofArray .number) p.dual),
    ("heights", .ofArray .number p.heights)]

/-- Read a snapshot. -/
def ofTree? (t : Tree) : Option Snapshot := do
  let version ← (t.field? "version").bind (·.nat?)
  let iteration ← (t.field? "iteration").bind (·.nat?)
  let idle ← (t.field? "unchanged_streak").bind (·.nat?)
  let phase ← (t.field? "state").bind fun entry => entry.text?.bind Phase.ofName?
  let numLabels ← (t.field? "num_labels").bind (·.nat?)
  let labels ← (t.field? "labels").bind (·.array? Tree.nat?)
  let dual ← (t.field? "dual").bind (·.list? (Tree.array? Tree.int?))
  let heights ← (t.field? "heights").bind (·.array? Tree.int?)
  return ⟨version, iteration, idle, phase, numLabels, labels, dual, heights⟩

end Snapshot

end FusionMove
