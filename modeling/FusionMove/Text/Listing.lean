namespace FusionMove.Text

/-!
# Text — lists of numbers

`listing xs` writes the entries in order between square brackets, separated by a comma and a
blank: `[0, -1, 2]`.  The empty list is `[]`.  Fault and event texts show tables and labelings
this way.
-/

/-- The entries of `xs` between square brackets. -/
def listing {α : Type} [ToString α] (xs : List α) : String :=
  "[" ++ ", ".intercalate (xs.map toString) ++ "]"

end FusionMove.Text
