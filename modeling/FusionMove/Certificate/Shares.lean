import FusionMove.Fault

namespace FusionMove

/-!
# Even shares

A whole number is divided into parts: every part gets the quotient, rounded down, and the leading
parts get one unit more until the remainder is used up.

The number of parts and the position of a part are machine words, and both are read as signed
numbers.  From `2^63` on they count as negative, so a number of parts that large divides as a negative
one, and a position that large lies before all others.  Totals and shares are energies, and
unbounded.

* `Shares.of`, `Shares.of?` — quotient and remainder, and the refusal to divide into no parts;
* `Shares.part` — the part at a position;
* `Shares.share` — the parts of a total as a sequence.
-/

/-- How a total is divided: every part gets `base`, the first `extra` parts one unit more. -/
structure Shares where
  base : Int
  extra : Int
  deriving DecidableEq, Repr

namespace Shares

/-- The number that a machine word is when its highest bit counts negatively. -/
def signed (word : UInt64) : Int :=
  word.toInt64.toInt

/-- Divide `total` into `parts`, towards zero.  Where this leaves a negative remainder, take a unit
    from every part and put these units into the remainder. -/
def of (total : Int) (parts : UInt64) : Shares :=
  let k := signed parts
  if total.tmod k < 0 then ⟨total.tdiv k - 1, total.tmod k + k⟩ else ⟨total.tdiv k, total.tmod k⟩

/-- Divide `total` into `parts`; nothing can be divided into no parts. -/
def of? (total : Int) (parts : UInt64) : Except Fault Shares :=
  if parts = 0 then .error .divisionByZero else .ok (of total parts)

/-- The part at a position. -/
def part (s : Shares) (position : UInt64) : Int :=
  if signed position < s.extra then s.base + 1 else s.base

/-- What member `i` gets of `total` when it is divided into `parts`. -/
def share (total : Int) (parts : UInt64) (i : Nat) : Int :=
  (of total parts).part (.ofNat i)

end Shares

end FusionMove
