import FusionMove.Sum

namespace FusionMove.Decimal

/-!
# Decimal — the shortest text that reads back

`shortest x` writes a double with as few decimal digits as tell it apart from its neighbours.

* `Dyadic` is a finite magnitude `m · 2^q` with the interval of numbers that round to it, kept in
  quarters of the last place: `4m − 2` (`4m − 1` below a power of two) to `4m + 2`, ends included
  iff `m` is even.
* `Dyadic.onGrid?` looks for a multiple of `10^p` in that interval; only the two neighbours of the
  value on the grid can be there.  The coarsest grid with a hit has the fewest digits.
* `positional` writes `digits · 10^p` without an exponent and without a point after a whole
  number.
-/

open scoped CoreArithmetic

/-- A positive magnitude `mantissa · 2^exponent` of a double. -/
structure Dyadic where
  mantissa : Nat
  exponent : Int
  /-- The next smaller double is only half as far away as the next larger one. -/
  closeBelow : Bool
  deriving DecidableEq, Repr

namespace Dyadic

/-- The magnitude that the exponent and fraction fields of a double stand for. -/
def ofFields (exponent fraction : Nat) : Dyadic :=
  if exponent = 0 then ⟨fraction, -1074, false⟩
  else ⟨2 ^ (52 : Nat) + fraction, (exponent : Int) - 1075, fraction = 0 && 1 < exponent⟩

/-- `quarters · 2^(exponent − 2)` measured in units of `10^p`, as numerator and denominator. -/
def scaled (d : Dyadic) (quarters : Nat) (p : Int) : Nat × Nat :=
  let q := d.exponent - 2
  (quarters * 2 ^ q.toNat * 10 ^ (-p).toNat, 2 ^ (-q).toNat * 10 ^ p.toNat)

/-- Whether `n · 10^p` rounds to `d`. -/
def covers (d : Dyadic) (n : Nat) (p : Int) : Bool :=
  let low := d.scaled (4 * d.mantissa - if d.closeBelow then 1 else 2) p
  let high := d.scaled (4 * d.mantissa + 2) p
  if d.mantissa % 2 = 0 then low.1 ≤ n * low.2 && n * high.2 ≤ high.1
  else low.1 < n * low.2 && n * high.2 < high.1

/-- The multiple of `10^p` nearest to `d` among those that round to it; an exact tie goes to the
    larger one. -/
def onGrid? (d : Dyadic) (p : Int) : Option Nat :=
  let (num, den) := d.scaled (4 * d.mantissa) p
  let below := num / den
  match d.covers below p, d.covers (below + 1) p with
  | true, true => some (if 2 * (num % den) < den then below else below + 1)
  | true, false => some below
  | false, true => some (below + 1)
  | false, false => none

/-- Digits and power of ten of the shortest decimal.  Doubles lie below `10^309`, and every one
    has a multiple of `10^-324` in its interval. -/
def shortest (d : Dyadic) : Nat × Int :=
  ((List.range 634).findSome? fun (i : Nat) =>
    (d.onGrid? (309 - i)).map (·, 309 - (i : Int))).getD (0, 0)

end Dyadic

/-- `digits · 10^p` with a decimal point only where places follow it. -/
def positional (digits : Nat) (p : Int) : String :=
  let places := (-p).toNat
  let cs := (toString (digits * 10 ^ p.toNat)).toList
  if places = 0 then String.ofList cs
  else
    let padded := List.replicate (places + 1 - cs.length) '0' ++ cs
    let whole := padded.length - places
    String.ofList (padded.take whole ++ '.' :: padded.drop whole)

/-- The shortest text of a double. -/
def shortest (x : Float) : String :=
  let bits := x.toBits.toNat
  let sign := if bits / 2 ^ (63 : Nat) = 0 then "" else "-"
  let exponent := bits / 2 ^ (52 : Nat) % 2 ^ (11 : Nat)
  let fraction := bits % 2 ^ (52 : Nat)
  if exponent = 2047 then
    if fraction = 0 then sign ++ "inf" else "NaN"
  else if exponent = 0 ∧ fraction = 0 then sign ++ "0"
  else
    let (digits, p) := (Dyadic.ofFields exponent fraction).shortest
    sign ++ positional digits p

example : positional 15 (-1) = "1.5" := by decide +kernel
example : positional 25 (-4) = "0.0025" := by decide +kernel
example : positional 6 2 = "600" := by decide +kernel

/-- `8796093022208.0625` lies half way between two numbers with three places. -/
example : shortest 8796093022208.0625 = "8796093022208.063" := by decide +kernel

end FusionMove.Decimal
