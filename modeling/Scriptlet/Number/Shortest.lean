import Scriptlet.Number.Binary
import Scriptlet.Text.Digits

/-!
# Shortest decimals

The decimal with the fewest digits that reads back as a given double. The reals that round to the
double form an interval; the coarsest grid of multiples of a power of ten with a point in it gives
the fewest digits. Of two such points the nearer one is taken, and of two equally near the even one.
-/

namespace Scriptlet

/-- The number `digits · 10 ^ exponent`. -/
structure Decimal where
  digits : Nat
  exponent : Int
  deriving DecidableEq, Repr

namespace Shortest

/-- A positive double and the ends of the interval of reals that round to it, in quarters of a unit
in its last place. -/
structure Interval where
  low : Nat
  value : Nat
  high : Nat
  /-- The exponent of two of a quarter. -/
  exponent : Int
  /-- Whether the ends themselves round to the double. -/
  closed : Bool
  deriving Repr

/-- The interval of a double with the given parts. Below a power of two the gap to the next double
is half as wide. -/
def Interval.ofParts (p : Parts) : Interval :=
  let narrow := p.mantissa = 1 <<< Format.double.fractionBits ∧
    Format.double.leastExponent < p.exponent
  { low := 4 * p.mantissa - (if narrow then 1 else 2)
    value := 4 * p.mantissa
    high := 4 * p.mantissa + 2
    exponent := p.exponent - 2
    closed := p.mantissa % 2 = 0 }

/-- `2 ^ k` or `10 ^ k` as far as its exponent is not negative. -/
def power (base : Nat) (k : Int) : Nat := Nat.pow base k.toNat

/-- The multiple of `10 ^ k` in the interval that is nearest to the double. -/
def gridPoint? (i : Interval) (k : Int) : Option Nat :=
  -- all sides are multiplied so that they are whole numbers
  let scale := power 2 i.exponent * power 10 (-k)
  let unit := power 2 (-i.exponent) * power 10 k
  let low := i.low * scale
  let value := i.value * scale
  let high := i.high * scale
  let inside (x : Nat) : Bool := if i.closed then low ≤ x && x ≤ high else low < x && x < high
  let down := value / unit
  let up := down + 1
  match inside (down * unit), inside (up * unit) with
  | true, true =>
    let below := value - down * unit
    let above := up * unit - value
    if below < above || (below == above && down % 2 == 0) then some down else some up
  | true, false => some down
  | false, true => some up
  | false, false => none

/-- The first grid with a point in the interval, from `10 ^ (k - 1)` down to `10 ^ (k - n)`. -/
def search (i : Interval) : (n : Nat) → (k : Int) → Decimal
  | 0, _ => ⟨0, 0⟩
  | n + 1, k =>
    match gridPoint? i (k - 1) with
    | some d => ⟨d, k - 1⟩
    | none => search i n (k - 1)

end Shortest

/-- The shortest decimal of a positive double. On the grid of `10 ^ (-324)` every interval has a
point, so the search ends there at the latest. -/
def Decimal.ofParts (p : Parts) : Decimal :=
  let top := (decimal (shiftBy p.mantissa p.exponent)).length
  Shortest.search (Shortest.Interval.ofParts p) (top + 324) top

end Scriptlet
