import KernelGraph.Decimal.Binary

/-!
The shortest decimal that reads back as a given binary number.

The reals that round to a finite positive number form an interval, closed when the significand is
even and open when it is odd. Among the multiples of a power of ten only the value's two neighbours
need a test: the coarsest grid with a neighbour in the interval gives the digits, and of two such
neighbours the nearer one is taken.
-/

namespace KernelGraph.Decimal

/-- Which of two equally near decimals is taken. -/
inductive Tie where
  | even
  | up
deriving DecidableEq

/-- The reals that round to a number of value `value / unit`, with both ends over the same unit. -/
structure Interval where
  low : Nat
  value : Nat
  high : Nat
  unit : Nat
  closed : Bool

namespace Interval

/-- The interval of a positive finite rank. The neighbour below is half a step nearer where the
significand is the least one of its exponent. -/
def ofRank (fmt : Format) (rank : Nat) : Interval :=
  let m := fmt.significand rank
  let near := m = fmt.unit ∧ fmt.steps rank ≠ 0
  let (scale, unit) := dyadic 1 (fmt.exponent rank - 2)
  { low := (4 * m - if near then 1 else 2) * scale
    value := 4 * m * scale
    high := (4 * m + 2) * scale
    unit := unit
    closed := m % 2 = 0 }

/-- Whether `n / d` lies in the interval. -/
def contains (i : Interval) (n d : Nat) : Bool :=
  let x := n * i.unit
  if i.closed then i.low * d ≤ x && x ≤ i.high * d else i.low * d < x && x < i.high * d

/-- The multiple of `10 ^ g` nearest to the value, if one of its two neighbours is in the interval. -/
def hit? (tie : Tie) (i : Interval) (g : Int) : Option Nat :=
  let n := if 0 ≤ g then Nat.pow 10 g.toNat else 1
  let d := if 0 ≤ g then 1 else Nat.pow 10 (-g).toNat
  let below := i.value * d / (n * i.unit)
  let rest := i.value * d % (n * i.unit)
  match i.contains (below * n) d, i.contains ((below + 1) * n) d with
  | false, false => none
  | true, false => some below
  | false, true => some (below + 1)
  | true, true =>
    if 2 * rest < n * i.unit then some below
    else if n * i.unit < 2 * rest then some (below + 1)
    else match tie with
      | .even => some (below + below % 2)
      | .up => some (below + 1)

end Interval

/-- The shortest decimal of a positive finite rank: its digits and the power of ten they count. The
search starts at a power of ten past the interval and needs at most one grid per bit. -/
def shortest (tie : Tie) (fmt : Format) (rank : Nat) : Nat × Int :=
  let i := Interval.ofRank fmt rank
  let top := (floorLog2 i.value i.unit + 2) * 30103 / 100000 + 1
  let grids := (List.range (fmt.precision + 4)).map fun k => top - (k : Nat)
  (grids.findSome? fun g => (i.hit? tie g).map (·, g)).getD (0, 0)

end KernelGraph.Decimal
