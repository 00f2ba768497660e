import KernelGraph.Decimal.Numeral

/-!
How a decimal of a JSON text becomes a number of 64 bits. As many digits as a word can hold are
rounded, and the number they make is multiplied or divided by a power of ten, which is a rounded
number itself. So there are three roundings, or more for the least numbers, and what comes out is not
always the number nearest to the decimal.
-/

namespace KernelGraph.Decimal

namespace Format

/-- The rank nearest to the product of the numbers at two finite ranks. -/
def product (fmt : Format) (a b : Nat) : Nat :=
  let (n, d) := dyadic (fmt.significand a * fmt.significand b) (fmt.exponent a + fmt.exponent b)
  fmt.round n d

/-- The rank nearest to the quotient of the numbers at two finite ranks, the second a positive one. -/
def quotient (fmt : Format) (a b : Nat) : Nat :=
  let (n, d) := dyadic (fmt.significand a) (fmt.exponent a - fmt.exponent b)
  fmt.round n (d * fmt.significand b)

end Format

/-- Appends digits to a word up to the first one that it has no room for. With the word that this
makes comes the count of the digits that were appended. -/
def keepDigits (word : Nat) : List Char → Nat × Nat
  | [] => (word, 0)
  | c :: cs =>
    let next := 10 * word + (c.toNat - '0'.toNat)
    if next < UInt64.size then
      let (word, count) := keepDigits next cs
      (word, count + 1)
    else (word, 0)

/-- The greatest power of ten that a number is multiplied or divided by at once. -/
def maxPower : Nat := 308

/-- The rank of a power of ten. -/
def tenPower (k : Nat) : Nat := Format.double.round (Nat.pow 10 k) 1

/-- The rank that `word * 10 ^ e` is read as. Past the greatest power of ten there is nothing but
infinity; below its inverse a number is divided twice, and what is left after two full steps is
zero. -/
def scaled (word : Nat) (e : Int) : Nat :=
  let x := Format.double.round word 1
  if word = 0 then 0
  else if maxPower < e then Format.double.infinity
  else if 0 ≤ e then Format.double.product x (tenPower e.toNat)
  else if -maxPower ≤ e then Format.double.quotient x (tenPower (-e).toNat)
  else
    let y := Format.double.quotient x (tenPower maxPower)
    if -2 * maxPower ≤ e then Format.double.quotient y (tenPower (-e - maxPower).toNat) else 0

namespace Numeral

/-- The word that holds the first digits, and the power of ten it counts. A digit before the point
that finds no room raises the power, one after it is dropped. -/
def kept (n : Numeral) : Nat × Int :=
  let (word, whole) := keepDigits 0 n.whole
  let (word, fraction) := keepDigits word n.fraction
  (word, n.power.getD 0 + (n.whole.length - whole : Nat) - fraction)

/-- The number of 64 bits that a numeral is read as, infinity if it is too large. -/
def toDouble (n : Numeral) : Double := .ofRank n.negative (scaled n.kept.1 n.kept.2)

end Numeral

end KernelGraph.Decimal
