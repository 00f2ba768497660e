/-!
Binary floating-point numbers, without the machine's own arithmetic.

The nonnegative numbers of a format, infinity included, stand in ascending order, and a number is
known by its sign and its place in that order, its rank. Every rank is a number and no number has
two ranks, so the type needs no side condition. The value of a finite rank is its significand times
a power of two, and a quotient of naturals is rounded to the nearest rank, a tie going to the even
one.
-/

namespace KernelGraph.Decimal

/-- A binary format: how many bits a significand has, the exponent of the least positive number, and
how many exponents come before infinity (those of the subnormal numbers counted apart). -/
structure Format where
  precision : Nat
  least : Int
  exponents : Nat
deriving DecidableEq

namespace Format

/-- The format of 32-bit elements. -/
def single : Format := ⟨24, -149, 255⟩

/-- The format of 64-bit attributes. -/
def double : Format := ⟨53, -1074, 2047⟩

/-- The least significand that has all its bits, and so the count of ranks that share an exponent. -/
def unit (fmt : Format) : Nat := Nat.pow 2 (fmt.precision - 1)

/-- The rank of infinity, which is the last one. -/
def infinity (fmt : Format) : Nat := fmt.exponents * fmt.unit

/-- How many exponents lie above the least one at this rank. -/
def steps (fmt : Format) (rank : Nat) : Nat := rank / fmt.unit - 1

/-- The integer part of a rank's value. -/
def significand (fmt : Format) (rank : Nat) : Nat := rank - fmt.steps rank * fmt.unit

/-- The power of two that a rank's significand counts. -/
def exponent (fmt : Format) (rank : Nat) : Int := fmt.least + fmt.steps rank

end Format

/-- The numerator and the denominator of `n * 2 ^ e`. -/
def dyadic (n : Nat) (e : Int) : Nat × Nat :=
  if 0 ≤ e then (n * Nat.pow 2 e.toNat, 1) else (n, Nat.pow 2 (-e).toNat)

/-- The natural number nearest to `n / d`, the even one of two. -/
def roundHalfEven (n d : Nat) : Nat :=
  let q := n / d
  let r := n % d
  if 2 * r < d then q else if d < 2 * r then q + 1 else q + q % 2

/-- The greatest `k` with `2 ^ k ≤ n / d`, for positive `n` and `d`. -/
def floorLog2 (n d : Nat) : Int :=
  let k : Int := n.log2 - d.log2
  let (low, one) := dyadic d k
  if low ≤ n * one then k else k - 1

/-- The rank nearest to `n / d`. A value past the last finite one has the rank of infinity. -/
def Format.round (fmt : Format) (n d : Nat) : Nat :=
  if n = 0 then 0
  else
    let e := max fmt.least (floorLog2 n d - (fmt.precision - 1 : Nat))
    let (scale, one) := dyadic d e
    min fmt.infinity ((e - fmt.least).toNat * fmt.unit + roundHalfEven (n * one) scale)

/-- A number of the format `fmt`. -/
inductive Binary (fmt : Format) where
  | nan
  | signed (negative : Bool) (rank : Fin (fmt.infinity + 1))
deriving DecidableEq

/-- A 32-bit number. -/
abbrev Single := Binary .single

/-- A 64-bit number. -/
abbrev Double := Binary .double

namespace Binary

variable {fmt : Format}

instance : Inhabited (Binary fmt) := ⟨.nan⟩

/-- The number of a sign and a rank, where a rank past the last one means infinity. -/
def ofRank (negative : Bool) (rank : Nat) : Binary fmt :=
  .signed negative ⟨min fmt.infinity rank, Nat.lt_succ_of_le (Nat.min_le_left _ _)⟩

def infinite (negative : Bool) : Binary fmt := ofRank negative fmt.infinity

def isFinite : Binary fmt → Bool
  | .nan => false
  | .signed _ rank => rank.val != fmt.infinity

/-- The nearest number to `n / d` with the given sign. -/
def ofRatio (negative : Bool) (n d : Nat) : Binary fmt := ofRank negative (fmt.round n d)

/-- The nearest number to an integer. -/
def ofInt (n : Int) : Binary fmt := ofRatio (n < 0) n.natAbs 1

/-- The nearest number to `digits * 10 ^ e`. Since `2 ^ 3 < 10`, the two comparisons of binary
exponents settle the values far outside the format before a power of ten is computed. -/
def ofScientific (negative : Bool) (digits : Nat) (e : Int) : Binary fmt :=
  if digits = 0 then ofRank negative 0
  else if 0 ≤ e then
    if fmt.least + fmt.exponents + fmt.precision ≤ digits.log2 + 3 * e then infinite negative
    else ofRatio negative (digits * Nat.pow 10 e.toNat) 1
  else if digits.log2 + 3 * e + 2 < fmt.least then ofRank negative 0
  else ofRatio negative digits (Nat.pow 10 (-e).toNat)

/-- The nearest number of another format. -/
def convert {target : Format} : Binary fmt → Binary target
  | .nan => .nan
  | .signed negative rank =>
    if rank.val = fmt.infinity then infinite negative
    else
      let (n, d) := dyadic (fmt.significand rank) (fmt.exponent rank)
      ofRatio negative n d

/-- A 32-bit number as a 64-bit one, which changes no value. -/
def widen (x : Single) : Double := x.convert

/-- The 32-bit number nearest to a 64-bit one. -/
def narrow (x : Double) : Single := x.convert

end Binary

end KernelGraph.Decimal
