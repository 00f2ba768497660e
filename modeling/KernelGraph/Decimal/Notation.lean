import KernelGraph.Decimal.Shortest

/-!
How a floating-point number is written: its shortest digits, laid out by a record of choices. Three
such records are used: the two of JSON numbers and the one of plain text.
-/

namespace KernelGraph.Decimal

/-- The choices of a format of numbers. -/
structure Style where
  /-- Which of two equally near shortest decimals is written. -/
  tie : Tie
  /-- The exponents of the first digit for which no power of ten is written. -/
  positional : Int → Bool
  /-- Whether a whole number written without a power of ten ends in `.0`. -/
  point : Bool
  /-- What is written for a number that is none. -/
  nan : String
  /-- What is written for an infinity, its sign apart; `none` if it is written as no number is. -/
  infinity : Option String

namespace Style

/-- Numbers of 64 bits in JSON text. JSON has no word for what is not finite. -/
def jsonDouble : Style := ⟨.even, fun e => -5 ≤ e && e < 16, true, "null", none⟩

/-- Numbers of 32 bits in JSON text. -/
def jsonSingle : Style := ⟨.even, fun e => -6 ≤ e && e < 13, true, "null", none⟩

/-- Plain text never has a power of ten and marks no whole number. -/
def plain : Style := ⟨.up, fun _ => true, false, "NaN", some "inf"⟩

/-- The digits written out at their place. -/
def spread (style : Style) (digits : List Char) (grid first : Int) : List Char :=
  if 0 ≤ grid then
    digits ++ List.replicate grid.toNat '0' ++ (if style.point then ['.', '0'] else [])
  else if 0 ≤ first then
    digits.take (first + 1).toNat ++ '.' :: digits.drop (first + 1).toNat
  else
    '0' :: '.' :: (List.replicate (-first - 1).toNat '0' ++ digits)

/-- One digit, a point before the others, and the power of ten with its sign. -/
def scientific (digits : List Char) (first : Int) : List Char :=
  let rest := digits.drop 1
  digits.take 1 ++ (if rest.isEmpty then [] else '.' :: rest)
    ++ 'e' :: (if first < 0 then '-' else '+') :: Nat.toDigits 10 first.natAbs

/-- The text of a finite rank. -/
def magnitude (style : Style) (fmt : Format) (rank : Nat) : List Char :=
  if rank = 0 then '0' :: (if style.point then ['.', '0'] else [])
  else
    let (n, grid) := shortest style.tie fmt rank
    let digits := Nat.toDigits 10 n
    let first := grid + digits.length - 1
    if style.positional first then style.spread digits grid first else scientific digits first

/-- The text of a number. -/
def write (style : Style) {fmt : Format} : Binary fmt → List Char
  | .nan => style.nan.toList
  | .signed negative rank =>
    let sign := if negative then ['-'] else []
    if rank.val = fmt.infinity then
      match style.infinity with
      | some word => sign ++ word.toList
      | none => style.nan.toList
    else sign ++ style.magnitude fmt rank

end Style

/-- The plain text of a number. -/
def Binary.plain {fmt : Format} (x : Binary fmt) : String := .ofList (Style.plain.write x)

end KernelGraph.Decimal
