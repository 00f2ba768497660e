import KernelGraph.Decimal.Binary

/-!
Decimal numerals: a sign, digits with at most one point, and a power of ten. Reading takes the
longest numeral that the text starts with, and every reading is shorter than the text it came from.
-/

namespace KernelGraph.Decimal

/-- A numeral: its sign, the digits before the point and after it, and its power of ten. -/
structure Numeral where
  negative : Bool
  whole : List Char
  fraction : List Char
  power : Option Int
deriving DecidableEq

/-- The number that a run of decimal digits stands for. -/
def ofDigits (cs : List Char) : Nat := cs.foldl (fun n c => 10 * n + (c.toNat - '0'.toNat)) 0

/-- The leading digits of a text, of which there must be one, and what follows them. -/
def scanDigits? (cs : List Char) : Option (List Char × List Char) :=
  let ds := cs.takeWhile Char.isDigit
  if ds.isEmpty then none else some (ds, cs.dropWhile Char.isDigit)

theorem length_scanDigits?_lt {cs ds rest : List Char} (h : scanDigits? cs = some (ds, rest)) :
    rest.length < cs.length := by
  have total := congrArg List.length (List.takeWhile_append_dropWhile (p := Char.isDigit) (l := cs))
  simp only [List.length_append] at total
  simp only [scanDigits?, List.isEmpty_iff, Option.ite_none_left_eq_some, Option.some.injEq,
    Prod.mk.injEq] at h
  obtain ⟨hne, -, rfl⟩ := h
  have := List.length_pos_iff.2 hne
  omega

namespace Numeral

/-- The number that the digits stand for, without the point. -/
def digits (n : Numeral) : Nat := ofDigits (n.whole ++ n.fraction)

/-- The power of ten that the last digit counts. -/
def exponent (n : Numeral) : Int := n.power.getD 0 - n.fraction.length

/-- Whether a numeral has no point and no power of ten. -/
def bare (n : Numeral) : Bool := n.fraction.isEmpty && n.power.isNone

/-- The integer that a bare numeral stands for. -/
def toInt (n : Numeral) : Int := if n.negative then -n.digits else n.digits

/-- The number nearest to a numeral. -/
def toBinary {fmt : Format} (n : Numeral) : Binary fmt :=
  .ofScientific n.negative n.digits n.exponent

/-- The sign of a numeral and what follows it. -/
def scanSign : List Char → Bool × List Char
  | '-' :: cs => (true, cs)
  | cs => (false, cs)

/-- The digits before the point: at least one, and no zero before another digit. -/
def scanWhole? (cs : List Char) : Option (List Char × List Char) :=
  (scanDigits? cs).filter fun (ds, _) => ds.head? != some '0' || ds.length == 1

/-- The digits after the point, of which there is at least one if there is a point. -/
def scanFraction? : List Char → Option (List Char × List Char)
  | '.' :: cs => scanDigits? cs
  | cs => some ([], cs)

/-- The sign of a power of ten, which may be a plus, and what follows it. -/
def scanPowerSign : List Char → Bool × List Char
  | '-' :: cs => (true, cs)
  | '+' :: cs => (false, cs)
  | cs => (false, cs)

/-- The power of ten, if the text goes on with one: `e`, a sign or none, and at least one digit. -/
def scanPower? : List Char → Option (Option Int × List Char)
  | [] => some (none, [])
  | c :: cs =>
    if c = 'e' ∨ c = 'E' then
      (scanDigits? (scanPowerSign cs).2).map fun (ds, rest) =>
        (some (if (scanPowerSign cs).1 then -(ofDigits ds : Int) else ofDigits ds), rest)
    else some (none, c :: cs)

/-- The numeral at the start of a text and what follows it; `none` if what stands there starts like
a numeral but breaks off, or is none at all. -/
def scan? (cs : List Char) : Option (Numeral × List Char) := do
  let (negative, cs) := scanSign cs
  let (whole, cs) ← scanWhole? cs
  let (fraction, cs) ← scanFraction? cs
  let (power, cs) ← scanPower? cs
  some (⟨negative, whole, fraction, power⟩, cs)

theorem length_scanSign_le (cs : List Char) : (scanSign cs).2.length ≤ cs.length := by
  unfold scanSign; split <;> simp

theorem length_scanPowerSign_le (cs : List Char) : (scanPowerSign cs).2.length ≤ cs.length := by
  unfold scanPowerSign; split <;> simp

theorem length_scanWhole?_lt {cs ds rest : List Char} (h : scanWhole? cs = some (ds, rest)) :
    rest.length < cs.length := by
  rw [scanWhole?, Option.filter_eq_some_iff] at h
  exact length_scanDigits?_lt h.1

theorem length_scanFraction?_le {cs ds rest : List Char} (h : scanFraction? cs = some (ds, rest)) :
    rest.length ≤ cs.length := by
  unfold scanFraction? at h
  split at h
  · have := length_scanDigits?_lt h
    simp only [List.length_cons]
    omega
  · simp_all

theorem length_scanPower?_le {cs rest : List Char} {e : Option Int}
    (h : scanPower? cs = some (e, rest)) : rest.length ≤ cs.length := by
  cases cs with
  | nil => simp_all [scanPower?]
  | cons c cs =>
    rw [scanPower?] at h
    split at h
    · obtain ⟨⟨ds, r⟩, hd, hr⟩ := Option.map_eq_some_iff.1 h
      have h1 := length_scanPowerSign_le cs
      have h2 := length_scanDigits?_lt hd
      simp only [Prod.mk.injEq] at hr
      obtain ⟨-, rfl⟩ := hr
      simp only [List.length_cons]
      omega
    · simp_all

/-- Reading a numeral uses up at least one character. -/
theorem length_scan?_lt {cs rest : List Char} {n : Numeral} (h : scan? cs = some (n, rest)) :
    rest.length < cs.length := by
  simp only [scan?, Option.bind_eq_bind, Option.bind_eq_some_iff, Prod.exists, Option.some.injEq,
    Prod.mk.injEq] at h
  obtain ⟨whole, a, hw, fraction, b, hf, power, c, hp, -, rfl⟩ := h
  have h0 := length_scanSign_le cs
  have h1 := length_scanWhole?_lt hw
  have h2 := length_scanFraction?_le hf
  have h3 := length_scanPower?_le hp
  omega

end Numeral

/-- The number that a whole text stands for: a numeral, `NaN`, `inf` or `-inf`. -/
def Binary.ofText? {fmt : Format} (text : String) : Option (Binary fmt) :=
  match text with
  | "NaN" => some .nan
  | "inf" => some (.infinite false)
  | "-inf" => some (.infinite true)
  | _ =>
    match Numeral.scan? text.toList with
    | some (n, []) => some n.toBinary
    | _ => none

end KernelGraph.Decimal
