import KernelGraph.Decimal.Numeral

/-!
The tokens of a JSON text. Splitting never fails: where the text holds no token, the token `unknown`
ends the list. A string whose characters are all well formed is a token even if its escapes name
half of a surrogate pair; it then has no value.
-/

namespace KernelGraph

open Decimal

inductive Token where
  | openList
  | closeList
  | openRecord
  | closeRecord
  | comma
  | colon
  | null
  | bool (b : Bool)
  | number (n : Numeral)
  | text (value : Option String)
  | unknown
deriving DecidableEq

namespace Token

/-- The value of a hexadecimal digit. -/
def hexValue? (c : Char) : Option Nat :=
  if c.isDigit then some (c.toNat - '0'.toNat)
  else if 'a' ≤ c ∧ c ≤ 'f' then some (c.toNat - 'a'.toNat + 10)
  else if 'A' ≤ c ∧ c ≤ 'F' then some (c.toNat - 'A'.toNat + 10)
  else none

/-- The code that four hexadecimal digits write. -/
def code? (a b c d : Char) : Option Nat := do
  some (((← hexValue? a) * 16 + (← hexValue? b)) * 256 + (← hexValue? c) * 16 + (← hexValue? d))

/-- The character that a backslash and this letter stand for. -/
def unescape? : Char → Option Char
  | '"' => some '"'
  | '\\' => some '\\'
  | '/' => some '/'
  | 'b' => some '\x08'
  | 'f' => some '\x0c'
  | 'n' => some '\n'
  | 'r' => some '\r'
  | 't' => some '\t'
  | _ => none

/-- One element of a string's text: a character, or a 16-bit code that was written out. -/
inductive Piece where
  | char (c : Char)
  | code (n : Nat)
deriving DecidableEq

/-- The pieces up to the closing quote and what follows it. Control characters and unknown escapes
make the text no string. -/
def scanText? : List Char → Option (List Piece × List Char)
  | [] => none
  | '"' :: cs => some ([], cs)
  | '\\' :: 'u' :: a :: b :: c :: d :: cs => do
    let n ← code? a b c d
    let (pieces, rest) ← scanText? cs
    some (.code n :: pieces, rest)
  | '\\' :: c :: cs => do
    let x ← unescape? c
    let (pieces, rest) ← scanText? cs
    some (.char x :: pieces, rest)
  | c :: cs =>
    if c.toNat < 32 ∨ c = '\\' then none
    else do
      let (pieces, rest) ← scanText? cs
      some (.char c :: pieces, rest)

/-- The characters of a string. The codes of a surrogate pair make one character, and one half of a
pair makes none. -/
def decode? : List Piece → Option (List Char)
  | [] => some []
  | .char c :: pieces => (c :: ·) <$> decode? pieces
  | .code hi :: .code lo :: pieces =>
    if 0xD800 ≤ hi ∧ hi < 0xDC00 then
      if 0xDC00 ≤ lo ∧ lo < 0xE000 then
        (Char.ofNat (0x10000 + (hi - 0xD800) * 0x400 + (lo - 0xDC00)) :: ·) <$> decode? pieces
      else none
    else if 0xDC00 ≤ hi ∧ hi < 0xE000 then none
    else (Char.ofNat hi :: ·) <$> decode? (.code lo :: pieces)
  | .code n :: pieces =>
    if 0xD800 ≤ n ∧ n < 0xE000 then none else (Char.ofNat n :: ·) <$> decode? pieces

theorem length_scanText?_lt {cs rest : List Char} {pieces : List Piece}
    (h : scanText? cs = some (pieces, rest)) : rest.length < cs.length := by
  fun_induction scanText? cs generalizing pieces with
  | case1 => simp at h
  | case2 cs => simp_all
  | case3 a b c d cs ih =>
    simp only [Option.bind_eq_bind, Option.bind_eq_some_iff, Prod.exists, Option.some.injEq,
      Prod.mk.injEq] at h
    obtain ⟨_, -, _, _, h, -, rfl⟩ := h
    have := ih h
    simp only [List.length_cons]
    omega
  | case4 c cs _ ih =>
    simp only [Option.bind_eq_bind, Option.bind_eq_some_iff, Prod.exists, Option.some.injEq,
      Prod.mk.injEq] at h
    obtain ⟨_, -, _, _, h, -, rfl⟩ := h
    have := ih h
    simp only [List.length_cons]
    omega
  | case5 => simp at h
  | case6 c cs _ _ _ _ ih =>
    simp only [Option.bind_eq_bind, Option.bind_eq_some_iff, Prod.exists, Option.some.injEq,
      Prod.mk.injEq] at h
    obtain ⟨_, _, h, -, rfl⟩ := h
    have := ih h
    simp only [List.length_cons]
    omega

/-- The blanks that may stand between tokens. -/
def isBlank (c : Char) : Bool := c = ' ' || c = '\n' || c = '\t' || c = '\r'

/-- The token that starts with the character `c`, where `cs` follows it, and the rest of the text. -/
def next (c : Char) (cs : List Char) : Token × List Char :=
  match c, cs with
  | '[', cs => (openList, cs)
  | ']', cs => (closeList, cs)
  | '{', cs => (openRecord, cs)
  | '}', cs => (closeRecord, cs)
  | ',', cs => (comma, cs)
  | ':', cs => (colon, cs)
  | 'n', 'u' :: 'l' :: 'l' :: cs => (null, cs)
  | 't', 'r' :: 'u' :: 'e' :: cs => (bool true, cs)
  | 'f', 'a' :: 'l' :: 's' :: 'e' :: cs => (bool false, cs)
  | '"', cs =>
    match scanText? cs with
    | some (pieces, rest) => (text ((decode? pieces).map .ofList), rest)
    | none => (unknown, [])
  | c, cs =>
    match Numeral.scan? (c :: cs) with
    | some (n, rest) => (number n, rest)
    | none => (unknown, [])

theorem length_next_le (c : Char) (cs : List Char) : (next c cs).2.length ≤ cs.length := by
  unfold next
  split
  case h_10 =>
    split
    · rename_i heq
      exact Nat.le_of_lt (length_scanText?_lt heq)
    · simp
  case h_11 =>
    split
    · rename_i heq
      exact Nat.le_of_lt_succ (Numeral.length_scan?_lt heq)
    · simp
  all_goals simp only [List.length_cons]; omega

/-- The tokens of a text, in order. -/
def ofChars : List Char → List Token
  | [] => []
  | c :: cs => if isBlank c then ofChars cs else (next c cs).1 :: ofChars (next c cs).2
termination_by cs => cs.length
decreasing_by
  · simp
  · have := length_next_le c cs
    simp only [List.length_cons]
    omega

end Token

end KernelGraph
