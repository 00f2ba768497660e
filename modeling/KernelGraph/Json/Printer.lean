import KernelGraph.Decimal.Notation
import KernelGraph.Json.Basic

/-!
JSON text. The compact and the indented form are one printer with two records of blanks: the text of
a value differs between them in nothing else.
-/

namespace KernelGraph

open Decimal

/-- Sixteen digits for the code of a control character. -/
def hexDigit (n : Nat) : Char := (Nat.digitChar n)

namespace Json

/-- How a character stands inside a string: quotes, backslashes and control characters are escaped,
all others stand for themselves. -/
def escape (c : Char) : List Char :=
  match c with
  | '"' => ['\\', '"']
  | '\\' => ['\\', '\\']
  | '\x08' => ['\\', 'b']
  | '\x0c' => ['\\', 'f']
  | '\n' => ['\\', 'n']
  | '\r' => ['\\', 'r']
  | '\t' => ['\\', 't']
  | c =>
    if c.toNat < 32 then ['\\', 'u', '0', '0', hexDigit (c.toNat / 16), hexDigit (c.toNat % 16)]
    else [c]

/-- A string between its quotes. -/
def quote (s : String) : List Char := '"' :: s.toList.flatMap escape ++ ['"']

/-- The text of a number. -/
def numberText : Number → List Char
  | .whole n => (toString n).toList
  | .double x => Style.jsonDouble.write x
  | .single x => Style.jsonSingle.write x

/-- The blanks of a printed form: what starts a new line at a depth, and what follows a colon. -/
structure Blanks where
  line : Nat → List Char
  gap : List Char

/-- No blanks at all. -/
def Blanks.compact : Blanks := ⟨fun _ => [], []⟩

/-- Each item and each field on a line of its own, two blanks deeper than its bracket. -/
def Blanks.indented : Blanks := ⟨fun depth => '\n' :: List.replicate (2 * depth) ' ', [' ']⟩

mutual

/-- The text of a value at a depth. An empty bracket stays on its line. -/
def print (blanks : Blanks) (depth : Nat) : Json → List Char
  | .null => "null".toList
  | .bool true => "true".toList
  | .bool false => "false".toList
  | .number n => numberText n
  | .text s => quote s
  | .list [] => ['[', ']']
  | .list (item :: items) =>
    '[' :: blanks.line (depth + 1) ++ item.print blanks (depth + 1)
      ++ printItems blanks (depth + 1) items ++ blanks.line depth ++ [']']
  | .record [] => [ '{', '}' ]
  | .record ((name, value) :: fields) =>
    '{' :: blanks.line (depth + 1) ++ quote name ++ ':' :: blanks.gap ++ value.print blanks (depth + 1)
      ++ printFields blanks (depth + 1) fields ++ blanks.line depth ++ ['}']

/-- The items after the first one, each after a comma. -/
def printItems (blanks : Blanks) (depth : Nat) : List Json → List Char
  | [] => []
  | item :: items =>
    ',' :: blanks.line depth ++ item.print blanks depth ++ printItems blanks depth items

/-- The fields after the first one, each after a comma. -/
def printFields (blanks : Blanks) (depth : Nat) : List (String × Json) → List Char
  | [] => []
  | (name, value) :: fields =>
    ',' :: blanks.line depth ++ quote name ++ ':' :: blanks.gap ++ value.print blanks depth
      ++ printFields blanks depth fields

end

/-- The value on one line, without blanks. -/
def compact (j : Json) : String := .ofList (j.print .compact 0)

/-- The value on indented lines. -/
def pretty (j : Json) : String := .ofList (j.print .indented 0)

/-- The value in one of the two forms. -/
def toText (indented : Bool) (j : Json) : String := if indented then j.pretty else j.compact

end Json

end KernelGraph
