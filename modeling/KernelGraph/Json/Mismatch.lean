import KernelGraph.Json.Printer
import KernelGraph.Text.Quoted

/-!
What can be wrong with a JSON text: it is malformed, or a value in it is not of the kind, range,
length or name that stands there. The wording of the latter is `Mismatch.message`.
-/

namespace KernelGraph

open Decimal

/-- What was found where something else was expected. -/
inductive Found where
  | null
  | bool (b : Bool)
  | number (n : Number)
  | text (s : String)
  | list
  | record
  | bareVariant
deriving DecidableEq

/-- A name between its marks. -/
def ticked (name : String) : String := "`" ++ name ++ "`"

namespace Found

def description : Found → String
  | .null => "null"
  | .bool b => "boolean " ++ ticked (if b then "true" else "false")
  | .number (.whole n) => "integer " ++ ticked (toString n)
  | .number n => "floating point " ++ ticked (String.ofList (Json.numberText n))
  | .text s => s!"string {Quoted.quote s}"
  | .list => "sequence"
  | .record => "map"
  | .bareVariant => "unit variant"

end Found

/-- A value that does not fit its place. -/
inductive Mismatch where
  | type (found : Found) (expected : String)
  | value (found : Found) (expected : String)
  | length (n : Nat) (expected : String)
  | missingField (field : String)
  | duplicateField (field : String)
  | unknownVariant (name : String) (names : List String)
  | noVariant (kind : String)
deriving DecidableEq

/-- A count with its noun. -/
def elements (n : Nat) : String := if n = 1 then "1 element" else s!"{n} elements"

namespace Mismatch

def message : Mismatch → String
  | .type found expected => s!"invalid type: {found.description}, expected {expected}"
  | .value found expected => s!"invalid value: {found.description}, expected {expected}"
  | .length n expected => s!"invalid length {n}, expected {expected}"
  | .missingField field => "missing field " ++ ticked field
  | .duplicateField field => "duplicate field " ++ ticked field
  | .unknownVariant name names =>
    s!"unknown variant {ticked name}, expected one of " ++ ", ".intercalate (names.map ticked)
  | .noVariant kind => s!"data did not match any variant of untagged enum {kind}"

end Mismatch

/-- Why a JSON text was not read. -/
inductive ReadError where
  | malformed
  | mismatch (m : Mismatch)
deriving DecidableEq

/-- An error in short: nothing is said of its place in the text, nor of what makes the text malformed.
A reader of JSON texts may tell both. -/
def ReadError.message : ReadError → String
  | malformed => "malformed JSON text"
  | mismatch m => m.message

end KernelGraph
