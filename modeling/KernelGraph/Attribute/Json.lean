import KernelGraph.Attribute.Basic
import KernelGraph.Tensor.Json

/-!
Attributes in JSON text. A value is written without its kind and is read as the first kind that
fits, in the order in which the kinds are listed. So an element type reads back as the text of its
name, and an empty list as a list of integers. A set is written as a record, and reading one sorts
it by name.
-/

namespace KernelGraph

open Decimal

namespace AttrValue

def toJson : AttrValue → Json
  | bool b => .bool b
  | int n => .whole n.toInt
  | float x => .number (.double x)
  | text s => .text s
  | ints ns => .list (ns.map fun n => .whole n.toInt)
  | floats xs => .list (xs.map fun x => .number (.double x))
  | texts ss => .texts ss
  | grid rows => .list (rows.map fun row => .list (row.map fun n => .whole n.toInt))
  | dtype t => t.toJson

/-- A signed integer of 64 bits. -/
def intOf? : Json → Option Int64
  | .number (.whole n) =>
    if Int64.minValue.toInt ≤ n ∧ n ≤ Int64.maxValue.toInt then some (.ofInt n) else none
  | _ => none

def floatOf? : Json → Option Double
  | .number n => some n.toDouble
  | _ => none

def textOf? : Json → Option String
  | .text s => some s
  | _ => none

def listOf? {α : Type} (item : Json → Option α) : Json → Option (List α)
  | .list items => items.mapM item
  | _ => none

/-- The element type that stands alone in a record, with nothing under its name. -/
def dtypeOf? : Json → Option DType
  | .record [(name, .null)] => DType.variants.lookup name
  | _ => none

/-- The value as the first kind that fits. -/
def ofJson? (j : Json) : Option AttrValue :=
  match j with
  | .bool b => some (bool b)
  | .number _ => int <$> intOf? j <|> float <$> floatOf? j
  | .text s => some (text s)
  | .list _ =>
    ints <$> listOf? intOf? j <|> floats <$> listOf? floatOf? j <|> texts <$> listOf? textOf? j
      <|> grid <$> listOf? (listOf? intOf?) j
  | .record _ => dtype <$> dtypeOf? j
  | .null => none

/-- Reads a value that nests at most `depth` brackets. The whole value is taken in before a kind is
looked for. -/
def read (depth : Nat) (d : Draft) : Read AttrValue :=
  match d.toJson? depth with
  | none => malformed
  | some j =>
    match ofJson? j with
    | some v => .ok v
    | none => (Mismatch.noVariant "AttrValue").raise

/-- The value of a whole text. -/
def ofText (text : String) : Read AttrValue := Draft.readWhole (read maxDepth) text

end AttrValue

namespace Attributes

def toJson (as : Attributes) : Json :=
  .record (SortedTable.ofList (as.items.map fun (name, value) => (name, value.toJson)))

/-- Reads a set whose values nest at most `depth` brackets. The last value of a name counts. -/
def read (depth : Nat) : Draft → Read Attributes
  | .record fields closed => do
    let items ← fields.mapM fun (name, d) => do
      let name ← name.fieldName
      let value ← AttrValue.read depth d
      .ok (name, value)
    Draft.ensure closed
    .ok ⟨SortedTable.ofList items⟩
  | d => d.unfit "a map"

def toText (as : Attributes) : String := as.toJson.compact

/-- The set of a whole text. -/
def ofText (text : String) : Read Attributes := Draft.readWhole (read (maxDepth - 1)) text

end Attributes

end KernelGraph
