import KernelGraph.Decimal.Binary
import KernelGraph.SortedTable

/-!
JSON values. The fields of a record stay as they were written, in their order and with repeated
names; `Json.canonical` gives the form in which the fields are sorted, the last of a repeated name
counts, and every number that is not an integer has 64 bits.
-/

namespace KernelGraph

open Decimal

/-- A number of a JSON text: an integer of at most 64 bits with or without a sign, or a
floating-point number. Elements of 32 bits keep their own, shorter digits. -/
inductive Number where
  | whole (n : Int)
  | double (x : Double)
  | single (x : Single)
deriving DecidableEq

inductive Json where
  | null
  | bool (b : Bool)
  | number (n : Number)
  | text (s : String)
  | list (items : List Json)
  | record (fields : List (String × Json))
deriving Inhabited

namespace Json

def whole (n : Int) : Json := .number (.whole n)

def texts (items : List String) : Json := .list (items.map .text)

/-- A number in its canonical form. JSON has no number that is not finite. -/
def ofNumber : Number → Json
  | .whole n => whole n
  | .double x => if x.isFinite then .number (.double x) else .null
  | .single x => if x.isFinite then .number (.double x.widen) else .null

mutual

/-- The value with sorted fields, the last of each name, and numbers of 64 bits. -/
def canonical : Json → Json
  | .null => .null
  | .bool b => .bool b
  | .number n => ofNumber n
  | .text s => .text s
  | .list items => .list (canonicalItems items)
  | .record fields => .record (SortedTable.ofList (canonicalFields fields))

def canonicalItems : List Json → List Json
  | [] => []
  | item :: items => item.canonical :: canonicalItems items

def canonicalFields : List (String × Json) → List (String × Json)
  | [] => []
  | (name, value) :: fields => (name, value.canonical) :: canonicalFields fields

end

theorem canonicalItems_eq_map (items : List Json) : canonicalItems items = items.map canonical := by
  induction items with
  | nil => rfl
  | cons item items ih => rw [canonicalItems, ih, List.map_cons]

theorem canonicalFields_eq_map (fields : List (String × Json)) :
    canonicalFields fields = fields.map fun (name, value) => (name, value.canonical) := by
  induction fields with
  | nil => rfl
  | cons field fields ih => rw [canonicalFields, ih, List.map_cons]

end Json

end KernelGraph
