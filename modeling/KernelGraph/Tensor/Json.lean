import KernelGraph.Json.Reader
import KernelGraph.Tensor.Basic

/-!
Tensors and their types in JSON text. Elements stand under the short name of their type.
-/

namespace KernelGraph

open Decimal

namespace DType

/-- The element types under the names by which they are read. -/
def variants : List (String × DType) := all.map fun t => (t.shortName, t)

def toJson (t : DType) : Json := .text t.shortName

def read (pass : Pass) : Draft → Read DType :=
  Draft.readVariant pass variants fun t held => do
    Draft.readNothing pass held
    .ok t

end DType

namespace Shape

def toJson (shape : Shape) : Json := .list (shape.map fun d => .whole d.toNat)

def read (d : Draft) : Read Shape :=
  d.readList fun d => do .ok (UInt64.ofNat (← d.readSize))

end Shape

namespace TensorType

def toJson (t : TensorType) : Json := .record [("dtype", t.dtype.toJson), ("shape", t.shape.toJson)]

def fields : Draft.Fields := ⟨"struct TensorType", [("dtype", true), ("shape", true)]⟩

/-- The fields read so far. -/
structure Slots where
  dtype : Option DType
  shape : Option Shape

def readField (pass : Pass) (slots : Slots) (field : String) (d : Draft) : Read Slots :=
  match field with
  | "dtype" => do .ok { slots with dtype := ← Draft.fill field slots.dtype (DType.read pass d) }
  | "shape" => do .ok { slots with shape := ← Draft.fill field slots.shape (Shape.read d) }
  | _ => .ok slots

def read (pass : Pass) (d : Draft) : Read TensorType := do
  let slots ← fields.read pass (readField pass) ⟨none, none⟩ d
  let dtype ← Draft.need "dtype" slots.dtype
  let shape ← Draft.need "shape" slots.shape
  .ok ⟨dtype, shape⟩

end TensorType

namespace Elements

def toJson (e : Elements) : Json :=
  .record [(e.dtype.shortName, .list <|
    match e with
    | int8 values => values.map fun v => .whole v.toInt
    | uint8 values => values.map fun v => .whole v.toNat
    | int32 values => values.map fun v => .whole v.toInt
    | int64 values => values.map fun v => .whole v.toInt
    | float32 values => values.map fun v => .number (.single v))]

/-- Reads elements of the type `t`. -/
def readOf (t : DType) (d : Draft) : Read Elements :=
  match t with
  | .int8 => int8 <$> d.readList fun d => Int8.ofInt <$>
    d.readInt "i8" Int8.minValue.toInt Int8.maxValue.toInt
  | .uint8 => uint8 <$> d.readList fun d => (UInt8.ofNat ·.toNat) <$>
    d.readInt "u8" 0 (UInt8.size - 1)
  | .int32 => int32 <$> d.readList fun d => Int32.ofInt <$>
    d.readInt "i32" Int32.minValue.toInt Int32.maxValue.toInt
  | .int64 => int64 <$> d.readList fun d => Int64.ofInt <$>
    d.readInt "i64" Int64.minValue.toInt Int64.maxValue.toInt
  | .float32 => float32 <$> d.readList Draft.readSingle

def read (pass : Pass) : Draft → Read Elements :=
  Draft.readVariant pass DType.variants fun t held => Draft.readHeld (readOf t) held

end Elements

namespace Tensor

def toJson (t : Tensor) : Json :=
  .record [("shape", t.shape.toJson), ("data", t.elements.toJson)]

def fields : Draft.Fields := ⟨"struct ConstTensor", [("shape", true), ("data", true)]⟩

/-- The fields read so far. -/
structure Slots where
  shape : Option Shape
  elements : Option Elements

def readField (pass : Pass) (slots : Slots) (field : String) (d : Draft) : Read Slots :=
  match field with
  | "shape" => do .ok { slots with shape := ← Draft.fill field slots.shape (Shape.read d) }
  | "data" => do .ok { slots with elements := ← Draft.fill field slots.elements (Elements.read pass d) }
  | _ => .ok slots

/-- Reads a shape and elements, which need not fit each other. -/
def read (pass : Pass) (d : Draft) : Read Tensor := do
  let slots ← fields.read pass (readField pass) ⟨none, none⟩ d
  let shape ← Draft.need "shape" slots.shape
  let elements ← Draft.need "data" slots.elements
  .ok ⟨shape, elements⟩

end Tensor

end KernelGraph
