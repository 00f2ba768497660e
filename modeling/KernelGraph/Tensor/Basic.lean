import KernelGraph.Decimal.Notation

/-!
Constant tensors: a shape and the elements, in one flat list. Nothing is computed with them; they
are counted, described and passed on.
-/

namespace KernelGraph

open Decimal

inductive DType where
  | int8
  | uint8
  | int32
  | int64
  | float32
deriving DecidableEq

namespace DType

def all : List DType := [int8, uint8, int32, int64, float32]

/-- The name in a kernel graph. -/
def name : DType → String
  | int8 => "int8"
  | uint8 => "uint8"
  | int32 => "int32"
  | int64 => "int64"
  | float32 => "float32"

/-- The name in a document. -/
def shortName : DType → String
  | int8 => "i8"
  | uint8 => "u8"
  | int32 => "i32"
  | int64 => "i64"
  | float32 => "f32"

/-- The element type of either name. -/
def ofName? (name : String) : Option DType :=
  all.find? fun t => t.name = name || t.shortName = name

/-- A name that no element type has. -/
structure Unknown where
  name : String
deriving DecidableEq

def Unknown.message (e : Unknown) : String := s!"unsupported dtype {e.name}"

/-- The element type of a name, which must have one. -/
def parse (name : String) : Except Unknown DType :=
  match ofName? name with
  | some t => .ok t
  | none => .error ⟨name⟩

theorem ofName?_name (t : DType) : ofName? t.name = some t := by cases t <;> decide

theorem ofName?_shortName (t : DType) : ofName? t.shortName = some t := by cases t <;> decide

end DType

/-- The extents of a tensor, each of which fits a word. -/
abbrev Shape := List UInt64

/-- The text of a list in descriptions and messages. -/
def bracketed (items : List String) : String := "[" ++ ", ".intercalate items ++ "]"

namespace Shape

def description (shape : Shape) : String := bracketed (shape.map fun d => toString d.toNat)

/-- One more extent in a count of elements, as long as the count fits a word. -/
def extend? (count : Nat) (extent : UInt64) : Option Nat :=
  if count * extent.toNat < UInt64.size then some (count * extent.toNat) else none

/-- How many elements a tensor of this shape has, or `none` as soon as a product of leading extents
does not fit a word. -/
def count? (shape : Shape) : Option Nat := shape.foldlM extend? 1

end Shape

/-- The type of a variable. -/
structure TensorType where
  dtype : DType
  shape : Shape
deriving DecidableEq

/-- The element type and the extents, such as `int8[1, 3]`. -/
def TensorType.description (t : TensorType) : String := t.dtype.name ++ t.shape.description

/-- The elements of a tensor. -/
inductive Elements where
  | int8 (values : List Int8)
  | uint8 (values : List UInt8)
  | int32 (values : List Int32)
  | int64 (values : List Int64)
  | float32 (values : List Single)
deriving DecidableEq

namespace Elements

def dtype : Elements → DType
  | int8 _ => .int8
  | uint8 _ => .uint8
  | int32 _ => .int32
  | int64 _ => .int64
  | float32 _ => .float32

def length : Elements → Nat
  | int8 values => values.length
  | uint8 values => values.length
  | int32 values => values.length
  | int64 values => values.length
  | float32 values => values.length

def isEmpty (e : Elements) : Bool := e.length = 0

/-- The plain text of the first element. -/
def first? : Elements → Option String
  | int8 values => values.head?.map fun v => toString v.toInt
  | uint8 values => values.head?.map fun v => toString v.toNat
  | int32 values => values.head?.map fun v => toString v.toInt
  | int64 values => values.head?.map fun v => toString v.toInt
  | float32 values => values.head?.map Binary.plain

end Elements

/-- Why a shape and some elements make no tensor. -/
inductive TensorError where
  | overflow (shape : Shape)
  | count (shape : Shape) (expected actual : Nat)
deriving DecidableEq

namespace TensorError

def message : TensorError → String
  | .overflow shape => s!"shape {shape.description} overflows"
  | .count shape expected actual =>
    s!"constant of shape {shape.description} expects {expected} elements, got {actual}"

end TensorError

/-- A constant tensor. A scalar has no extents. -/
structure Tensor where
  shape : Shape
  elements : Elements
deriving DecidableEq

namespace Tensor

/-- The tensor of a shape and as many elements as the shape asks for. -/
def make (shape : Shape) (elements : Elements) : Except TensorError Tensor :=
  match shape.count? with
  | none => .error (.overflow shape)
  | some n =>
    if elements.length = n then .ok ⟨shape, elements⟩
    else .error (.count shape n elements.length)

def dtype (t : Tensor) : DType := t.elements.dtype

def isScalar (t : Tensor) : Bool := t.shape.isEmpty

def ofSingle (x : Single) : Tensor := ⟨[], .float32 [x]⟩

def ofInt32 (n : Int32) : Tensor := ⟨[], .int32 [n]⟩

/-- The value of a scalar, and the type of anything else. -/
def description (t : Tensor) : String :=
  match t.isScalar, t.elements.first? with
  | true, some value => value
  | _, _ => t.dtype.name ++ t.shape.description

end Tensor

end KernelGraph
