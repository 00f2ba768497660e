/-!
The primitive operators that a fused body may hold. An expression may call operators of any other
name too; those are lowered as they are.
-/

namespace KernelGraph

inductive Operator where
  | conv2d
  | qnnConv2d
  | dense
  | qnnDense
  | biasAdd
  | add
  | requantize
  | pad
  | quantize
  | dequantize
  | softmax
  | sigmoid
  | cast
  | avgPool2d
  | maxPool2d
deriving DecidableEq

namespace Operator

def all : List Operator :=
  [conv2d, qnnConv2d, dense, qnnDense, biasAdd, add, requantize, pad, quantize, dequantize, softmax,
    sigmoid, cast, avgPool2d, maxPool2d]

/-- The name under which an expression calls the operator. -/
def name : Operator → String
  | conv2d => "nn.conv2d"
  | qnnConv2d => "qnn.conv2d"
  | dense => "nn.dense"
  | qnnDense => "qnn.dense"
  | biasAdd => "nn.bias_add"
  | add => "add"
  | requantize => "qnn.requantize"
  | pad => "nn.pad"
  | quantize => "qnn.quantize"
  | dequantize => "qnn.dequantize"
  | softmax => "nn.softmax"
  | sigmoid => "sigmoid"
  | cast => "cast"
  | avgPool2d => "nn.avg_pool2d"
  | maxPool2d => "nn.max_pool2d"

/-- The operator of a name. -/
def ofName? (name : String) : Option Operator := all.find? (·.name = name)

/-- A name that no operator has. -/
structure Unknown where
  name : String
deriving DecidableEq

def Unknown.message (e : Unknown) : String := s!"unsupported op {e.name}"

/-- The operator of a name, which must have one. -/
def parse (name : String) : Except Unknown Operator :=
  match ofName? name with
  | some op => .ok op
  | none => .error ⟨name⟩

theorem mem_all (op : Operator) : op ∈ all := by cases op <;> decide

theorem ofName?_name (op : Operator) : ofName? op.name = some op := by cases op <;> decide

theorem ofName?_eq_some_iff {name : String} {op : Operator} :
    ofName? name = some op ↔ op.name = name := by
  constructor
  · intro h
    simpa using List.find?_some h
  · rintro rfl
    exact ofName?_name op

theorem name_injective {a b : Operator} (h : a.name = b.name) : a = b :=
  Option.some.inj (by rw [← ofName?_name a, h, ofName?_name])

end Operator

end KernelGraph
