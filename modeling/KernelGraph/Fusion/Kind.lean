import KernelGraph.Operator

/-!
The fused operations: functions that stand for one kernel and say so by name. The kinds that are
matched and lowered alike form a family.
-/

namespace KernelGraph

inductive Family where
  | convolution
  | dense
  | qnnSoftmax
  | qnnSigmoid
  | qnnAvgPool
  | pool
deriving DecidableEq

/-- The family as messages name it. -/
def Family.name : Family → String
  | convolution => "convolution"
  | dense => "dense"
  | qnnSoftmax => "quantized softmax"
  | qnnSigmoid => "quantized sigmoid"
  | qnnAvgPool => "quantized avg pool"
  | pool => "pool"

inductive FusedKind where
  | dense
  | qnnDense
  | conv2d
  | qnnConv2d
  | qnnSoftmax
  | qnnSigmoid
  | qnnAvgPool2d
  | avgPool2d
  | maxPool2d
deriving DecidableEq

namespace FusedKind

def all : List FusedKind :=
  [dense, qnnDense, conv2d, qnnConv2d, qnnSoftmax, qnnSigmoid, qnnAvgPool2d, avgPool2d, maxPool2d]

/-- The name that a function declares. -/
def name : FusedKind → String
  | dense => "vsi_npu.dense"
  | qnnDense => "vsi_npu.qnn_dense"
  | conv2d => "vsi_npu.conv2d"
  | qnnConv2d => "vsi_npu.qnn_conv2d"
  | qnnSoftmax => "vsi_npu.qnn_softmax"
  | qnnSigmoid => "vsi_npu.qnn_sigmoid"
  | qnnAvgPool2d => "vsi_npu.qnn_avg_pool2d"
  | avgPool2d => "vsi_npu.avg_pool2d"
  | maxPool2d => "vsi_npu.max_pool2d"

def family : FusedKind → Family
  | dense | qnnDense => .dense
  | conv2d | qnnConv2d => .convolution
  | qnnSoftmax => .qnnSoftmax
  | qnnSigmoid => .qnnSigmoid
  | qnnAvgPool2d => .qnnAvgPool
  | avgPool2d | maxPool2d => .pool

/-- The kind of a declared name. -/
def ofName? (name : String) : Option FusedKind := all.find? (·.name = name)

theorem mem_all (kind : FusedKind) : kind ∈ all := by cases kind <;> decide

theorem ofName?_name (kind : FusedKind) : ofName? kind.name = some kind := by cases kind <;> decide

theorem ofName?_eq_some_iff {name : String} {kind : FusedKind} :
    ofName? name = some kind ↔ kind.name = name := by
  constructor
  · intro h
    simpa using List.find?_some h
  · rintro rfl
    exact ofName?_name kind

theorem ofName?_eq_none_iff {name : String} :
    ofName? name = none ↔ ∀ kind : FusedKind, kind.name ≠ name := by
  rw [Option.eq_none_iff_forall_ne_some]
  exact forall_congr' fun kind => not_congr ofName?_eq_some_iff

theorem name_injective {a b : FusedKind} (h : a.name = b.name) : a = b :=
  Option.some.inj (by rw [← ofName?_name a, h, ofName?_name])

end FusedKind

/-- What an operand is to the kernel that takes it. -/
inductive Role where
  | data
  | weight
  | inputZeroPoint
  | weightZeroPoint
  | inputScale
  | weightScale
  | bias
  | outputScale
  | outputZeroPoint
  | biasScale
  | biasZeroPoint
deriving DecidableEq

def Role.name : Role → String
  | data => "data"
  | weight => "weight"
  | inputZeroPoint => "input zero point"
  | weightZeroPoint => "weight zero point"
  | inputScale => "input scale"
  | weightScale => "weight scale"
  | bias => "bias"
  | outputScale => "output scale"
  | outputZeroPoint => "output zero point"
  | biasScale => "bias scale"
  | biasZeroPoint => "bias zero point"

end KernelGraph
