import KernelGraph.Attribute.Basic

/-!
Kernel graphs: inputs, constants and kernels in one list, in which a node names what it takes by the
places of earlier nodes and the numbers of their outputs.
-/

namespace KernelGraph

inductive NodeOp where
  | input
  | const
  | kernel
deriving DecidableEq

namespace NodeOp

def name : NodeOp → String
  | input => "input"
  | const => "const"
  | kernel => "kernel"

/-- Whether a node is given to the graph from outside. -/
def isArg : NodeOp → Bool
  | input | const => true
  | kernel => false

end NodeOp

/-- An output of a node: the node's place, the number of the output, and a version. -/
structure Entry where
  id : Nat
  index : Nat
  version : Nat
deriving DecidableEq

structure Node where
  op : NodeOp
  name : String
  inputs : List Entry
  outputs : Nat
  attrs : Attributes
deriving DecidableEq

namespace Node

/-- The integers of a shape attribute, which take an extent of more than 63 bits for a negative
number. -/
def shapeAttr (shape : Shape) : AttrValue := .ints (shape.map UInt64.toInt64)

/-- The attributes that tell a type. -/
def typeAttrs (dtype : DType) (shape : Shape) : Attributes :=
  (Attributes.empty.set "dtype" (.dtype dtype)).set "shape" (shapeAttr shape)

def input (name : String) (type : Option TensorType) : Node :=
  ⟨.input, name, [], 1, match type with
    | some t => typeAttrs t.dtype t.shape
    | none => .empty⟩

def constant (name : String) (value : Tensor) : Node :=
  ⟨.const, name, [], 1, typeAttrs value.dtype value.shape⟩

/-- A kernel with the attributes of a call. -/
def kernel (name : String) (inputs : List Entry) (outputs : Nat) (attrs : Attributes) : Node :=
  ⟨.kernel, name, inputs, outputs, Attributes.empty.extend attrs⟩

end Node

/-- A graph under the name by which the outside knows it, with the value of each constant. -/
structure Graph where
  symbol : String
  nodes : List Node
  argNodes : List Nat
  heads : List Entry
  params : List (String × Tensor)
deriving DecidableEq

namespace Graph

/-- The node whose output an entry is. -/
def resolve? (g : Graph) (e : Entry) : Option Node := g.nodes[e.id]?

def kernels (g : Graph) : List Node := g.nodes.filter (·.op = .kernel)

/-- The first constant of a name. -/
def param? (g : Graph) (name : String) : Option Tensor := g.params.lookup name

def constNames (g : Graph) : List String := g.params.map (·.1)

/-- How many outputs come before each node, and after the last one, counted in words of 64 bits. -/
def offsets (start : UInt64) : List Node → List UInt64
  | [] => [start]
  | n :: nodes => start :: offsets (start + .ofNat n.outputs) nodes

def rowPointers (g : Graph) : List UInt64 := offsets 0 g.nodes

theorem length_offsets (start : UInt64) (nodes : List Node) :
    (offsets start nodes).length = nodes.length + 1 := by
  induction nodes generalizing start with
  | nil => rfl
  | cons n nodes ih => simp [offsets, ih]

/-- Before the node at place `i` come the outputs of the first `i` nodes. -/
theorem getElem?_offsets (start : UInt64) (nodes : List Node) (i : Nat) (h : i ≤ nodes.length) :
    (offsets start nodes)[i]? =
      some ((nodes.take i).foldl (fun before n => before + .ofNat n.outputs) start) := by
  induction nodes generalizing start i with
  | nil => simp_all [offsets]
  | cons n nodes ih =>
    cases i with
    | zero => simp [offsets]
    | succ i => simp [offsets, ih _ i (Nat.le_of_succ_le_succ h)]

end Graph

end KernelGraph
