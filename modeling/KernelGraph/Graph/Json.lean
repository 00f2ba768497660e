import KernelGraph.Attribute.Json
import KernelGraph.Graph.Basic

/-!
Kernel graphs in JSON text.

The encoded form is what a runtime reads: attributes are rows of plain texts, a kernel also tells how
many inputs and outputs it has, and the offsets of all outputs stand beside the nodes. A graph can
also be read from a form that has the fields of the graph itself.
-/

namespace KernelGraph

namespace AttrValue

/-- The encoded rows of a value. -/
def encodedJson (v : AttrValue) : Json := .list (v.encode.map Json.texts)

end AttrValue

namespace Entry

def toJson (e : Entry) : Json := .list [.whole e.id, .whole e.index, .whole e.version]

def fields : Draft.Fields := ⟨"struct NodeEntry", [("id", true), ("index", true), ("version", true)]⟩

/-- The fields read so far. -/
structure Slots where
  id : Option Nat := none
  index : Option Nat := none
  version : Option Nat := none

def readField (slots : Slots) (field : String) (d : Draft) : Read Slots :=
  match field with
  | "id" => do .ok { slots with id := ← Draft.fill field slots.id d.readSize }
  | "index" => do .ok { slots with index := ← Draft.fill field slots.index d.readSize }
  | "version" => do .ok { slots with version := ← Draft.fill field slots.version d.readSize }
  | _ => .ok slots

def read (d : Draft) : Read Entry := do
  let slots ← fields.read .streaming readField {} d
  let id ← Draft.need "id" slots.id
  let index ← Draft.need "index" slots.index
  let version ← Draft.need "version" slots.version
  .ok ⟨id, index, version⟩

end Entry

namespace NodeOp

def variants : List (String × NodeOp) := [input, const, kernel].map fun op => (op.name, op)

def read : Draft → Read NodeOp :=
  Draft.readVariant .streaming variants fun op held => do
    Draft.readNothing .streaming held
    .ok op

/-- The role of a whole text. -/
def ofText (text : String) : Read NodeOp := Draft.readWhole read text

end NodeOp

namespace Node

/-- The encoded attributes. A kernel's counts of inputs and outputs come last, so that they hold even
if it has attributes of their names. -/
def encodedAttrs (n : Node) : List (String × Json) :=
  let attrs := n.attrs.items.map fun (name, value) => (name, value.encodedJson)
  if n.op = .kernel then
    attrs ++ [("num_inputs", .text (toString n.inputs.length)),
      ("num_outputs", .text (toString n.outputs))]
  else attrs

/-- The encoded form; attributes are left out if there are none. -/
def toJson (n : Node) : Json :=
  .record ([("op", .text n.op.name), ("name", .text n.name),
      ("inputs", .list (n.inputs.map Entry.toJson))]
    ++ if n.encodedAttrs.isEmpty then [] else [("attrs", .record n.encodedAttrs)])

def fields : Draft.Fields :=
  ⟨"struct GraphNode",
    [("op", true), ("name", true), ("inputs", true), ("num_outputs", true), ("attrs", true)]⟩

/-- The fields read so far. -/
structure Slots where
  op : Option NodeOp := none
  name : Option String := none
  inputs : Option (List Entry) := none
  outputs : Option Nat := none
  attrs : Option Attributes := none

/-- Reads a field. The attributes stand inside four brackets, their own among them. -/
def readField (slots : Slots) (field : String) (d : Draft) : Read Slots :=
  match field with
  | "op" => do .ok { slots with op := ← Draft.fill field slots.op (NodeOp.read d) }
  | "name" => do .ok { slots with name := ← Draft.fill field slots.name d.readText }
  | "inputs" => do
    .ok { slots with inputs := ← Draft.fill field slots.inputs (d.readList Entry.read) }
  | "num_outputs" => do .ok { slots with outputs := ← Draft.fill field slots.outputs d.readSize }
  | "attrs" => do
    .ok { slots with attrs := ← Draft.fill field slots.attrs (Attributes.read (maxDepth - 4) d) }
  | _ => .ok slots

def read (d : Draft) : Read Node := do
  let slots ← fields.read .streaming readField {} d
  let op ← Draft.need "op" slots.op
  let name ← Draft.need "name" slots.name
  let inputs ← Draft.need "inputs" slots.inputs
  let outputs ← Draft.need "num_outputs" slots.outputs
  let attrs ← Draft.need "attrs" slots.attrs
  .ok ⟨op, name, inputs, outputs, attrs⟩

end Node

namespace Graph

/-- The encoded form, in canonical form. -/
def toJson (g : Graph) : Json :=
  (Json.record
    [("nodes", .list (g.nodes.map Node.toJson)),
      ("arg_nodes", .list (g.argNodes.map fun (n : Nat) => .whole n)),
      ("heads", .list (g.heads.map Entry.toJson)),
      ("node_row_ptr", .list (g.rowPointers.map fun n => .whole n.toNat))]).canonical

/-- A table of constants by their names, in canonical form. The last one of a name counts. -/
def paramsToJson (params : List (String × Tensor)) : Json :=
  (Json.record (params.map fun (name, value) => (name, value.toJson))).canonical

def fields : Draft.Fields :=
  ⟨"struct SerializedGraph",
    [("symbol", true), ("nodes", true), ("arg_nodes", true), ("heads", true), ("params", true)]⟩

/-- The fields read so far. -/
structure Slots where
  symbol : Option String := none
  nodes : Option (List Node) := none
  argNodes : Option (List Nat) := none
  heads : Option (List Entry) := none
  params : Option (List (String × Tensor)) := none

/-- A constant: a list of its name and its value. -/
def readParam : Draft → Read (String × Tensor)
  | .list items closed => do
    let expected := "a tuple of size 2"
    let (name, items) ← next 0 expected closed Draft.readText items
    let (value, items) ← next 1 expected closed (Tensor.read .streaming) items
    Draft.ensure (closed && items.isEmpty)
    .ok (name, value)
  | d => d.unfit "a tuple of size 2"
where
  next {α : Type} (i : Nat) (expected : String) (closed : Bool) (item : Draft → Read α) :
      List Draft → Read (α × List Draft)
    | d :: items => do .ok (← item d, items)
    | [] => do
      Draft.ensure closed
      (Mismatch.length i expected).raise

def readField (slots : Slots) (field : String) (d : Draft) : Read Slots :=
  match field with
  | "symbol" => do .ok { slots with symbol := ← Draft.fill field slots.symbol d.readText }
  | "nodes" => do .ok { slots with nodes := ← Draft.fill field slots.nodes (d.readList Node.read) }
  | "arg_nodes" => do
    .ok { slots with argNodes := ← Draft.fill field slots.argNodes (d.readList Draft.readSize) }
  | "heads" => do .ok { slots with heads := ← Draft.fill field slots.heads (d.readList Entry.read) }
  | "params" => do .ok { slots with params := ← Draft.fill field slots.params (d.readList readParam) }
  | _ => .ok slots

def read (d : Draft) : Read Graph := do
  let slots ← fields.read .streaming readField {} d
  let symbol ← Draft.need "symbol" slots.symbol
  let nodes ← Draft.need "nodes" slots.nodes
  let argNodes ← Draft.need "arg_nodes" slots.argNodes
  let heads ← Draft.need "heads" slots.heads
  let params ← Draft.need "params" slots.params
  .ok ⟨symbol, nodes, argNodes, heads, params⟩

/-- The graph of a whole text. -/
def ofText (text : String) : Read Graph := Draft.readWhole read text

end Graph

end KernelGraph
