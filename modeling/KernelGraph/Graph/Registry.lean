import KernelGraph.Graph.Basic

/-!
The nodes of a graph that is being built, and which expression each of them is the value of. Nodes
are only ever added, after what they take, so their places are settled.
-/

namespace KernelGraph

structure Registry where
  nodes : List Node
  /-- The outputs of each expression, by its identity, the latest first. -/
  memo : List (Nat × List Entry)
  argNodes : List Nat
  params : List (String × Tensor)

namespace Registry

def empty : Registry := ⟨[], [], [], []⟩

/-- The outputs of an expression that has a node. -/
def lookup (r : Registry) (id : Nat) : Option (List Entry) := r.memo.lookup id

/-- The outputs of the node at a place. -/
def entries (place outputs : Nat) : List Entry := (List.range outputs).map fun i => ⟨place, i, 0⟩

/-- Adds a node as the value of an expression, and tells its outputs. -/
def add (r : Registry) (node : Node) (id : Nat) : List Entry × Registry :=
  let place := r.nodes.length
  let outputs := entries place node.outputs
  (outputs,
    { nodes := r.nodes ++ [node]
      memo := (id, outputs) :: r.memo
      argNodes := if node.op.isArg then r.argNodes ++ [place] else r.argNodes
      params := r.params })

/-- Adds the value of a constant. -/
def addParam (r : Registry) (name : String) (value : Tensor) : Registry :=
  { r with params := r.params ++ [(name, value)] }

/-- The graph of all nodes. -/
def toGraph (r : Registry) (symbol : String) (heads : List Entry) : Graph :=
  ⟨symbol, r.nodes, r.argNodes, heads, r.params⟩

theorem nodes_add (r : Registry) (node : Node) (id : Nat) :
    (r.add node id).2.nodes = r.nodes ++ [node] := rfl

theorem entries_add (r : Registry) (node : Node) (id : Nat) :
    (r.add node id).1 = entries r.nodes.length node.outputs := rfl

/-- A new node is found by its expression, and what the others had stays. -/
theorem lookup_add (r : Registry) (node : Node) (id query : Nat) :
    (r.add node id).2.lookup query =
      if query = id then some (entries r.nodes.length node.outputs) else r.lookup query :=
  lookup_cons_ite query id _ r.memo

theorem lookup_addParam (r : Registry) (name : String) (value : Tensor) (query : Nat) :
    (r.addParam name value).lookup query = r.lookup query := rfl

/-- The outputs of a node are numbered from zero, at the node's place. -/
theorem mem_entries {place outputs : Nat} {e : Entry} :
    e ∈ entries place outputs ↔ e.id = place ∧ e.index < outputs ∧ e.version = 0 := by
  obtain ⟨id, index, version⟩ := e
  simp only [entries, List.mem_map, List.mem_range, Entry.mk.injEq]
  constructor
  · rintro ⟨i, hi, rfl, rfl, rfl⟩
    exact ⟨rfl, hi, rfl⟩
  · rintro ⟨rfl, hi, rfl⟩
    exact ⟨index, hi, rfl, rfl, rfl⟩

end Registry

end KernelGraph
