import KernelGraph.Graph.Json
import KernelGraph.Proofs.Normal

/-!
What a runtime can tell from the encoded form of a graph. The encoded form leaves out attributes
where there are none, adds two counts among those of a kernel, and tells the outputs of nodes by
offsets only. `Graph.decode?` reads it back: nothing of the graph is lost but the order of
attributes and the kinds of their values, and what a kernel has under the names of the counts
(`Graph.toJson_lossless`).
-/

namespace KernelGraph

open AttrValue

namespace Json

/-- The value that a record has under a name. -/
def field? (name : String) : Json → Option Json
  | .record fields => fields.lookup name
  | _ => none

/-- The fields of a record. -/
def fields : Json → List (String × Json)
  | .record fields => fields
  | _ => []

/-- A number that counts something. -/
def size? : Json → Option Nat
  | .number (.whole (.ofNat n)) => some n
  | _ => none

end Json

/-- How far each number is above the one before. -/
def differences : List Nat → List Nat
  | a :: b :: rest => (b - a) :: differences (b :: rest)
  | _ => []

def Entry.decode? (j : Json) : Option Entry := do
  match ← listOf? Json.size? j with
  | [id, index, version] => some ⟨id, index, version⟩
  | _ => none

/-- What the encoded form tells of a node. -/
structure EncodedNode where
  op : NodeOp
  name : String
  inputs : List Entry
  outputs : Nat
  attrs : List (String × Json)

/-- What the encoded form tells of a graph. -/
structure EncodedGraph where
  nodes : List EncodedNode
  argNodes : List Nat
  heads : List Entry

/-- Reads a node, whose number of outputs is told elsewhere. -/
def Node.decode? (j : Json) (outputs : Nat) : Option EncodedNode := do
  let op ← NodeOp.variants.lookup (← textOf? (← j.field? "op"))
  let name ← textOf? (← j.field? "name")
  let inputs ← listOf? Entry.decode? (← j.field? "inputs")
  some ⟨op, name, inputs, outputs, ((j.field? "attrs").map Json.fields).getD []⟩

def Graph.decode? (j : Json) : Option EncodedGraph := do
  let nodes ← listOf? some (← j.field? "nodes")
  let argNodes ← listOf? Json.size? (← j.field? "arg_nodes")
  let heads ← listOf? Entry.decode? (← j.field? "heads")
  let offsets ← listOf? Json.size? (← j.field? "node_row_ptr")
  let nodes ← (List.zipWith Node.decode? nodes (differences offsets)).mapM fun node => node
  some ⟨nodes, argNodes, heads⟩

/-- The names under which a kernel has its counts. -/
def countNames : List String := ["num_inputs", "num_outputs"]

/-- A node is as the encoded form tells. Of a kernel's attributes of the names of the counts nothing
is told. -/
structure EncodedNode.Tells (d : EncodedNode) (n : Node) : Prop where
  op : d.op = n.op
  name : d.name = n.name
  inputs : d.inputs = n.inputs
  outputs : d.outputs = n.outputs
  attrs : ∀ name, (n.op = .kernel → name ∉ countNames) →
    d.attrs.lookup name = (n.attrs.get? name).map AttrValue.encodedJson
  counts : n.op = .kernel → d.attrs.lookup "num_inputs" = some (.text (toString n.inputs.length)) ∧
    d.attrs.lookup "num_outputs" = some (.text (toString n.outputs))

structure EncodedGraph.Tells (d : EncodedGraph) (g : Graph) : Prop where
  nodes : List.Forall₂ EncodedNode.Tells d.nodes g.nodes
  argNodes : d.argNodes = g.argNodes
  heads : d.heads = g.heads

/-! ### Records in canonical form -/

namespace Json

theorem lookup_canonicalFields (fields : List (String × Json)) (name : String) :
    (SortedTable.ofList (canonicalFields fields)).lookup name =
      (fields.reverse.lookup name).map canonical := by
  rw [SortedTable.lookup_ofList, canonicalFields_eq_map, ← List.map_reverse, lookup_map_snd]

/-- The last value of a name is found in a record in canonical form. -/
theorem field?_canonical (fields : List (String × Json)) (name : String) :
    (Json.record fields).canonical.field? name = (fields.reverse.lookup name).map canonical := by
  rw [canonical]
  exact lookup_canonicalFields fields name

theorem canonical_map {α : Type} {f : α → Json} (xs : List α) :
    (Json.list (xs.map f)).canonical = .list (xs.map fun x => (f x).canonical) := by
  rw [canonical, canonicalItems_eq_map, List.map_map]
  rfl

end Json

theorem AttrValue.canonical_encodedJson (v : AttrValue) : v.encodedJson.canonical = v.encodedJson :=
  canonical_list _ (List.forall_mem_map.2 fun _ _ =>
    canonical_list _ (List.forall_mem_map.2 fun _ _ => rfl))

theorem Entry.decode?_toJson (e : Entry) : Entry.decode? e.toJson = some e := rfl

theorem NodeOp.lookup_variants (op : NodeOp) : NodeOp.variants.lookup op.name = some op := by
  cases op <;> rfl

/-! ### Nodes -/

namespace Attributes

/-- The rows, each under its name. -/
def encodedFields (as : Attributes) : List (String × Json) :=
  as.items.map fun (name, value) => (name, value.encodedJson)

theorem lookup_encodedFields {as : Attributes} (h : as.names.Nodup) (name : String) :
    as.encodedFields.reverse.lookup name = (as.get? name).map AttrValue.encodedJson := by
  rw [encodedFields, ← List.map_reverse, lookup_map_snd, lookup_reverse h]
  rfl

end Attributes

namespace Node

/-- The attributes that are found under a name in the encoded form. -/
theorem lookup_encodedAttrs (n : Node) (hnames : n.attrs.names.Nodup) (name : String) :
    n.encodedAttrs.reverse.lookup name =
      if n.op = .kernel ∧ name = "num_outputs" then some (.text (toString n.outputs))
      else if n.op = .kernel ∧ name = "num_inputs" then some (.text (toString n.inputs.length))
      else (n.attrs.get? name).map AttrValue.encodedJson := by
  have hattrs := Attributes.lookup_encodedFields hnames name
  have hrows : n.encodedAttrs = if n.op = .kernel then
      n.attrs.encodedFields ++ [("num_inputs", .text (toString n.inputs.length)),
        ("num_outputs", .text (toString n.outputs))]
    else n.attrs.encodedFields := rfl
  rw [hrows]
  by_cases hop : n.op = .kernel
  · rw [if_pos hop, List.reverse_append, List.lookup_append, hattrs]
    simp only [List.reverse_cons, List.reverse_nil, List.nil_append, List.singleton_append,
      lookup_cons_ite, hop, true_and, List.lookup_nil]
    by_cases houtputs : name = "num_outputs"
    · rw [if_pos houtputs, if_pos houtputs, Option.some_or]
    · rw [if_neg houtputs, if_neg houtputs]
      by_cases hinputs : name = "num_inputs"
      · rw [if_pos hinputs, if_pos hinputs, Option.some_or]
      · rw [if_neg hinputs, if_neg hinputs, Option.none_or]
  · rw [if_neg hop, hattrs, if_neg (by simp [hop]), if_neg (by simp [hop])]

theorem field?_toJson (n : Node) :
    n.toJson.canonical.field? "op" = some (.text n.op.name) ∧
      n.toJson.canonical.field? "name" = some (.text n.name) ∧
      n.toJson.canonical.field? "inputs" = some (.list (n.inputs.map Entry.toJson)) ∧
      n.toJson.canonical.field? "attrs" =
        if n.encodedAttrs.isEmpty then none else some (Json.record n.encodedAttrs).canonical := by
  have hinputs : (Json.list (n.inputs.map Entry.toJson)).canonical =
      .list (n.inputs.map Entry.toJson) := Json.canonical_map n.inputs
  rw [toJson]
  simp only [Json.field?_canonical]
  by_cases hempty : n.encodedAttrs.isEmpty
  · rw [if_pos hempty, if_pos hempty]
    exact ⟨rfl, rfl, congrArg some hinputs, rfl⟩
  · rw [if_neg hempty, if_neg hempty]
    exact ⟨rfl, rfl, congrArg some hinputs, rfl⟩

/-- What is read of a node is the node, with its attributes as they are encoded. -/
theorem decode?_toJson (n : Node) (hnames : n.attrs.names.Nodup) :
    ∃ d, Node.decode? n.toJson.canonical n.outputs = some d ∧ d.Tells n := by
  obtain ⟨hop, hname, hinputs, hattrs⟩ := n.field?_toJson
  have hentries : listOf? Entry.decode? (.list (n.inputs.map Entry.toJson)) = some n.inputs :=
    listOf?_map Entry.decode? Entry.decode?_toJson n.inputs
  have hrow : ∀ name, (((n.toJson.canonical.field? "attrs").map Json.fields).getD []).lookup name =
      (n.encodedAttrs.reverse.lookup name).map Json.canonical := by
    intro name
    rw [hattrs]
    by_cases hempty : n.encodedAttrs.isEmpty
    · rw [if_pos hempty, List.isEmpty_iff.1 hempty]
      rfl
    · rw [if_neg hempty]
      exact Json.lookup_canonicalFields n.encodedAttrs name
  refine ⟨⟨n.op, n.name, n.inputs, n.outputs,
    ((n.toJson.canonical.field? "attrs").map Json.fields).getD []⟩, ?_, rfl, rfl, rfl, rfl,
    fun name hother => ?_, fun hkernel => ⟨?_, ?_⟩⟩
  · rw [Node.decode?, hop, hname, hinputs]
    simp only [Option.bind_eq_bind, Option.bind_some, textOf?, NodeOp.lookup_variants, hentries]
  · have hnone : ∀ count ∈ countNames, ¬(n.op = .kernel ∧ name = count) := by
      rintro count hcount ⟨hkernel, rfl⟩
      exact hother hkernel hcount
    rw [hrow, lookup_encodedAttrs n hnames, if_neg (hnone _ (by simp [countNames])),
      if_neg (hnone _ (by simp [countNames])), Option.map_map]
    exact congrArg (fun encode => (n.attrs.get? name).map encode)
      (funext AttrValue.canonical_encodedJson)
  · rw [hrow, lookup_encodedAttrs n hnames, if_neg (by simp), if_pos ⟨hkernel, rfl⟩]
    rfl
  · rw [hrow, lookup_encodedAttrs n hnames, if_pos ⟨hkernel, rfl⟩]
    rfl

end Node

/-! ### Graphs -/

namespace Graph

theorem offsets_eq_cons (start : UInt64) (nodes : List Node) :
    ∃ rest, offsets start nodes = start :: rest := by
  cases nodes with
  | nil => exact ⟨[], rfl⟩
  | cons n nodes => exact ⟨_, rfl⟩

/-- Offsets that fit into words tell how many outputs each node has. -/
theorem differences_offsets (nodes : List Node) (start : Nat)
    (h : start + (nodes.map Node.outputs).sum < 2 ^ 64) :
    differences ((offsets (.ofNat start) nodes).map UInt64.toNat) = nodes.map Node.outputs := by
  induction nodes generalizing start with
  | nil => rfl
  | cons n nodes ih =>
      rw [List.map_cons, List.sum_cons, ← Nat.add_assoc] at h
      have hstart : (UInt64.ofNat start).toNat = start :=
        UInt64.toNat_ofNat_of_lt' (show start < 2 ^ 64 by omega)
      have hend : (UInt64.ofNat (start + n.outputs)).toNat = start + n.outputs :=
        UInt64.toNat_ofNat_of_lt' (show start + n.outputs < 2 ^ 64 by omega)
      have hnext : UInt64.ofNat start + .ofNat n.outputs = .ofNat (start + n.outputs) := by
        rw [UInt64.ofNat_add]
      obtain ⟨rest, hrest⟩ := offsets_eq_cons (.ofNat (start + n.outputs)) nodes
      have hrec := ih (start + n.outputs) h
      rw [hrest, List.map_cons, hend] at hrec
      rw [offsets, hnext, hrest, List.map_cons, List.map_cons, hstart, hend, differences, hrec,
        List.map_cons, Nat.add_sub_cancel_left]

theorem decode?_nodes {nodes : List Node} (hnames : ∀ n ∈ nodes, n.attrs.names.Nodup) :
    ∃ ds, (List.zipWith Node.decode? (nodes.map fun n => n.toJson.canonical)
        (nodes.map Node.outputs)).mapM (fun node => node) = some ds ∧
      List.Forall₂ EncodedNode.Tells ds nodes := by
  induction nodes with
  | nil => exact ⟨[], rfl, .nil⟩
  | cons n nodes ih =>
      obtain ⟨hn, hrest⟩ := List.forall_mem_cons.1 hnames
      obtain ⟨d, hd, htells⟩ := n.decode?_toJson hn
      obtain ⟨ds, hds, hall⟩ := ih hrest
      refine ⟨d :: ds, ?_, .cons htells hall⟩
      rw [List.map_cons, List.map_cons, List.zipWith_cons_cons, List.mapM_cons, hd, hds]
      rfl

theorem field?_toJson (g : Graph) :
    g.toJson.field? "nodes" = some (.list (g.nodes.map fun n => n.toJson.canonical)) ∧
      g.toJson.field? "arg_nodes" = some (.list (g.argNodes.map fun (n : Nat) => .whole n)) ∧
      g.toJson.field? "heads" = some (.list (g.heads.map Entry.toJson)) ∧
      g.toJson.field? "node_row_ptr" =
        some (.list ((g.rowPointers.map UInt64.toNat).map fun (n : Nat) => .whole n)) := by
  rw [toJson]
  simp only [Json.field?_canonical]
  refine ⟨congrArg some (Json.canonical_map g.nodes), congrArg some (Json.canonical_map g.argNodes),
    congrArg some (Json.canonical_map g.heads), ?_⟩
  rw [List.map_map]
  exact congrArg some (Json.canonical_map g.rowPointers)

/-- A graph is read back from its encoded form. -/
theorem decode?_isSome (g : Graph) (hnames : ∀ n ∈ g.nodes, n.attrs.names.Nodup)
    (houtputs : (g.nodes.map Node.outputs).sum < 2 ^ 64) :
    ∃ d, decode? g.toJson = some d ∧ d.Tells g := by
  obtain ⟨hnodes, hargs, hheads, hoffsets⟩ := g.field?_toJson
  have hitems : ∀ items, listOf? some (.list items) = some items := fun items => by
    have := listOf?_map (f := fun j => j) some (fun _ => rfl) items
    rwa [List.map_id'] at this
  have hsizes : ∀ sizes : List Nat,
      listOf? Json.size? (.list (sizes.map fun (n : Nat) => .whole n)) = some sizes :=
    listOf?_map Json.size? fun _ => rfl
  have hentries : listOf? Entry.decode? (.list (g.heads.map Entry.toJson)) = some g.heads :=
    listOf?_map Entry.decode? Entry.decode?_toJson g.heads
  have hdifferences : differences (g.rowPointers.map UInt64.toNat) = g.nodes.map Node.outputs :=
    differences_offsets g.nodes 0 (by rwa [Nat.zero_add])
  obtain ⟨ds, hds, hall⟩ := decode?_nodes hnames
  refine ⟨⟨ds, g.argNodes, g.heads⟩, ?_, hall, rfl, rfl⟩
  rw [decode?, hnodes, hargs, hheads, hoffsets]
  simp only [Option.bind_eq_bind, Option.bind_some, hitems, hsizes, hentries, hdifferences, hds]

end Graph

/-- Two nodes have the same encoded form, apart from what a kernel has under the names of its
counts. -/
structure Node.EncodedAlike (m n : Node) : Prop where
  op : n.op = m.op
  name : n.name = m.name
  inputs : n.inputs = m.inputs
  outputs : n.outputs = m.outputs
  attrs : ∀ name, (m.op = .kernel → name ∉ countNames) →
    (n.attrs.get? name).map AttrValue.encodedJson = (m.attrs.get? name).map AttrValue.encodedJson

theorem EncodedNode.Tells.encodedAlike {d : EncodedNode} {m n : Node} (hm : d.Tells m)
    (hn : d.Tells n) : m.EncodedAlike n where
  op := hn.op.symm.trans hm.op
  name := hn.name.symm.trans hm.name
  inputs := hn.inputs.symm.trans hm.inputs
  outputs := hn.outputs.symm.trans hm.outputs
  attrs name hname := by
    have hother : n.op = .kernel → name ∉ countNames := fun hkernel =>
      hname (hm.op.symm.trans (hn.op.trans hkernel))
    rw [← hm.attrs name hname, hn.attrs name hother]

theorem EncodedNode.encodedAlike_of_tells {ds : List EncodedNode} {ms ns : List Node}
    (hms : List.Forall₂ Tells ds ms) (hns : List.Forall₂ Tells ds ns) :
    List.Forall₂ Node.EncodedAlike ms ns := by
  induction hms generalizing ns with
  | nil =>
      cases hns
      exact .nil
  | cons hm _ ih =>
      cases hns with
      | cons hn hns => exact .cons (hm.encodedAlike hn) (ih hns)

/-- A graph with less than a word of outputs, none of whose nodes has two attributes of one name,
can be read off its encoded form, but for the order of attributes, the kinds of their values, and
what kernels have under the names of their counts. So two such graphs with one encoded form differ
in nothing else. -/
theorem Graph.toJson_lossless (g : Graph) (hnames : ∀ n ∈ g.nodes, n.attrs.names.Nodup)
    (houtputs : (g.nodes.map Node.outputs).sum < 2 ^ 64) :
    (∃ d, Graph.decode? g.toJson = some d ∧ d.Tells g) ∧
    ∀ g' : Graph, (∀ n ∈ g'.nodes, n.attrs.names.Nodup) →
      (g'.nodes.map Node.outputs).sum < 2 ^ 64 → g'.toJson = g.toJson →
      List.Forall₂ Node.EncodedAlike g.nodes g'.nodes ∧ g'.argNodes = g.argNodes ∧
        g'.heads = g.heads := by
  obtain ⟨d, hd, htells⟩ := g.decode?_isSome hnames houtputs
  refine ⟨⟨d, hd, htells⟩, fun g' hnames' houtputs' hjson => ?_⟩
  obtain ⟨d', hd', htells'⟩ := g'.decode?_isSome hnames' houtputs'
  rw [hjson, hd] at hd'
  obtain rfl := Option.some.inj hd'
  exact ⟨EncodedNode.encodedAlike_of_tells htells.nodes htells'.nodes,
    htells'.argNodes.symm.trans htells.argNodes, htells'.heads.symm.trans htells.heads⟩

namespace DenseGraph

/-- A graph of one kernel with the given attributes. -/
def withAttrs (attrs : Attributes) : Graph :=
  ⟨"main", [⟨.input, "data", [], 1, .empty⟩, ⟨.kernel, "dense", [⟨0, 0, 0⟩], 1, attrs⟩], [0],
    [⟨1, 0, 0⟩], []⟩

/-- The kernel has an attribute of its own under the name of its number of inputs. -/
def counted : Graph := withAttrs ⟨[("num_inputs", .int 7), ("units", .int 3)]⟩

/-- The same units are told by a text. -/
def worded : Graph := withAttrs ⟨[("units", .text "3")]⟩

/-- Both graphs have one encoded form, from which the units are read, and the one input. -/
theorem decode_counted :
    (∃ d, Graph.decode? counted.toJson = some d ∧ d.Tells counted) ∧
      worded.toJson = counted.toJson ∧
      List.Forall₂ Node.EncodedAlike counted.nodes worded.nodes := by
  have hjson : worded.toJson = counted.toJson := by rfl
  obtain ⟨hdecode, halike⟩ := Graph.toJson_lossless counted (by decide) (by decide)
  exact ⟨hdecode, hjson, (halike worded (by decide) (by decide) hjson).1⟩

end DenseGraph

end KernelGraph
