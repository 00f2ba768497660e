import KernelGraph.Graph.Registry
import Mathlib.Data.List.Basic
import Mathlib.Data.List.Induction

/-!
Registries are a record of what was done to them. Nodes and constants stay where they were added, and
the outputs of a node are told by its place, so those of two nodes are never alike, and the one that
was added last for an expression is what is known of it (`lookup_run_eq_some_iff`). An expression may
be given a node again, which leaves the earlier node where it is. None of this asks for nodes to be
well-formed, as those that are lowered are.
-/

namespace KernelGraph

namespace Registry

/-! ### Arguments -/

theorem getElem?_nodes_add (r : Registry) (node : Node) (id i : Nat) :
    (r.add node id).2.nodes[i]? = if i = r.nodes.length then some node else r.nodes[i]? := by
  rw [nodes_add]
  by_cases hi : i = r.nodes.length
  · rw [if_pos hi, hi, List.getElem?_concat_length]
  · rw [if_neg hi]
    by_cases hlt : i < r.nodes.length
    · rw [List.getElem?_append_left hlt]
    · have hge : r.nodes.length ≤ i := Nat.le_of_not_lt hlt
      rw [List.getElem?_eq_none hge, List.getElem?_eq_none]
      rw [List.length_append, List.length_singleton]
      omega

theorem argNodes_add (r : Registry) (node : Node) (id : Nat) :
    (r.add node id).2.argNodes =
      if node.op.isArg then r.argNodes ++ [r.nodes.length] else r.argNodes := rfl

/-- The arguments are the places of the nodes that are no kernels, from the first to the last. -/
structure ListsArgs (r : Registry) : Prop where
  increasing : r.argNodes.Pairwise (· < ·)
  mem_iff : ∀ i, i ∈ r.argNodes ↔ ∃ node, r.nodes[i]? = some node ∧ node.op ≠ .kernel

namespace ListsArgs

theorem lt {r : Registry} (h : r.ListsArgs) {i : Nat} (hi : i ∈ r.argNodes) :
    i < r.nodes.length := by
  obtain ⟨n, hn, -⟩ := (h.mem_iff i).1 hi
  exact (List.getElem?_eq_some_iff.1 hn).1

theorem add {r : Registry} (h : r.ListsArgs) (node : Node) (id : Nat) :
    (r.add node id).2.ListsArgs := by
  refine ⟨?increasing, fun i => ?mem_iff⟩
  case increasing =>
    rw [argNodes_add]
    split
    · refine List.pairwise_append.2 ⟨h.increasing, List.pairwise_singleton _ _, ?_⟩
      intro i hi j hj
      rw [List.mem_singleton.1 hj]
      exact h.lt hi
    · exact h.increasing
  case mem_iff =>
    have hisArg : node.op.isArg ↔ node.op ≠ .kernel := by cases node.op <;> simp [NodeOp.isArg]
    rw [argNodes_add, getElem?_nodes_add]
    by_cases hi : i = r.nodes.length
    · have hnew : i ∉ r.argNodes := fun hmem => absurd (h.lt hmem) (by omega)
      by_cases hop : node.op.isArg
      · simp [hop, hi, hisArg.1 hop]
      · have hkernel : ¬node.op ≠ .kernel := mt hisArg.2 hop
        simp [hop, hi, hkernel, hi ▸ hnew]
    · rw [if_neg hi, ← h.mem_iff i]
      by_cases hop : node.op.isArg
      · simp [hop, hi]
      · simp [hop]

end ListsArgs

/-! ### Runs -/

/-- What can be done to a registry. -/
inductive Change where
  | add (node : Node) (id : Nat)
  | addParam (name : String) (value : Tensor)

namespace Change

/-- The node that a change adds, and the expression that it is the value of. -/
def added? : Change → Option (Node × Nat)
  | add node id => some (node, id)
  | addParam _ _ => none

/-- The constant that a change adds. -/
def param? : Change → Option (String × Tensor)
  | add _ _ => none
  | addParam name value => some (name, value)

end Change

def change (r : Registry) : Change → Registry
  | .add node id => (r.add node id).2
  | .addParam name value => r.addParam name value

/-- The registry that some changes lead to from an empty one. -/
def run (changes : List Change) : Registry := changes.foldl change empty

/-- The nodes that changes add, each with its expression, in the order in which they do. -/
def added (changes : List Change) : List (Node × Nat) := changes.filterMap Change.added?

theorem run_concat (changes : List Change) (c : Change) :
    run (changes ++ [c]) = (run changes).change c := List.foldl_concat ..

theorem nodes_run (changes : List Change) : (run changes).nodes = (added changes).map (·.1) := by
  induction changes using List.reverseRecOn with
  | nil => rfl
  | append_singleton changes c ih =>
      rw [run_concat, added, List.filterMap_append, List.map_append]
      cases c with
      | add node id => exact congrArg (· ++ [node]) ih
      | addParam name value => exact ih.trans (List.append_nil _).symm

theorem params_run (changes : List Change) :
    (run changes).params = changes.filterMap Change.param? := by
  induction changes using List.reverseRecOn with
  | nil => rfl
  | append_singleton changes c ih =>
      rw [run_concat, List.filterMap_append]
      cases c with
      | add node id => exact ih.trans (List.append_nil _).symm
      | addParam name value => exact congrArg (· ++ [(name, value)]) ih

theorem listsArgs_run (changes : List Change) : (run changes).ListsArgs := by
  induction changes using List.reverseRecOn with
  | nil => exact ⟨.nil, fun i => by simp [run, empty]⟩
  | append_singleton changes c ih =>
      rw [run_concat]
      cases c with
      | add node id => exact ih.add node id
      | addParam name value => exact ⟨ih.increasing, ih.mem_iff⟩

/-! ### What is known of expressions -/

theorem lookup_change_of_ne {c : Change} {id : Nat} (h : ∀ node, c ≠ .add node id)
    (r : Registry) : (r.change c).lookup id = r.lookup id := by
  cases c with
  | add node other =>
      have hne : id ≠ other := fun heq => h node (heq ▸ rfl)
      exact (lookup_add r node other id).trans (if_neg hne)
  | addParam name value => exact lookup_addParam r name value id

theorem forall_not_mem_concat {changes : List Change} {c : Change} {id : Nat} :
    (∀ node, .add node id ∉ changes ++ [c]) ↔
      (∀ node, .add node id ∉ changes) ∧ ∀ node, c ≠ .add node id := by
  simp [forall_and, eq_comm]

/-- Changes that give an expression no node leave what is known of it. -/
theorem lookup_run_append (before : List Change) {after : List Change} {id : Nat}
    (h : ∀ node, .add node id ∉ after) :
    (run (before ++ after)).lookup id = (run before).lookup id := by
  induction after using List.reverseRecOn with
  | nil => rw [List.append_nil]
  | append_singleton after c ih =>
      obtain ⟨hafter, hc⟩ := forall_not_mem_concat.1 h
      rw [← List.append_assoc, run_concat, lookup_change_of_ne hc, ih hafter]

theorem lookup_run_of_not_mem {changes : List Change} {id : Nat}
    (h : ∀ node, .add node id ∉ changes) : (run changes).lookup id = none :=
  lookup_run_append [] h

/-- What the last node of an expression told is known to the end. -/
theorem lookup_run_of_last (before : List Change) (node : Node) {id : Nat} {after : List Change}
    (h : ∀ other, .add other id ∉ after) :
    (run (before ++ .add node id :: after)).lookup id = some ((run before).add node id).1 := by
  rw [List.append_cons, lookup_run_append _ h, run_concat]
  exact (lookup_add _ node id id).trans (if_pos rfl)

/-- Among the nodes that were added for an expression, one was added last. -/
theorem exists_last_add {changes : List Change} {id : Nat} (h : ∃ node, .add node id ∈ changes) :
    ∃ before node after, changes = before ++ .add node id :: after ∧
      ∀ other, .add other id ∉ after := by
  induction changes using List.reverseRecOn with
  | nil =>
      obtain ⟨_, hmem⟩ := h
      cases hmem
  | append_singleton changes c ih =>
      by_cases hc : ∃ node, c = .add node id
      · obtain ⟨node, rfl⟩ := hc
        exact ⟨changes, node, [], rfl, fun _ => List.not_mem_nil⟩
      · obtain ⟨node, hmem⟩ := h
        have hearlier : .add node id ∈ changes := (List.mem_append.1 hmem).resolve_right
          fun hlast => hc ⟨node, (List.mem_singleton.1 hlast).symm⟩
        obtain ⟨before, last, after, rfl, hafter⟩ := ih ⟨node, hearlier⟩
        exact ⟨before, last, after ++ [c], List.append_assoc ..,
          forall_not_mem_concat.2 ⟨hafter, not_exists.1 hc⟩⟩

theorem lookup_run_eq_none_iff {changes : List Change} {id : Nat} :
    (run changes).lookup id = none ↔ ∀ node, .add node id ∉ changes := by
  refine ⟨fun hnone node hmem => ?_, lookup_run_of_not_mem⟩
  obtain ⟨before, last, after, rfl, hafter⟩ := exists_last_add ⟨node, hmem⟩
  rw [lookup_run_of_last before last hafter] at hnone
  cases hnone

/-- What is known of an expression is what was told when it was last given a node. -/
theorem lookup_run_eq_some_iff {changes : List Change} {id : Nat} {outputs : List Entry} :
    (run changes).lookup id = some outputs ↔
      ∃ before node after, changes = before ++ .add node id :: after ∧
        (∀ other, .add other id ∉ after) ∧ outputs = ((run before).add node id).1 := by
  constructor
  · intro hsome
    have hadded : ∃ node, .add node id ∈ changes := by
      by_contra hnone
      rw [lookup_run_of_not_mem fun node hmem => hnone ⟨node, hmem⟩] at hsome
      cases hsome
    obtain ⟨before, node, after, rfl, hafter⟩ := exists_last_add hadded
    rw [lookup_run_of_last before node hafter] at hsome
    exact ⟨before, node, after, rfl, hafter, (Option.some.inj hsome).symm⟩
  · rintro ⟨before, node, after, rfl, hafter, rfl⟩
    exact lookup_run_of_last before node hafter

/-! ### Outputs are told once -/

theorem added_append_add (before : List Change) (node : Node) (id : Nat) (after : List Change) :
    added (before ++ .add node id :: after) = added before ++ (node, id) :: added after :=
  List.filterMap_append

/-- Outputs are told at the place that their node has among all that are added. -/
theorem getElem?_added_of_mem {before : List Change} {node : Node} {id : Nat} {e : Entry}
    (after : List Change) (he : e ∈ ((run before).add node id).1) :
    (added (before ++ .add node id :: after))[e.id]? = some (node, id) := by
  rw [entries_add, nodes_run, List.length_map] at he
  rw [(mem_entries.1 he).1, added_append_add, List.getElem?_append_right (Nat.le_refl _),
    Nat.sub_self, List.getElem?_cons_zero]

/-- An output that was told is not told again for a node that is added later. -/
theorem disjoint_add (before : List Change) (node : Node) (id : Nat) (after : List Change)
    (next : Node) (other : Nat) :
    List.Disjoint ((run before).add node id).1
      ((run (before ++ .add node id :: after)).add next other).1 := by
  intro e he hnext
  have hplace := (List.getElem?_eq_some_iff.1 (getElem?_added_of_mem after he)).1
  rw [entries_add, nodes_run, List.length_map] at hnext
  exact absurd (mem_entries.1 hnext).1 (Nat.ne_of_lt hplace)

/-- What is known of two expressions has no output in common. -/
theorem disjoint_lookup {changes : List Change} {id other : Nat} {outputs others : List Entry}
    (hne : id ≠ other) (h : (run changes).lookup id = some outputs)
    (hother : (run changes).lookup other = some others) : outputs.Disjoint others := by
  obtain ⟨before, node, after, hchanges, -, rfl⟩ := lookup_run_eq_some_iff.1 h
  obtain ⟨before', node', after', hchanges', -, rfl⟩ := lookup_run_eq_some_iff.1 hother
  intro e he he'
  -- an output tells the place of its node, and the run which expression was given that node
  have hplace := getElem?_added_of_mem after he
  have hplace' := getElem?_added_of_mem after' he'
  rw [← hchanges] at hplace
  rw [← hchanges', hplace] at hplace'
  exact hne (congrArg Prod.snd (Option.some.inj hplace'))

/-- A registry is a record of what was done to it, from the empty one on, whatever nodes were added
and however often for one expression. It has the nodes and the constants that were added, in this
order, and what is done later only adds to them; its arguments are the places of its inputs and
constants, from the first to the last. Adding a node tells its outputs, numbered from zero at the
next place. Nothing is known of an expression exactly if no node was added for it, and else what was
told when the last one was; outputs that are known of two expressions, or that were told for two
nodes, are never the same. The graph that is given out is made of the nodes, the arguments and the
constants. -/
theorem run_recorded (changes : List Change) :
    (run changes).nodes = (added changes).map (·.1) ∧
    (run changes).params = changes.filterMap Change.param? ∧
    (∀ more, (run changes).nodes <+: (run (changes ++ more)).nodes ∧
      (run changes).params <+: (run (changes ++ more)).params) ∧
    (run changes).argNodes.Pairwise (· < ·) ∧
    (∀ place, place ∈ (run changes).argNodes ↔ ∃ node id,
      (added changes)[place]? = some (node, id) ∧ (node.op = .input ∨ node.op = .const)) ∧
    (∀ node id, ((run changes).add node id).1 =
      (List.range node.outputs).map fun index => ⟨(added changes).length, index, 0⟩) ∧
    (∀ id, (run changes).lookup id = none ↔ ∀ node, .add node id ∉ changes) ∧
    (∀ id outputs, (run changes).lookup id = some outputs ↔
      ∃ before node after, changes = before ++ .add node id :: after ∧
        (∀ other, .add other id ∉ after) ∧ outputs = ((run before).add node id).1) ∧
    (∀ id other outputs others, id ≠ other → (run changes).lookup id = some outputs →
      (run changes).lookup other = some others → outputs.Disjoint others) ∧
    (∀ before node id after, changes = before ++ .add node id :: after → ∀ next other,
      List.Disjoint ((run before).add node id).1 ((run changes).add next other).1) ∧
    ∀ symbol heads, (run changes).toGraph symbol heads =
      ⟨symbol, (added changes).map (·.1), (run changes).argNodes, heads,
        changes.filterMap Change.param?⟩ := by
  have hlists := listsArgs_run changes
  refine ⟨nodes_run changes, params_run changes, fun more => ⟨?_, ?_⟩, hlists.increasing,
    fun place => ?_, fun node id => ?_, fun id => lookup_run_eq_none_iff,
    fun id outputs => lookup_run_eq_some_iff, fun id other outputs others => disjoint_lookup,
    ?_, fun symbol heads => ?_⟩
  · rw [nodes_run, nodes_run, added, added, List.filterMap_append]
    exact (List.prefix_append _ _).map _
  · rw [params_run, params_run, List.filterMap_append]
    exact List.prefix_append _ _
  · have hop : ∀ op : NodeOp, op ≠ .kernel ↔ op = .input ∨ op = .const := by
      intro op
      cases op <;> simp
    rw [hlists.mem_iff, nodes_run, List.getElem?_map]
    simp [hop]
  · rw [entries_add, nodes_run, List.length_map]
    rfl
  · rintro before node id after rfl next other
    exact disjoint_add before node id after next other
  · rw [toGraph, nodes_run, params_run]

namespace Redone

/-- A node of two outputs is added for an expression, and then one of none instead. -/
def earlier : List Change :=
  [.add (.input "x" none) 5, .addParam "w" ⟨[1], .int8 [3]⟩,
    .add (.kernel "split" [⟨0, 0, 0⟩] 2 .empty) 9]

def changes : List Change := earlier ++ [.add (.kernel "check" [⟨0, 0, 0⟩] 0 .empty) 9]

/-- The outputs of the later node are known, and they are none. The earlier one keeps its place. -/
theorem run_changes : (run earlier).lookup 9 = some [⟨1, 0, 0⟩, ⟨1, 1, 0⟩] ∧
    (run changes).lookup 9 = some [] ∧ (run changes).lookup 4 = none ∧
    (run changes).nodes.map (·.name) = ["x", "split", "check"] ∧ (run changes).argNodes = [0] ∧
    List.Disjoint [⟨0, 0, 0⟩] ([⟨1, 0, 0⟩, ⟨1, 1, 0⟩] : List Entry) ∧
    List.Disjoint ([⟨1, 0, 0⟩, ⟨1, 1, 0⟩] : List Entry)
      ((run changes).add (.kernel "add" [⟨1, 0, 0⟩, ⟨1, 1, 0⟩] 1 .empty) 9).1 := by
  obtain ⟨-, -, -, -, -, -, -, -, hknown, -⟩ := run_recorded earlier
  obtain ⟨-, -, -, -, -, -, hnone, hlast, -, htold, -⟩ := run_recorded changes
  refine ⟨rfl, (hlast 9 []).2 ⟨earlier, _, [], rfl, nofun, rfl⟩, (hnone 4).2 ?_, rfl, rfl,
    hknown 5 9 _ _ (by decide) rfl rfl, ?_⟩
  · simp [changes, earlier]
  · exact htold (earlier.take 2) _ 9 [.add (.kernel "check" [⟨0, 0, 0⟩] 0 .empty) 9] rfl _ 9

end Redone

end Registry

end KernelGraph
