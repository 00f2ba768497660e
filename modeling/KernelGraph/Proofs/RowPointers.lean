import KernelGraph.Proofs.Decoding
import Mathlib.Data.Prod.Lex
import Mathlib.Data.Set.Function
import Mathlib.Order.Monotone.Basic

/-!
The row pointers of a graph number the outputs of all its nodes, node by node. A pointer is how many
outputs come before a node (`getElem?_rowPointers`), so nodes without outputs share the pointer of
what follows, and which output has a number is not told by the pointers alone: it is found by going
through the nodes until their outputs exceed the number (`exists_output_of_lt`).
-/

namespace KernelGraph

namespace Graph

/-- How many outputs the nodes before a place have. -/
def outputsBefore (g : Graph) (place : Nat) : Nat := ((g.nodes.take place).map Node.outputs).sum

/-- The outputs of a graph: the places of their nodes, and their numbers at these nodes. -/
def outputs (g : Graph) : Set (Nat ×ₗ Nat) :=
  {o | ∃ node, g.nodes[(ofLex o).1]? = some node ∧ (ofLex o).2 < node.outputs}

/-- The number of an output among the outputs of all nodes: the pointer of its node, and its own
number from there on. -/
def number (g : Graph) (o : Nat ×ₗ Nat) : Nat :=
  (g.rowPointers.getD (ofLex o).1 0).toNat + (ofLex o).2

/-- The pointers of a graph number its outputs: they begin at zero, go up by the outputs of each node
and end with all of them, no sum on the way is more than a word, and each number below the last
pointer is that of one output, in the order of the nodes and of the outputs of each. -/
structure NumbersOutputs (g : Graph) : Prop where
  length : g.rowPointers.length = g.nodes.length + 1
  first : g.rowPointers.head? = some 0
  last : g.rowPointers.getLast?.map UInt64.toNat = some (g.nodes.map Node.outputs).sum
  sorted : g.rowPointers.Pairwise (· ≤ ·)
  fits : ∀ place node, g.nodes[place]? = some node → ∃ pointer,
    g.rowPointers[place]? = some pointer ∧ pointer.toNat + node.outputs < 2 ^ 64 ∧
      (g.rowPointers[place + 1]?).map UInt64.toNat = some (pointer.toNat + node.outputs)
  strictMonoOn : StrictMonoOn g.number g.outputs
  bijOn : Set.BijOn g.number g.outputs (Set.Iio (g.nodes.map Node.outputs).sum)
  told : g.toJson.field? "node_row_ptr" =
    some (.list ((g.rowPointers.map UInt64.toNat).map fun (n : Nat) => .whole n))

/-! ### Sums of outputs -/

theorem outputsBefore_length (g : Graph) :
    g.outputsBefore g.nodes.length = (g.nodes.map Node.outputs).sum := by
  rw [outputsBefore, List.take_length]

theorem outputsBefore_succ {g : Graph} {place : Nat} {node : Node}
    (h : g.nodes[place]? = some node) :
    g.outputsBefore (place + 1) = g.outputsBefore place + node.outputs := by
  rw [outputsBefore, List.take_add_one, h, List.map_append, List.sum_append]
  exact congrArg (g.outputsBefore place + ·) (Nat.add_zero _)

theorem outputsBefore_mono (g : Graph) : Monotone g.outputsBefore := by
  refine monotone_nat_of_le_succ fun place => ?_
  cases h : g.nodes[place]? with
  | none => rw [outputsBefore, outputsBefore, List.take_add_one, h, Option.toList, List.append_nil]
  | some node =>
      rw [outputsBefore_succ h]
      exact Nat.le_add_right _ _

theorem outputsBefore_le (g : Graph) (place : Nat) :
    g.outputsBefore place ≤ (g.nodes.map Node.outputs).sum := by
  rw [← outputsBefore_length]
  rcases Nat.le_total place g.nodes.length with h | h
  · exact g.outputsBefore_mono h
  · rw [outputsBefore, outputsBefore, List.take_of_length_le h, List.take_length]

theorem foldl_outputs (nodes : List Node) (start : Nat) :
    nodes.foldl (fun before n => before + .ofNat n.outputs) (UInt64.ofNat start) =
      .ofNat (start + (nodes.map Node.outputs).sum) := by
  induction nodes generalizing start with
  | nil => rfl
  | cons n nodes ih =>
      rw [List.foldl_cons, ← UInt64.ofNat_add, ih, List.map_cons, List.sum_cons, Nat.add_assoc]

/-- A pointer is how many outputs come before its node, in a word. -/
theorem getElem?_rowPointers {g : Graph} {place : Nat} (h : place ≤ g.nodes.length) :
    g.rowPointers[place]? = some (.ofNat (g.outputsBefore place)) := by
  have hfold := foldl_outputs (g.nodes.take place) 0
  rw [Nat.zero_add] at hfold
  exact (getElem?_offsets 0 g.nodes place h).trans (congrArg some hfold)

/-! ### Numbers of outputs -/

section Fitting

variable {g : Graph} (hfits : (g.nodes.map Node.outputs).sum < 2 ^ 64)

include hfits

theorem toNat_outputsBefore (place : Nat) :
    (UInt64.ofNat (g.outputsBefore place)).toNat = g.outputsBefore place :=
  UInt64.toNat_ofNat_of_lt' (Nat.lt_of_le_of_lt (g.outputsBefore_le place) hfits)

theorem toNat_rowPointers {place : Nat} (h : place < g.rowPointers.length) :
    g.rowPointers[place].toNat = g.outputsBefore place := by
  have hplace : place ≤ g.nodes.length :=
    Nat.lt_succ_iff.1 (Nat.lt_of_lt_of_eq h (length_offsets 0 g.nodes))
  rw [(List.getElem_eq_iff h).2 (getElem?_rowPointers hplace), toNat_outputsBefore hfits]

theorem number_eq {o : Nat ×ₗ Nat} (ho : o ∈ g.outputs) :
    g.number o = g.outputsBefore (ofLex o).1 + (ofLex o).2 := by
  obtain ⟨node, hnode, -⟩ := ho
  have hplace : (ofLex o).1 < g.nodes.length := (List.getElem?_eq_some_iff.1 hnode).1
  rw [number, List.getD_eq_getElem?_getD, getElem?_rowPointers hplace.le, Option.getD_some,
    toNat_outputsBefore hfits]

/-- The numbers of a node's outputs come before those of the next node. -/
theorem number_lt {o : Nat ×ₗ Nat} (ho : o ∈ g.outputs) :
    g.number o < g.outputsBefore ((ofLex o).1 + 1) := by
  rw [number_eq hfits ho]
  obtain ⟨node, hnode, hindex⟩ := ho
  rw [outputsBefore_succ hnode]
  exact Nat.add_lt_add_left hindex _

theorem strictMonoOn_number : StrictMonoOn g.number g.outputs := by
  intro o ho o' ho' hlt
  rcases Prod.Lex.lt_iff.1 hlt with hplace | ⟨hplace, hindex⟩
  · calc g.number o < g.outputsBefore ((ofLex o).1 + 1) := number_lt hfits ho
      _ ≤ g.outputsBefore (ofLex o').1 := g.outputsBefore_mono hplace
      _ ≤ g.number o' := by
        rw [number_eq hfits ho']
        exact Nat.le_add_right _ _
  · rw [number_eq hfits ho, number_eq hfits ho', hplace]
    exact Nat.add_lt_add_left hindex _

/-- A number below the pointer that follows some nodes is that of an output. -/
theorem exists_output_of_lt {k place : Nat} (hplace : place ≤ g.nodes.length)
    (hk : k < g.outputsBefore place) : ∃ o ∈ g.outputs, g.number o = k := by
  induction place with
  | zero => exact absurd hk (Nat.not_lt_zero k)
  | succ place ih =>
      by_cases hbefore : k < g.outputsBefore place
      · exact ih (Nat.le_of_succ_le hplace) hbefore
      · -- the last of the nodes has the output; it has one at all, as `k` is past the others
        have hnode : g.nodes[place]? = some g.nodes[place] := List.getElem?_eq_getElem hplace
        rw [outputsBefore_succ hnode] at hk
        have ho : toLex (place, k - g.outputsBefore place) ∈ g.outputs :=
          ⟨g.nodes[place], hnode, show k - g.outputsBefore place < _ by omega⟩
        refine ⟨_, ho, ?_⟩
        rw [number_eq hfits ho]
        exact Nat.add_sub_of_le (Nat.not_lt.1 hbefore)

theorem bijOn_number :
    Set.BijOn g.number g.outputs (Set.Iio (g.nodes.map Node.outputs).sum) := by
  refine ⟨fun o ho => ?_, (strictMonoOn_number hfits).injOn, fun k hk => ?_⟩
  · exact Nat.lt_of_lt_of_le (number_lt hfits ho) (g.outputsBefore_le _)
  · exact exists_output_of_lt hfits le_rfl (g.outputsBefore_length ▸ hk)

end Fitting

/-- If all outputs of a graph can be counted by a word, whatever the outputs of each node are, then
its row pointers number them, and stand so in its encoded form. -/
theorem numbersOutputs (g : Graph) (hfits : (g.nodes.map Node.outputs).sum < 2 ^ 64) :
    g.NumbersOutputs where
  length := length_offsets 0 g.nodes
  first := by
    rw [List.head?_eq_getElem?, getElem?_rowPointers (Nat.zero_le _)]
    rfl
  last := by
    have hlength : g.rowPointers.length - 1 = g.nodes.length :=
      congrArg (· - 1) (length_offsets 0 g.nodes)
    rw [List.getLast?_eq_getElem?, hlength, getElem?_rowPointers le_rfl, Option.map_some,
      toNat_outputsBefore hfits, outputsBefore_length]
  sorted := by
    refine List.pairwise_iff_getElem.2 fun i j hi hj hij => ?_
    rw [UInt64.le_iff_toNat_le, toNat_rowPointers hfits hi, toNat_rowPointers hfits hj]
    exact g.outputsBefore_mono hij.le
  fits := by
    intro place node hnode
    have hplace : place < g.nodes.length := (List.getElem?_eq_some_iff.1 hnode).1
    refine ⟨_, getElem?_rowPointers hplace.le, ?_⟩
    rw [getElem?_rowPointers (Nat.succ_le_of_lt hplace), Option.map_some,
      toNat_outputsBefore hfits, toNat_outputsBefore hfits, ← outputsBefore_succ hnode]
    exact ⟨Nat.lt_of_le_of_lt (g.outputsBefore_le _) hfits, rfl⟩
  strictMonoOn := strictMonoOn_number hfits
  bijOn := bijOn_number hfits
  told := g.field?_toJson.2.2.2

end Graph

namespace Splitting

/-- A graph with a kernel of two outputs, and one of none. -/
def graph : Graph :=
  ⟨"main", [.input "x" none, .kernel "split" [⟨0, 0, 0⟩] 2 .empty,
    .kernel "check" [⟨1, 0, 0⟩] 0 .empty, .kernel "add" [⟨1, 0, 0⟩, ⟨1, 1, 0⟩] 1 .empty], [0],
    [⟨3, 0, 0⟩], []⟩

/-- The kernel without outputs and the one after it have one pointer. -/
theorem numbersOutputs_graph : (graph.nodes.map Node.outputs).sum < 2 ^ 64 ∧
    graph.rowPointers = [0, 1, 3, 3, 4] ∧ graph.NumbersOutputs ∧
    graph.number (toLex (3, 0)) = 3 :=
  ⟨by decide, by decide, Graph.numbersOutputs graph (by decide), by decide⟩

end Splitting

end KernelGraph
