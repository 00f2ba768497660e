import KernelGraph.Proofs.Growth
import Mathlib.Data.List.Forall2

/-!
What an expression stands for, apart from any graph: a tree of kernels over inputs and constants.
`Expr.tree` lowers an expression by plain recursion, with nothing remembered and nothing shared, and
`Registry.unfold` reads a tree off a graph from one of its entries. What an entry unfolds to stays
as it is when the graph grows (`unfold_of_extends`).
-/

namespace KernelGraph

inductive Tree where
  | input (name : String) (type : Option TensorType)
  | const (value : Tensor)
  | kernel (name : String) (inputs : List Tree) (attrs : Attributes)

/-! ### The tree of an expression -/

/-- What all of them give, in order, or the first failure. -/
def allOf {α : Type} (results : List (Except LoweringError α)) : Except LoweringError (List α) :=
  results.mapM fun result => result

theorem allOf_nil {α : Type} : allOf ([] : List (Except LoweringError α)) = .ok [] := rfl

theorem allOf_cons {α : Type} (result : Except LoweringError α)
    (results : List (Except LoweringError α)) :
    allOf (result :: results) = (do
      let x ← result
      let xs ← allOf results
      .ok (x :: xs)) := by
  rw [allOf, List.mapM_cons]
  rfl

/-- The kernel of a pattern over the trees of its operands. The first thing that is wrong is the
answer: layouts come first, then the operands in order, then what is put into attributes. -/
def Pattern.tree (p : Pattern) (operands : List (Except LoweringError Tree)) :
    Except LoweringError Tree := do
  p.check.mapError (.violation p.family)
  let inputs ← allOf operands
  let attrs ← p.attrs.mapError (.violation p.family)
  .ok (.kernel p.kernelName inputs attrs)

set_option linter.unusedVariables false in
/-- The tree that an expression stands for, or why there is none. -/
def Expr.tree (e : Expr) : Except LoweringError Tree :=
  match e with
  | .var _ name type => .ok (.input name type)
  | .constant _ value => .ok (.const value)
  | .function .. => .error (.unsupportedTarget e.typeKey)
  | .opCall _ op args attrs => do
    let inputs ← allOf (args.attach.map fun a => a.1.tree)
    .ok (.kernel op inputs (Attributes.empty.extend attrs))
  | .exprCall _ callee args attrs => do
    let kind ← callee.fusedKind
    let root : Call := ⟨.expr callee, args, attrs⟩
    match h : Pattern.ofKind kind root with
    | .error err => .error err
    | .ok p =>
      p.tree ((p.operands root).attach.map fun o =>
        match he : o.1.expr? with
        | none => .error (.violation p.family o.1.missing)
        | some x => x.tree)
termination_by e.size
decreasing_by
  · have := Expr.size_le_sizes a.2
    simp only [Expr.size]
    omega
  · have := Pattern.size_lt_of_mem_operands (Pattern.ofCall_of_ofKind h).1 o.2 he
    simpa only [Call.size, Expr.size, root] using this

/-- The tree of an operand, which must be there. -/
def Operand.tree (family : Family) (o : Operand) : Except LoweringError Tree :=
  match o.expr? with
  | none => .error (.violation family o.missing)
  | some x => x.tree

theorem Operand.tree_of_none {family : Family} {o : Operand} (h : o.expr? = none) :
    o.tree family = .error (.violation family o.missing) := by
  rw [tree, h]

theorem Operand.tree_of_some {family : Family} {o : Operand} {x : Expr} (h : o.expr? = some x) :
    o.tree family = x.tree := by
  rw [tree, h]

namespace Expr

theorem tree_var (id : Nat) (name : String) (type : Option TensorType) :
    (var id name type).tree = .ok (.input name type) := by
  rw [tree]

theorem tree_constant (id : Nat) (value : Tensor) :
    (constant id value).tree = .ok (.const value) := by
  rw [tree]

theorem tree_function (id : Nat) (params : List Expr) (body : Expr) (attrs : Attributes) :
    (function id params body attrs).tree = .error (.unsupportedTarget "Function") := by
  rw [tree]
  rfl

theorem tree_opCall (id : Nat) (op : String) (args : List Expr) (attrs : Attributes) :
    (opCall id op args attrs).tree = (do
      let inputs ← allOf (args.map tree)
      .ok (.kernel op inputs (Attributes.empty.extend attrs))) := by
  rw [tree, List.attach_map_val]

/-- The tree of a fused call is that of the kernel which its callee declares. -/
theorem tree_exprCall (id : Nat) (callee : Expr) (args : List Expr) (attrs : Attributes) :
    (exprCall id callee args attrs).tree = (do
      let kind ← callee.fusedKind
      let p ← Pattern.ofKind kind ⟨.expr callee, args, attrs⟩
      p.tree ((p.operands ⟨.expr callee, args, attrs⟩).map (Operand.tree p.family))) := by
  rw [tree]
  refine bind_congr fun kind => ?_
  dsimp only
  split
  · rename_i err heq
    rw [heq]
    rfl
  · rename_i p heq
    rw [heq]
    show p.tree _ = p.tree ((p.operands _).map (Operand.tree p.family))
    rw [← List.attach_map_val (f := Operand.tree p.family)]
    congr 2
    funext o
    unfold Operand.tree
    split
    · rename_i hnone
      rw [hnone]
    · rename_i x hsome
      rw [hsome]

theorem tree_unmatched (id : Nat) {callee : Expr} {args : List Expr} {attrs : Attributes}
    {kind : FusedKind} {err : LoweringError} (hkind : callee.fusedKind = .ok kind)
    (hp : Pattern.ofKind kind ⟨.expr callee, args, attrs⟩ = .error err) :
    (exprCall id callee args attrs).tree = .error err := by
  rw [tree_exprCall, hkind]
  show (Pattern.ofKind kind _ >>= _) = _
  rw [hp]
  rfl

theorem tree_fused (id : Nat) {callee : Expr} {args : List Expr} {attrs : Attributes}
    {kind : FusedKind} {p : Pattern} (hkind : callee.fusedKind = .ok kind)
    (hp : Pattern.ofKind kind ⟨.expr callee, args, attrs⟩ = .ok p) :
    (exprCall id callee args attrs).tree =
      p.tree ((p.operands ⟨.expr callee, args, attrs⟩).map (Operand.tree p.family)) := by
  rw [tree_exprCall, hkind]
  show (Pattern.ofKind kind _ >>= _) = _
  rw [hp]
  rfl

end Expr

/-! ### The tree of an entry -/

theorem mapM_eq_some_iff {α β : Type} {f : α → Option β} {as : List α} {bs : List β} :
    as.mapM f = some bs ↔ List.Forall₂ (fun a b => f a = some b) as bs := by
  induction as generalizing bs with
  | nil => cases bs <;> simp
  | cons a as ih =>
      rw [List.mapM_cons]
      cases ha : f a with
      | none => cases bs <;> simp [ha]
      | some b =>
          cases has : as.mapM f with
          | none => cases bs <;> simp [ha, ← ih, has]
          | some bs' => cases bs <;> simp [ha, ← ih, has]

theorem exists_of_mapM {α β : Type} {f : α → Option β} {as : List α} {bs : List β}
    (h : as.mapM f = some bs) {a : α} (ha : a ∈ as) : ∃ b, f a = some b := by
  have hall := mapM_eq_some_iff.1 h
  clear h
  induction hall with
  | nil => cases ha
  | cons hab _ ih =>
      rcases List.mem_cons.1 ha with rfl | ha
      · exact ⟨_, hab⟩
      · exact ih ha

/-- The type that the attributes of a node tell. -/
def Node.type? (n : Node) : Option TensorType :=
  match n.attrs.get? "dtype", n.attrs.get? "shape" with
  | some (.dtype dtype), some (.ints shape) => some ⟨dtype, shape.map Int64.toUInt64⟩
  | _, _ => none

/-- The tree of a node, where `unfold` gives those of what it takes. A constant stands for the value
that is recorded under its name. -/
def Node.tree? (n : Node) (params : List (String × Tensor)) (unfold : Entry → Option Tree) :
    Option Tree :=
  match n.op with
  | .input => some (.input n.name n.type?)
  | .const => (params.lookup n.name).map .const
  | .kernel => (n.inputs.mapM unfold).map fun inputs => .kernel n.name inputs n.attrs

/-- The tree read off a graph from an entry, if all that it leads to is there. -/
def Registry.unfold (r : Registry) (e : Entry) : Option Tree :=
  match r.nodes[e.id]? with
  | none => none
  | some n =>
    if e.index < n.outputs ∧ e.version = 0 then
      n.tree? r.params fun i => if i.id < e.id then r.unfold i else none
    else none
termination_by e.id

namespace Node

/-- A variable's type can be read back from its node. -/
theorem type?_input (name : String) (type : Option TensorType) :
    (input name type).type? = type := by
  cases type with
  | none => rfl
  | some t =>
      have hshape : (t.shape.map UInt64.toInt64).map Int64.toUInt64 = t.shape := by
        simp [Function.comp_def]
      simp [type?, input, typeAttrs, shapeAttr, Attributes.get?_set, hshape]

theorem tree?_mono {n : Node} {params params' : List (String × Tensor)}
    {unfold unfold' : Entry → Option Tree} {tree : Tree} (hparams : params <+: params')
    (hunfold : ∀ i t, unfold i = some t → unfold' i = some t)
    (h : n.tree? params unfold = some tree) : n.tree? params' unfold' = some tree := by
  unfold tree? at h ⊢
  split at h
  · exact h
  · obtain ⟨value, hvalue, rfl⟩ := Option.map_eq_some_iff.1 h
    obtain ⟨rest, rfl⟩ := hparams
    rw [List.lookup_append, hvalue]
    rfl
  · obtain ⟨inputs, hinputs, rfl⟩ := Option.map_eq_some_iff.1 h
    have hinputs' : n.inputs.mapM unfold' = some inputs :=
      mapM_eq_some_iff.2 ((mapM_eq_some_iff.1 hinputs).imp hunfold)
    rw [hinputs']
    rfl

end Node

namespace Registry

/-- What an entry unfolds to stays as it is when nodes and constants are added. -/
theorem unfold_mono {r r' : Registry} {e : Entry} {tree : Tree} (hnodes : r.nodes <+: r'.nodes)
    (hparams : r.params <+: r'.params) (h : r.unfold e = some tree) : r'.unfold e = some tree := by
  rw [unfold] at h ⊢
  cases hnode : r.nodes[e.id]? with
  | none =>
      rw [hnode] at h
      cases h
  | some n =>
      have hnode' : r'.nodes[e.id]? = some n := by
        obtain ⟨rest, hrest⟩ := hnodes
        rw [← hrest, List.getElem?_append_left (List.getElem?_eq_some_iff.1 hnode).1, hnode]
      rw [hnode] at h
      rw [hnode']
      dsimp only at h ⊢
      split at h
      · rename_i hindex
        rw [if_pos hindex]
        refine Node.tree?_mono hparams (fun i t hi => ?_) h
        split at hi
        · rename_i hlt
          rw [if_pos hlt]
          exact unfold_mono hnodes hparams hi
        · cases hi
      · cases h
termination_by e.id

/-- An entry that unfolds is of a node of the graph. -/
theorem lt_of_unfold {r : Registry} {e : Entry} {tree : Tree} (h : r.unfold e = some tree) :
    e.id < r.nodes.length := by
  rw [unfold] at h
  split at h
  · cases h
  · rename_i n hnode
    exact (List.getElem?_eq_some_iff.1 hnode).1

/-- A new node unfolds to its own tree over what it takes. -/
theorem unfold_new {r : Registry} {node : Node} {id : Nat} {tree : Tree}
    (houtputs : 0 < node.outputs) (h : node.tree? r.params r.unfold = some tree) :
    (r.add node id).2.unfold ⟨r.nodes.length, 0, 0⟩ = some tree := by
  have hnodes : r.nodes <+: (r.add node id).2.nodes := List.prefix_append _ _
  rw [unfold, nodes_add, List.getElem?_concat_length]
  dsimp only
  rw [if_pos ⟨houtputs, rfl⟩]
  refine Node.tree?_mono (List.prefix_refl _) (fun i t hi => ?_) h
  rw [if_pos (lt_of_unfold hi)]
  exact unfold_mono hnodes (List.prefix_refl _) hi

end Registry

end KernelGraph
