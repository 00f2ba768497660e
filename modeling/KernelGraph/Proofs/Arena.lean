import KernelGraph.Proofs.Registration
import KernelGraph.Proofs.Session

/-!
The nodes of a graph that is being built are in good order at any time, also after requests that
failed half-way and in between the operands of a call: nodes take outputs of earlier nodes only,
each has one output, and what is known of an expression is the output of a node of its own. So no
expression is ever found without outputs, and a graph that is given out has one head.
-/

namespace KernelGraph

/-- The only output of a node that comes before a place. -/
structure Entry.Precedes (e : Entry) (place : Nat) : Prop where
  id : e.id < place
  index : e.index = 0
  version : e.version = 0

theorem Entry.Precedes.mono {e : Entry} {m n : Nat} (h : e.Precedes m) (hmn : m ≤ n) :
    e.Precedes n :=
  ⟨Nat.lt_of_lt_of_le h.id hmn, h.index, h.version⟩

/-- Nodes and what is known of them are in good order. -/
structure Registry.WellFormed (r : Registry) : Prop where
  inputs : ∀ (i : Nat) (node : Node), r.nodes[i]? = some node → ∀ e ∈ node.inputs, e.Precedes i
  outputs : ∀ node ∈ r.nodes, node.outputs = 1
  leaves : ∀ node ∈ r.nodes, node.op ≠ .kernel → node.inputs = []
  argNodes_lt : r.argNodes.Pairwise (· < ·)
  mem_argNodes : ∀ i, i ∈ r.argNodes ↔ ∃ node, r.nodes[i]? = some node ∧ node.op ≠ .kernel
  memo : ∀ id entries, r.lookup id = some entries →
    ∃ place, place < r.nodes.length ∧ entries = [⟨place, 0, 0⟩]
  memo_injective : ∀ id id' entries, r.lookup id = some entries → r.lookup id' = some entries →
    id = id'

namespace Registry

theorem wellFormed_empty : WellFormed empty := by
  refine ⟨?_, ?_, ?_, List.Pairwise.nil, ?_, ?_, ?_⟩ <;> simp [empty, lookup]

theorem WellFormed.addParam {r : Registry} (h : r.WellFormed) (name : String) (value : Tensor) :
    (r.addParam name value).WellFormed :=
  ⟨h.inputs, h.outputs, h.leaves, h.argNodes_lt, h.mem_argNodes, h.memo, h.memo_injective⟩

theorem WellFormed.listsArgs {r : Registry} (h : r.WellFormed) : r.ListsArgs :=
  ⟨h.argNodes_lt, h.mem_argNodes⟩

/-- What is known after a node has been added is the output of that node or was known before. -/
theorem lookup_add_eq_some {r : Registry} {node : Node} {id query : Nat} {found : List Entry}
    (houtputs : node.outputs = 1) (h : (r.add node id).2.lookup query = some found) :
    query = id ∧ found = [⟨r.nodes.length, 0, 0⟩] ∨ r.lookup query = some found := by
  rw [lookup_add, houtputs] at h
  by_cases hid : query = id
  · rw [if_pos hid] at h
    exact .inl ⟨hid, (Option.some.inj h).symm⟩
  · rw [if_neg hid] at h
    exact .inr h

/-- The output of a node that comes next is not known yet. -/
theorem WellFormed.lookup_ne_next {r : Registry} (h : r.WellFormed) (query : Nat) :
    r.lookup query ≠ some [⟨r.nodes.length, 0, 0⟩] := by
  intro hquery
  obtain ⟨place, hlt, heq⟩ := h.memo query _ hquery
  have hplace : place = r.nodes.length := by simpa using heq.symm
  omega

/-- A node that takes outputs of earlier nodes can be added. -/
theorem WellFormed.add {r : Registry} (h : r.WellFormed) {node : Node} (id : Nat)
    (houtputs : node.outputs = 1) (hleaf : node.op ≠ .kernel → node.inputs = [])
    (hinputs : ∀ e ∈ node.inputs, e.Precedes r.nodes.length) : (r.add node id).2.WellFormed := by
  have hmem : ∀ n ∈ (r.add node id).2.nodes, n ∈ r.nodes ∨ n = node := by
    intro n hn
    rw [nodes_add, List.mem_append, List.mem_singleton] at hn
    exact hn
  have hargs : (r.add node id).2.ListsArgs := h.listsArgs.add node id
  refine ⟨?inputs, ?outputs, ?leaves, hargs.increasing, hargs.mem_iff, ?memo, ?memo_injective⟩
  case inputs =>
    intro i n hn
    rw [getElem?_nodes_add] at hn
    by_cases hi : i = r.nodes.length
    · rw [if_pos hi] at hn
      cases hn
      exact hi ▸ hinputs
    · rw [if_neg hi] at hn
      exact h.inputs i n hn
  case outputs =>
    intro n hn
    rcases hmem n hn with hn | rfl
    · exact h.outputs n hn
    · exact houtputs
  case leaves =>
    intro n hn
    rcases hmem n hn with hn | rfl
    · exact h.leaves n hn
    · exact hleaf
  case memo =>
    intro query found hfound
    rw [nodes_add, List.length_append, List.length_singleton]
    rcases lookup_add_eq_some houtputs hfound with ⟨-, rfl⟩ | hknown
    · exact ⟨r.nodes.length, by omega, rfl⟩
    · obtain ⟨place, hlt, rfl⟩ := h.memo query found hknown
      exact ⟨place, by omega, rfl⟩
  case memo_injective =>
    intro id₁ id₂ found h₁ h₂
    rcases lookup_add_eq_some houtputs h₁ with ⟨rfl, rfl⟩ | h₁
    · rcases lookup_add_eq_some houtputs h₂ with ⟨rfl, -⟩ | h₂
      · rfl
      · exact absurd h₂ (h.lookup_ne_next id₂)
    · rcases lookup_add_eq_some houtputs h₂ with ⟨-, rfl⟩ | h₂
      · exact absurd h₁ (h.lookup_ne_next id₁)
      · exact h.memo_injective id₁ id₂ found h₁ h₂

end Registry

/-! ### Missing outputs are never the reason of a failure -/

/-- A callee stands for nothing that is fused if it is no function, if it has no name of what it
stands for, or if nobody knows the name. -/
theorem Expr.fusedKind_eq_error_iff {callee : Expr} {err : LoweringError} :
    callee.fusedKind = .error err ↔
      callee.function? = none ∧ err = .unsupportedTarget callee.typeKey ∨
        ∃ f, callee.function? = some f ∧
          ((∀ name, f.attrs.get? compositeName ≠ some (.text name)) ∧ err = .notComposite ∨
            ∃ name, f.attrs.get? compositeName = some (.text name) ∧
              (∀ kind : FusedKind, kind.name ≠ name) ∧ err = .unknownComposite name) := by
  simp only [← Attributes.getText?_eq_some_iff, ne_eq, ← FusedKind.ofName?_eq_none_iff]
  unfold fusedKind
  cases callee.function? with
  | none => simp [eq_comm]
  | some f =>
      cases hname : f.attrs.getText? compositeName with
      | none => simp [hname, eq_comm]
      | some name => cases hkind : FusedKind.ofName? name <;> simp [hname, hkind, eq_comm]

theorem bind_eq_error_iff {ε α β : Type} {x : Except ε α} {f : α → Except ε β} {err : ε} :
    x >>= f = .error err ↔ x = .error err ∨ ∃ a, x = .ok a ∧ f a = .error err := by
  cases x with
  | error e => simp [bind, Except.bind]
  | ok a => simp [bind, Except.bind]

theorem expectOp_eq_error {family : Family} {op : Operator} {chain : List Call}
    {err : LoweringError} (h : expectOp family op chain = .error err) :
    err = .mismatch family (.call op.name) (firstLink chain) := by
  unfold expectOp at h
  split at h
  · cases h
  · cases h
    rfl

namespace Pattern

theorem ofActivation_eq_error {which : Activation} {chain : List Call} {err : LoweringError}
    (h : ofChain.ofActivation which chain = .error err) :
    ∃ expected found, err = .mismatch which.family expected found := by
  rcases bind_eq_error_iff.1 h with h | ⟨⟨_, _⟩, -, h⟩
  · exact ⟨_, _, expectOp_eq_error h⟩
  rcases bind_eq_error_iff.1 h with h | ⟨⟨_, _⟩, -, h⟩
  · exact ⟨_, _, expectOp_eq_error h⟩
  rcases bind_eq_error_iff.1 h with h | ⟨⟨_, _⟩, -, h⟩
  · exact ⟨_, _, expectOp_eq_error h⟩
  · cases h

/-- A chain that does not match is at fault of the family that it was matched for. -/
theorem ofChain_eq_error {family : Family} {chain : List Call} {err : LoweringError}
    (h : ofChain family chain = .error err) :
    ∃ expected found, err = .mismatch family expected found := by
  cases family with
  | convolution =>
      simp only [ofChain] at h
      rcases bind_eq_error_iff.1 h with h | ⟨⟨_, _⟩, -, h⟩
      · exact ⟨_, _, expectOp_eq_error h⟩
      · cases h
  | dense =>
      simp only [ofChain] at h
      rcases bind_eq_error_iff.1 h with h | ⟨⟨_, _⟩, -, h⟩
      · exact ⟨_, _, expectOp_eq_error h⟩
      · cases h
  | qnnSoftmax => exact ofActivation_eq_error h
  | qnnSigmoid => exact ofActivation_eq_error h
  | qnnAvgPool =>
      rcases bind_eq_error_iff.1 h with h | ⟨⟨_, _⟩, -, h⟩
      · exact ⟨_, _, expectOp_eq_error h⟩
      rcases bind_eq_error_iff.1 h with h | ⟨⟨_, _⟩, -, h⟩
      · exact ⟨_, _, expectOp_eq_error h⟩
      rcases bind_eq_error_iff.1 h with h | ⟨⟨_, _⟩, -, h⟩
      · exact ⟨_, _, expectOp_eq_error h⟩
      · cases h
  | pool =>
      simp only [ofChain] at h
      split at h
      · cases h
      · cases h
      · cases h
        exact ⟨_, _, rfl⟩

/-- A call has no pattern if it is not one of a function, or its body is not as the family asks. -/
theorem ofCall_eq_error {family : Family} {root : Call} {err : LoweringError}
    (h : ofCall family root = .error err) :
    root.function? = none ∧ err = .unsupportedTarget root.description ∨
      ∃ expected found, err = .mismatch family expected found := by
  rcases bind_eq_error_iff.1 h with h | ⟨chain, -, h⟩
  · unfold chainOf at h
    split at h
    · rename_i hf
      cases h
      exact .inl ⟨hf, rfl⟩
    · split at h
      · cases h
      · cases h
        exact .inr ⟨_, _, rfl⟩
  · exact .inr (ofChain_eq_error h)

theorem ofKind_eq_error {kind : FusedKind} {root : Call} {err : LoweringError}
    (h : ofKind kind root = .error err) :
    root.function? = none ∧ err = .unsupportedTarget root.description ∨
      ∃ expected found, err = .mismatch kind.family expected found := by
  rcases bind_eq_error_iff.1 h with h | ⟨p, -, h⟩
  · exact ofCall_eq_error h
  · split at h
    · cases h
    · cases h
      exact .inr ⟨_, _, rfl⟩

end Pattern

namespace Lowering

/-! ### What steps keep -/

/-- A step ends in good order: what it gives is as it should be, and if it fails it is not for
missing outputs. -/
inductive Orderly {α : Type} (good : Nat → α → Prop) : Except LoweringError α × Lowering → Prop
  | ok {a : α} {s : Lowering} : s.registry.WellFormed → good s.registry.nodes.length a →
      Orderly good (.ok a, s)
  | error {err : LoweringError} {s : Lowering} : s.registry.WellFormed →
      (∀ key, err ≠ .noOutputs key) → Orderly good (.error err, s)

theorem Orderly.wellFormed {α : Type} {good : Nat → α → Prop}
    {out : Except LoweringError α × Lowering} (h : Orderly good out) :
    out.2.registry.WellFormed := by
  cases h with
  | ok hs _ => exact hs
  | error hs _ => exact hs

theorem Orderly.ne_noOutputs {α : Type} {good : Nat → α → Prop}
    {out : Except LoweringError α × Lowering} (h : Orderly good out) (key : String) :
    out.1 ≠ .error (.noOutputs key) := by
  intro heq
  cases h with
  | ok => cases heq
  | error _ hreason =>
      cases heq
      exact hreason key rfl

/-- The outputs of an expression are the one of a node that is there. -/
def OneBefore (places : Nat) (entries : List Entry) : Prop :=
  ∃ place, place < places ∧ entries = [⟨place, 0, 0⟩]

theorem OneBefore.mono {m n : Nat} (hmn : m ≤ n) {entries : List Entry} (h : OneBefore m entries) :
    OneBefore n entries := by
  obtain ⟨place, hlt, rfl⟩ := h
  exact ⟨place, Nat.lt_of_lt_of_le hlt hmn, rfl⟩

/-- A kernel that was built takes outputs of nodes that are there. -/
structure KernelBefore (places : Nat) (node : Node) : Prop where
  op : node.op = .kernel
  outputs : node.outputs = 1
  inputs : ∀ e ∈ node.inputs, e.Precedes places

theorem orderly_add {s : Lowering} (h : s.registry.WellFormed) (id : Nat) {node : Node}
    (houtputs : node.outputs = 1) (hleaf : node.op ≠ .kernel → node.inputs = [])
    (hinputs : ∀ e ∈ node.inputs, e.Precedes s.registry.nodes.length) :
    Orderly OneBefore (add id node s) := by
  refine .ok (h.add id houtputs hleaf hinputs) ⟨s.registry.nodes.length, ?_, ?_⟩
  · show s.registry.nodes.length < (s.registry.nodes ++ [node]).length
    rw [List.length_append, List.length_singleton]
    omega
  · show Registry.entries s.registry.nodes.length node.outputs = _
    rw [houtputs]
    rfl

/-- The first output of an expression is there if its outputs are. -/
theorem Orderly.firstOf {key : String} {out : Except LoweringError (List Entry) × Lowering}
    (h : Orderly OneBefore out) :
    Orderly (fun n e => e.Precedes n) (Lowering.firstOf key out) := by
  cases h with
  | error hs hreason => exact .error hs hreason
  | ok hs hentries =>
      obtain ⟨place, hlt, rfl⟩ := hentries
      exact .ok hs ⟨hlt, rfl, rfl⟩

/-- Steps that end in good order do so one after the other. -/
theorem orderly_all {ι α : Type} {items : List ι} {f : ι → Step α} {good : Nat → α → Prop}
    (hmono : ∀ m n a, m ≤ n → good m a → good n a)
    (hgrow : ∀ i ∈ items, ∀ s, Extends s (f i s).2)
    (h : ∀ i ∈ items, ∀ s, s.registry.WellFormed → Orderly good (f i s)) {s : Lowering}
    (hs : s.registry.WellFormed) :
    Orderly (fun n xs => ∀ x ∈ xs, good n x) (Step.all (items.map f) s) := by
  induction items generalizing s with
  | nil => exact .ok hs fun x hx => by cases hx
  | cons i items ih =>
      have hi := h i List.mem_cons_self s hs
      rw [List.map_cons, Step.all]
      generalize f i s = out at hi ⊢
      cases hi with
      | error ht hreason => exact .error ht hreason
      | @ok a t ht hgood =>
          have hlater : ∀ j ∈ items, ∀ s, Extends s (f j s).2 := fun j hj =>
            hgrow j (List.mem_cons_of_mem i hj)
          have hrest := ih hlater (fun j hj => h j (List.mem_cons_of_mem i hj)) ht
          have hext : t.Extends (Step.all (items.map f) t).2 :=
            Step.rel_all Extends.refl (fun _ _ _ => Extends.trans) (List.forall_mem_map.2 hlater) t
          dsimp only
          generalize Step.all (items.map f) t = out at hrest hext ⊢
          cases hrest with
          | error hu hreason => exact .error hu hreason
          | ok hu hall =>
              exact .ok hu (List.forall_mem_cons.2 ⟨hmono _ _ a hext.nodes.length_le hgood, hall⟩)

/-- Arguments are lowered in good order if visits of them are. -/
theorem orderly_arguments {args : List Expr}
    (h : ∀ a ∈ args, ∀ s, s.registry.WellFormed → Orderly OneBefore (visit a s)) (op : String)
    {s : Lowering} (hs : s.registry.WellFormed) :
    Orderly (fun n inputs => ∀ entries ∈ inputs, OneBefore n entries)
      (Step.all (args.map visit) (noteOperator op s)) := by
  refine orderly_all (fun m n entries hmn hm => hm.mono hmn) (fun a _ => extends_visit a) h ?_
  unfold noteOperator
  split
  · exact hs
  · exact hs

/-- A kernel is built in good order if its operands are lowered so. -/
theorem orderly_ofPattern {p : Pattern} {root : Call}
    (h : ∀ o ∈ p.operands root, ∀ x, o.expr? = some x → ∀ s, s.registry.WellFormed →
      Orderly OneBefore (visit x s)) {s : Lowering} (hs : s.registry.WellFormed) :
    Orderly KernelBefore (ofPattern p root s) := by
  have hoperands : Orderly (fun n xs => ∀ e ∈ xs, e.Precedes n) (lowerOperands p root s) := by
    refine orderly_all (fun m n e hmn he => he.mono hmn)
      (fun o _ => rel_visitOperand Extends.refl fun x _ => extends_visit x) (fun o ho t ht => ?_) hs
    cases hx : o.expr? with
    | none =>
        rw [visitOperand_of_none hx]
        exact .error ht fun key hkey => by cases hkey
    | some x =>
        rw [visitOperand_of_some hx]
        exact (h o ho x hx t ht).firstOf
  rw [ofPattern_eq]
  cases p.check with
  | error v => exact .error hs fun key hkey => by cases hkey
  | ok _ =>
      dsimp only
      generalize lowerOperands p root s = out at hoperands ⊢
      cases hoperands with
      | error ht hreason => exact .error ht hreason
      | ok ht hinputs =>
          dsimp only
          cases p.attrs with
          | error v => exact .error ht fun key hkey => by cases hkey
          | ok attrs => exact .ok ht ⟨rfl, rfl, hinputs⟩

/-- A visit ends in good order, whether it succeeds or not. -/
theorem orderly_visit (e : Expr) (s : Lowering) (hs : s.registry.WellFormed) :
    Orderly OneBefore (visit e s) := by
  revert hs
  refine visit_induction (motive := fun _ s out => s.registry.WellFormed → Orderly OneBefore out)
    ?hit ?var ?constant ?function ?argument ?operator ?undeclared ?unmatched ?unbuilt ?fused e s
  case hit =>
      intro e s entries hlookup hs
      exact .ok hs (hs.memo e.id entries hlookup)
  case var =>
      intro id name type s _ hs
      exact orderly_add hs id rfl (fun _ => rfl) fun e he => by cases he
  case constant =>
      intro id value s _ hs
      rw [addConstant_eq]
      exact orderly_add (hs.addParam _ value) id rfl (fun _ => rfl) fun e he => by cases he
  case function =>
      intro id params body attrs s _ hs
      exact .error hs fun key hkey => by cases hkey
  case argument =>
      intro id op args attrs s err t _ ih hargs hs
      have hout := orderly_arguments ih op hs
      rw [hargs] at hout
      cases hout with
      | error ht hreason => exact .error ht hreason
  case operator =>
      intro id op args attrs s inputs t _ ih hargs hs
      have hout := orderly_arguments ih op hs
      rw [hargs] at hout
      cases hout with
      | ok ht hinputs =>
          refine orderly_add ht id rfl (fun h => absurd rfl h) fun e he => ?_
          obtain ⟨entries, hentries, he⟩ := List.mem_flatten.1 he
          obtain ⟨place, hlt, rfl⟩ := hinputs entries hentries
          rw [List.mem_singleton.1 he]
          exact ⟨hlt, rfl, rfl⟩
  case undeclared =>
      intro id callee args attrs s err t _ hkind hdeclared hs
      have ht : t.registry.WellFormed :=
        holds_of_declaredKind (P := fun t => t.registry.WellFormed) hdeclared hs fun _ => hs
      refine .error ht fun key hkey => ?_
      rcases Expr.fusedKind_eq_error_iff.1 hkind with
        ⟨-, rfl⟩ | ⟨f, -, ⟨-, rfl⟩ | ⟨name, -, -, rfl⟩⟩ <;> cases hkey
  case unmatched =>
      intro id callee args attrs s kind err _ _ hp hs
      refine .error hs fun key hkey => ?_
      rcases Pattern.ofKind_eq_error hp with ⟨-, rfl⟩ | ⟨expected, found, rfl⟩ <;> cases hkey
  case unbuilt =>
      intro id callee args attrs s kind p err t _ _ _ ih hnode hs
      have hout := orderly_ofPattern ih hs
      rw [hnode] at hout
      cases hout with
      | error ht hreason => exact .error ht hreason
  case fused =>
      intro id callee args attrs s kind p node t _ _ _ ih hnode hs
      have hout := orderly_ofPattern ih hs
      rw [hnode] at hout
      cases hout with
      | ok ht hkernel =>
          exact orderly_add (s := t.note _) ht id hkernel.outputs (fun h => absurd hkernel.op h)
            hkernel.inputs

theorem orderly_visitFirst (e : Expr) (s : Lowering) (hs : s.registry.WellFormed) :
    Orderly (fun n entry => entry.Precedes n) (visitFirst e s) := (orderly_visit e s hs).firstOf

theorem orderly_lower (family : Family) (root : Call) (s : Lowering) (hs : s.registry.WellFormed) :
    Orderly KernelBefore (lower family root s) := by
  unfold lower
  cases hp : Pattern.ofCall family root with
  | error err =>
      refine .error hs fun key hkey => ?_
      rcases Pattern.ofCall_eq_error hp with ⟨-, rfl⟩ | ⟨expected, found, rfl⟩ <;> cases hkey
  | ok p => exact orderly_ofPattern (fun o _ x _ => orderly_visit x) hs

end Lowering

/-! ### Graphs that are given out -/

/-- What holds of the nodes of a graph that is given out: its one head is an output of a node, and
before each node there are as many outputs as nodes. -/
structure Graph.WellFormed (g : Graph) : Prop where
  head : ∃ place node, g.heads = [⟨place, 0, 0⟩] ∧ g.resolve? ⟨place, 0, 0⟩ = some node
  rowPointers : g.rowPointers = (List.range (g.nodes.length + 1)).map UInt64.ofNat

theorem Graph.offsets_eq {nodes : List Node} (h : ∀ node ∈ nodes, node.outputs = 1) (start : Nat) :
    offsets (.ofNat start) nodes =
      (List.range' start (nodes.length + 1)).map UInt64.ofNat := by
  induction nodes generalizing start with
  | nil => rfl
  | cons node nodes ih =>
      obtain ⟨hnode, hrest⟩ := List.forall_mem_cons.1 h
      have hnext : UInt64.ofNat start + .ofNat node.outputs = .ofNat (start + 1) := by
        rw [hnode, UInt64.ofNat_add]
      rw [offsets, hnext, ih hrest (start + 1), List.length_cons, List.range'_succ]
      rfl

namespace Lowering

/-- The graph of a function is in good order, whatever was lowered before. -/
theorem orderly_serialize (f : Function) (s : Lowering) (hs : s.registry.WellFormed) :
    Orderly (fun _ g => g.WellFormed) (serialize f s) := by
  have hparams : Orderly (fun n outputs => ∀ entries ∈ outputs, OneBefore n entries)
      (Step.all (f.params.map visit) s) :=
    orderly_all (fun m n entries hmn hm => hm.mono hmn) (fun x _ => extends_visit x)
      (fun x _ => orderly_visit x) hs
  unfold serialize
  generalize Step.all (f.params.map visit) s = out at hparams ⊢
  cases hparams with
  | error ht hreason => exact .error ht hreason
  | @ok entries t ht _ =>
      dsimp only
      have hbody := orderly_visit f.body t ht
      generalize visit f.body t = out at hbody ⊢
      cases hbody with
      | error hu hreason => exact .error hu hreason
      | @ok heads u hu hheads =>
          obtain ⟨place, hlt, rfl⟩ := hheads
          refine .ok hu ⟨⟨place, u.registry.nodes[place], rfl, List.getElem?_eq_getElem hlt⟩, ?_⟩
          show Graph.offsets (.ofNat 0) u.registry.nodes = _
          rw [Graph.offsets_eq hu.outputs, List.range_eq_range']
          rfl

end Lowering

open Lowering

/-- A session leaves nodes in good order, also if some of its requests fail. A kernel that is built
for a call, without being added, takes outputs of nodes that are there; nothing ever fails for
missing outputs; and a graph that is given out has one head, of a node of its own. -/
theorem arena_wellFormed (symbol : String) (requests : List Request) :
    let s := (Session.run symbol requests).lowering
    s.registry.WellFormed ∧
    (∀ family root node t, lower family root s = (.ok node, t) →
      t.registry.WellFormed ∧ KernelBefore t.registry.nodes.length node) ∧
    (∀ key, (∀ e, (visit e s).1 ≠ .error (.noOutputs key)) ∧
      (∀ e, (visitFirst e s).1 ≠ .error (.noOutputs key)) ∧
      (∀ family root, (lower family root s).1 ≠ .error (.noOutputs key)) ∧
      ∀ f, (serialize f s).1 ≠ .error (.noOutputs key)) ∧
    ∀ f g t, serialize f s = (.ok g, t) →
      t.registry.WellFormed ∧ g = t.registry.toGraph symbol g.heads ∧ g.WellFormed := by
  intro s
  have hs : s.registry.WellFormed :=
    Session.invariant_run (P := fun s => s.registry.WellFormed) symbol Registry.wellFormed_empty
      (fun e s hs => (orderly_visit e s hs).wellFormed) requests
  have hsymbol : s.symbol = symbol :=
    Session.invariant_run (P := fun s => s.symbol = symbol) symbol rfl
      (fun e s hs => (extends_visit e s).symbol.trans hs) requests
  refine ⟨hs, fun family root node t h => ?_,
    fun key => ⟨fun e => ?_, fun e => ?_, fun family root => ?_, fun f => ?_⟩, fun f g t h => ?_⟩
  · have hout := orderly_lower family root s hs
    rw [h] at hout
    cases hout with
    | ok ht hkernel => exact ⟨ht, hkernel⟩
  · exact (orderly_visit e s hs).ne_noOutputs key
  · exact (orderly_visitFirst e s hs).ne_noOutputs key
  · exact (orderly_lower family root s hs).ne_noOutputs key
  · exact (orderly_serialize f s hs).ne_noOutputs key
  · have hout := orderly_serialize f s hs
    rw [h] at hout
    obtain ⟨entries, m, heads, hparams, hbody, rfl⟩ := serialize_eq_ok_iff.1 h
    have hext : s.Extends t := extends_serialize h
    rw [← hsymbol, ← hext.symbol]
    cases hout with
    | ok ht hg => exact ⟨ht, rfl, hg⟩

end KernelGraph
