import KernelGraph.Proofs.Declaration
import KernelGraph.Proofs.Walk

/-!
Which nodes a graph has, and in which order. Lowering walks from an expression to what it is lowered
over (`Expr.inputs`), and the nodes of a graph are those that the walk is finished with, each once
and in that order (`Emitted`), also after steps that failed. What is in the body of a fused function
is no node by itself: the walk does not go there but for the operands.
-/

namespace KernelGraph

/-- What an expression is lowered over: the arguments of an operator, and the operands that a fused
call promises. -/
def Expr.inputs : Expr → List Expr
  | .var .. | .constant .. | .function .. => []
  | .opCall _ _ args _ => args
  | .exprCall _ callee args attrs =>
    match callee.fusedKind with
    | .error _ => []
    | .ok kind =>
      match Pattern.ofKind kind ⟨.expr callee, args, attrs⟩ with
      | .error _ => []
      | .ok p => (kind.operands ⟨.expr callee, args, attrs⟩ p.links).filterMap Operand.expr?

namespace Expr

theorem inputs_exprCall (id : Nat) {callee : Expr} {args : List Expr} {attrs : Attributes}
    {kind : FusedKind} {p : Pattern} (hkind : callee.fusedKind = .ok kind)
    (hp : Pattern.ofKind kind ⟨.expr callee, args, attrs⟩ = .ok p) :
    (exprCall id callee args attrs).inputs =
      (p.operands ⟨.expr callee, args, attrs⟩).filterMap Operand.expr? := by
  rw [p.operands_eq, (Pattern.ofCall_of_ofKind hp).2, inputs]
  simp only [hkind, hp]

theorem mem_inputs (id : Nat) {callee : Expr} {args : List Expr} {attrs : Attributes}
    {kind : FusedKind} {p : Pattern} {o : Operand} {x : Expr} (hkind : callee.fusedKind = .ok kind)
    (hp : Pattern.ofKind kind ⟨.expr callee, args, attrs⟩ = .ok p)
    (ho : o ∈ p.operands ⟨.expr callee, args, attrs⟩) (hx : o.expr? = some x) :
    x ∈ (exprCall id callee args attrs).inputs := by
  rw [inputs_exprCall id hkind hp]
  exact List.mem_filterMap.2 ⟨o, ho, hx⟩

/-- What a fused call is lowered over are operands of its pattern. -/
theorem exists_operand {id : Nat} {callee : Expr} {args : List Expr} {attrs : Attributes} {x : Expr}
    (h : x ∈ (exprCall id callee args attrs).inputs) :
    ∃ kind p o, callee.fusedKind = .ok kind ∧
      Pattern.ofKind kind ⟨.expr callee, args, attrs⟩ = .ok p ∧
      o ∈ p.operands ⟨.expr callee, args, attrs⟩ ∧ o.expr? = some x := by
  cases hkind : callee.fusedKind with
  | error err =>
      rw [inputs] at h
      simp [hkind] at h
  | ok kind =>
      cases hp : Pattern.ofKind kind ⟨.expr callee, args, attrs⟩ with
      | error err =>
          rw [inputs] at h
          simp [hkind, hp] at h
      | ok p =>
          rw [inputs_exprCall id hkind hp] at h
          obtain ⟨o, ho, hx⟩ := List.mem_filterMap.1 h
          exact ⟨kind, p, o, rfl, hp, ho, hx⟩

theorem reaches_of_mem_inputs {e x : Expr} (h : x ∈ e.inputs) : e.Reaches x := by
  cases e with
  | var => cases h
  | constant => cases h
  | function => cases h
  | opCall id op args attrs => exact .step h (.refl x)
  | exprCall id callee args attrs =>
      obtain ⟨kind, p, o, -, hp, ho, hx⟩ := exists_operand h
      exact reaches_operand id hp ho hx

theorem size_lt_of_mem_inputs {e x : Expr} (h : x ∈ e.inputs) : x.size < e.size := by
  cases e with
  | var => cases h
  | constant => cases h
  | function => cases h
  | opCall id op args attrs => exact size_lt_of_mem_children h
  | exprCall id callee args attrs =>
      obtain ⟨kind, p, o, -, hp, ho, hx⟩ := exists_operand h
      exact Pattern.size_lt_of_mem_operands (Pattern.ofCall_of_ofKind hp).1 ho hx

end Expr

/-- The walk of lowering, from a node to what it is lowered over. -/
def Walk.lowering : Walk := ⟨Expr.inputs, Expr.size_lt_of_mem_inputs⟩

open Walk

theorem Expr.reaches_of_mem_lowering {e x : Expr} (h : x ∈ lowering.postorder e) : e.Reaches x := by
  rcases mem_postorder_iff.1 h with rfl | ⟨a, ha, hx⟩
  · exact .refl x
  · have hlt := Expr.size_lt_of_mem_inputs ha
    exact (Expr.reaches_of_mem_inputs ha).trans (reaches_of_mem_lowering hx)
termination_by e.size

theorem Expr.postorder_of_isVar {e : Expr} (h : e.isVar) : lowering.postorder e = [e] := by
  cases e with
  | var => exact postorder_eq _ _
  | constant | opCall | exprCall | function => cases h

/-- What is lowered for a function, in the order in which it is finished: the nodes of the walks
from the parameters and then from the body, each where it comes first. -/
def Function.order (f : Function) : List Expr :=
  Expr.distinct ((f.params ++ [f.body]).flatMap lowering.postorder)

namespace Function

theorem list_eq_order (f : Function) : lowering.list [] (f.params ++ [f.body]) = f.order :=
  enlist_nil_left _

theorem among_of_mem_order (f : Function) :
    ∀ x ∈ f.order, Expr.Among (f.params ++ [f.body]) x := by
  intro x hx
  rw [← list_eq_order] at hx
  rcases mem_of_mem_list hx with hx | ⟨e, he, hx⟩
  · cases hx
  · exact .of_mem he (Expr.reaches_of_mem_lowering hx)

theorem mem_order_iff (f : Function) (hids : Expr.Unambiguous (Expr.Among (f.params ++ [f.body])))
    {x : Expr} : x ∈ f.order ↔ ∃ e ∈ f.params ++ [f.body], x ∈ lowering.postorder e := by
  rw [← list_eq_order, mem_list_iff hids (fun y hy => by cases hy) fun d hd y hy =>
    .of_mem hd (Expr.reaches_of_mem_lowering hy)]
  simp

theorem mem_order_of_mem (f : Function)
    (hids : Expr.Unambiguous (Expr.Among (f.params ++ [f.body]))) {e : Expr}
    (he : e ∈ f.params ++ [f.body]) : e ∈ f.order :=
  (f.mem_order_iff hids).2 ⟨e, he, mem_postorder_self _ e⟩

/-- Parameters that are variables come first, whatever the body is. -/
theorem distinct_params_isPrefix (f : Function) (hvars : ∀ x ∈ f.params, x.isVar) :
    Expr.distinct f.params <+: f.order := by
  have hparams : f.params.flatMap lowering.postorder = f.params := by
    rw [List.flatMap_congr fun x hx => Expr.postorder_of_isVar (hvars x hx),
      List.flatMap_singleton']
  have hfirst : lowering.list [] f.params = Expr.distinct f.params := by
    rw [list, hparams, enlist_nil_left]
  rw [← hfirst, ← list_eq_order, list_append]
  exact prefix_list _ _

end Function

/-! ### The nodes of expressions -/

/-- The value of a constant. -/
def Expr.value? : Expr → Option Tensor
  | .constant _ value => some value
  | _ => none

/-- The constants of a graph whose nodes are those of `es`, numbered in order. -/
def constantTable (symbol : String) (es : List Expr) : List (String × Tensor) :=
  (es.filterMap Expr.value?).mapIdx fun k value => (Lowering.constantName symbol k, value)

/-- The output of a node in a graph whose nodes are those of `es`. -/
def Expr.entryIn (e : Expr) (es : List Expr) : Entry := ⟨e.placeIn es, 0, 0⟩

/-- The node of an expression in a graph whose nodes are those of `es`. -/
inductive Emits (symbol : String) (es : List Expr) : Expr → Node → Prop
  | input (id : Nat) (name : String) (type : Option TensorType) :
      Emits symbol es (.var id name type) (.input name type)
  | constant (id : Nat) (value : Tensor) :
      Emits symbol es (.constant id value) (.constant (Lowering.constantName symbol
        ((Expr.constant id value).placeIn (es.filter (·.value?.isSome)))) value)
  | operator (id : Nat) (op : String) (args : List Expr) (attrs : Attributes) :
      Emits symbol es (.opCall id op args attrs) (.kernel op (args.map (·.entryIn es)) 1 attrs)
  | fused (id : Nat) {callee : Expr} {args : List Expr} {attrs : Attributes} {kind : FusedKind}
      {p : Pattern} {xs : List Expr} {copied : Attributes} : callee.fusedKind = .ok kind →
      Pattern.ofKind kind ⟨.expr callee, args, attrs⟩ = .ok p →
      (kind.operands ⟨.expr callee, args, attrs⟩ p.links).map Operand.expr? = xs.map some →
      p.attrs = .ok copied →
      Emits symbol es (.exprCall id callee args attrs)
        ⟨.kernel, kind.kernelName, xs.map (·.entryIn es), 1, copied⟩

namespace Expr

theorem entryIn_of_isPrefix {e : Expr} {es ds : List Expr} (h : es <+: ds)
    (he : e.id ∈ es.map id) : e.entryIn ds = e.entryIn es := by
  rw [entryIn, entryIn, placeIn_of_isPrefix h he]

theorem map_entryIn_of_isPrefix {xs es ds : List Expr} (h : es <+: ds)
    (hxs : ∀ x ∈ xs, x.id ∈ es.map id) : xs.map (·.entryIn ds) = xs.map (·.entryIn es) :=
  List.map_congr_left fun x hx => entryIn_of_isPrefix h (hxs x hx)

end Expr

/-- What a fused call is lowered over, where all operands are there. -/
theorem Expr.inputs_eq_of_map {id : Nat} {callee : Expr} {args : List Expr} {attrs : Attributes}
    {kind : FusedKind} {p : Pattern} {xs : List Expr} (hkind : callee.fusedKind = .ok kind)
    (hp : Pattern.ofKind kind ⟨.expr callee, args, attrs⟩ = .ok p)
    (hxs : (kind.operands ⟨.expr callee, args, attrs⟩ p.links).map Operand.expr? = xs.map some) :
    (Expr.exprCall id callee args attrs).inputs = xs := by
  calc (Expr.exprCall id callee args attrs).inputs
      = ((kind.operands ⟨.expr callee, args, attrs⟩ p.links).map Operand.expr?).filterMap
          (fun x => x) := by
        rw [Expr.inputs, List.filterMap_map]
        simp only [hkind, hp]
        rfl
    _ = (xs.map some).filterMap (fun x => x) := by rw [hxs]
    _ = xs := by simp [List.filterMap_map]

/-- The node of an expression stays as it is when others are added. -/
theorem Emits.append {symbol : String} {es : List Expr} {x : Expr} {node : Node}
    (h : Emits symbol es x node) (hx : x ∈ es) (hinputs : x.inputs ⊆ es) (ds : List Expr) :
    Emits symbol (es ++ ds) x node := by
  have hprefix : es <+: es ++ ds := List.prefix_append es ds
  cases h with
  | input id name type => exact .input id name type
  | constant id value =>
      have hmem : Expr.constant id value ∈ es.filter (·.value?.isSome) :=
        List.mem_filter.2 ⟨hx, rfl⟩
      have hplace : (Expr.constant id value).placeIn ((es ++ ds).filter (·.value?.isSome)) =
          (Expr.constant id value).placeIn (es.filter (·.value?.isSome)) := by
        rw [List.filter_append]
        exact Expr.placeIn_of_isPrefix (List.prefix_append _ _) (List.mem_map_of_mem hmem)
      rw [← hplace]
      exact .constant id value
  | operator id op args attrs =>
      have hargs : args.map (·.entryIn (es ++ ds)) = args.map (·.entryIn es) :=
        Expr.map_entryIn_of_isPrefix hprefix fun a ha => List.mem_map_of_mem (hinputs ha)
      rw [← hargs]
      exact .operator id op args attrs
  | fused id hkind hp hxs hattrs =>
      rw [Expr.inputs_eq_of_map hkind hp hxs] at hinputs
      rw [← Expr.map_entryIn_of_isPrefix hprefix fun a ha => List.mem_map_of_mem (hinputs ha)]
      exact .fused id hkind hp hxs hattrs

namespace Lowering

/-- The nodes of a graph that is being built are those of `es`, in order. -/
structure Emitted (s : Lowering) (es : List Expr) : Prop where
  ordered : lowering.Ordered es
  nodes : List.Forall₂ (Emits s.symbol es) es s.registry.nodes
  table : Expr.Tabled (fun place => [⟨place, 0, 0⟩]) s.registry.lookup es
  params : s.registry.params = constantTable s.symbol es

namespace Emitted

theorem start (symbol : String) : Emitted (Lowering.start symbol) [] :=
  ⟨.nil, .nil, ⟨fun _ h => (by cases h), fun _ _ => rfl⟩, rfl⟩

theorem note {s : Lowering} {es : List Expr} (h : Emitted s es) (e : Event) :
    Emitted (s.note e) es := ⟨h.ordered, h.nodes, h.table, h.params⟩

theorem noteOperator {s : Lowering} {es : List Expr} (h : Emitted s es) (op : String) :
    Emitted (noteOperator op s) es := by
  unfold Lowering.noteOperator
  split
  · exact h
  · exact h.note _

theorem exists_node {s : Lowering} {es : List Expr} (h : Emitted s es) {x : Expr} (hx : x ∈ es) :
    ∃ node, s.registry.nodes[x.placeIn es]? = some node ∧ Emits s.symbol es x node := by
  have hplace : es[x.placeIn es]? = some x := Expr.getElem?_placeIn h.ordered.nodup hx
  obtain ⟨hlt, heq⟩ := List.getElem?_eq_some_iff.1 hplace
  have hlt' : x.placeIn es < s.registry.nodes.length := h.nodes.length_eq ▸ hlt
  have hnode := h.nodes.get hlt hlt'
  rw [List.get_eq_getElem, heq] at hnode
  exact ⟨_, List.getElem?_eq_getElem hlt', hnode⟩

/-- The node of an expression that is new comes last. -/
theorem add {s t : Lowering} {es : List Expr} (h : Emitted s es) {x : Expr} {node : Node}
    (hx : x.id ∉ es.map Expr.id) (hinputs : x.inputs ⊆ es) (hsymbol : t.symbol = s.symbol)
    (hregistry : t.registry = { s.registry with params := constantTable s.symbol (es ++ [x]) })
    (houtputs : node.outputs = 1) (hnode : Emits s.symbol (es ++ [x]) x node) :
    Emitted (add x.id node t).2 (es ++ [x]) ∧
      (Lowering.add x.id node t).1 = .ok [x.entryIn (es ++ [x])] := by
  have hlength : s.registry.nodes.length = es.length := h.nodes.length_eq.symm
  have hentry : Registry.entries t.registry.nodes.length node.outputs =
      [x.entryIn (es ++ [x])] := by
    rw [houtputs, hregistry, Expr.entryIn, Expr.placeIn_concat hx, ← hlength]
    rfl
  have htable : ∀ id, (Lowering.add x.id node t).2.registry.lookup id =
      if id = x.id then some [⟨es.length, 0, 0⟩] else s.registry.lookup id := by
    intro id
    rw [lookup_add, houtputs, hregistry, ← hlength]
    rfl
  refine ⟨⟨h.ordered.concat hx hinputs, ?_, h.table.concat hx htable, ?_⟩, ?_⟩
  · show List.Forall₂ (Emits t.symbol (es ++ [x])) (es ++ [x]) (t.registry.nodes ++ [node])
    have hold : List.Forall₂ (fun y n => y ∈ es ∧ Emits s.symbol es y n) es s.registry.nodes :=
      (List.forall₂_and_left _ _).2 ⟨fun y hy => hy, h.nodes⟩
    rw [hsymbol, hregistry]
    refine List.rel_append (hold.imp ?_) (.cons hnode .nil)
    rintro y n ⟨hy, hn⟩
    exact hn.append hy (h.ordered.next_subset y hy) [x]
  · show t.registry.params = constantTable t.symbol (es ++ [x])
    rw [hregistry, hsymbol]
  · exact congrArg Except.ok hentry

/-- The node of an expression that is no constant comes last, and no constant is recorded for it. -/
theorem add_of_value?_eq_none {s : Lowering} {es : List Expr} (h : Emitted s es) {x : Expr}
    {node : Node} (hx : x.id ∉ es.map Expr.id) (hinputs : x.inputs ⊆ es) (hvalue : x.value? = none)
    (houtputs : node.outputs = 1) (hnode : Emits s.symbol (es ++ [x]) x node) :
    Emitted (Lowering.add x.id node s).2 (es ++ [x]) ∧
      (Lowering.add x.id node s).1 = .ok [x.entryIn (es ++ [x])] := by
  refine h.add hx hinputs rfl ?_ houtputs hnode
  have hparams : constantTable s.symbol (es ++ [x]) = s.registry.params := by
    rw [h.params, constantTable, constantTable, List.filterMap_append,
      List.filterMap_cons_none hvalue, List.filterMap_nil, List.append_nil]
  rw [hparams]

/-- A constant is named by the number of those before it. -/
theorem addConstant {s : Lowering} {es : List Expr} (h : Emitted s es) {id : Nat} (value : Tensor)
    (hid : id ∉ es.map Expr.id) :
    Emitted (addConstant id value s).2 (es ++ [.constant id value]) ∧
      (Lowering.addConstant id value s).1 =
        .ok [(Expr.constant id value).entryIn (es ++ [.constant id value])] := by
  have hlength : s.registry.params.length = (es.filter (·.value?.isSome)).length := by
    rw [h.params, constantTable, List.length_mapIdx, List.length_filterMap_eq_countP,
      List.countP_eq_length_filter]
  have hfilter : (es ++ [Expr.constant id value]).filter (·.value?.isSome) =
      es.filter (·.value?.isSome) ++ [Expr.constant id value] := by
    rw [List.filter_append]
    rfl
  have hnew : (Expr.constant id value).id ∉ (es.filter (·.value?.isSome)).map Expr.id := fun hmem =>
    hid ((List.filter_sublist.map Expr.id).subset hmem)
  have hplace : s.registry.params.length = (Expr.constant id value).placeIn
      ((es ++ [Expr.constant id value]).filter (·.value?.isSome)) := by
    rw [hlength, hfilter, Expr.placeIn_concat hnew]
  have hparams : s.registry.params ++
      [(constantName s.symbol s.registry.params.length, value)] =
        constantTable s.symbol (es ++ [Expr.constant id value]) := by
    rw [constantTable, List.filterMap_append, h.params, constantTable, List.length_mapIdx]
    exact List.mapIdx_concat.symm
  rw [addConstant_eq, hplace]
  refine h.add (x := .constant id value) hid (List.nil_subset _) rfl ?_ rfl (.constant id value)
  rw [record, Registry.addParam, hparams]

end Emitted

/-! ### Lowering walks -/

/-- A step goes on from a graph whose nodes are those of `es`. If it succeeds, the nodes are those
that are expected with its result; if it fails, more nodes may have been added, too. -/
inductive Walked {α : Type} (nodes : Expr → Prop) (es : List Expr)
    (expected : List Expr → α → Prop) : Except LoweringError α × Lowering → Prop
  | ok {a : α} {t : Lowering} {ds : List Expr} : Emitted t ds → expected ds a →
      Walked nodes es expected (.ok a, t)
  | error {err : LoweringError} {t : Lowering} {ds : List Expr} : Emitted t ds → es <+: ds →
      (∀ x ∈ ds, nodes x) → Walked nodes es expected (.error err, t)

variable {nodes : Expr → Prop}

/-- Steps that walk from one expression each walk from all of them, one after the other. -/
theorem walked_all {ι α : Type} {items : List ι} {f : ι → Step α} (expr? : ι → Option Expr)
    (result : Entry → α)
    (hnodes : ∀ i ∈ items, ∀ d, expr? i = some d → ∀ x ∈ lowering.postorder d, nodes x)
    (h : ∀ i ∈ items, ∀ s es, Emitted s es → (∀ x ∈ es, nodes x) →
      Walked nodes es (fun ds a => ∃ d, expr? i = some d ∧ ds = lowering.list es [d] ∧
        a = result (d.entryIn ds)) (f i s))
    {s : Lowering} {es : List Expr} (hs : Emitted s es) (hes : ∀ x ∈ es, nodes x) :
    Walked nodes es (fun ds as => ∃ xs, items.map expr? = xs.map some ∧
      ds = lowering.list es xs ∧ as = xs.map fun x => result (x.entryIn ds))
      (Step.all (items.map f) s) := by
  induction items generalizing s es with
  | nil => exact .ok hs ⟨[], rfl, rfl, rfl⟩
  | cons i items ih =>
      have hi := h i List.mem_cons_self s es hs hes
      rw [List.map_cons, List.map_cons, Step.all]
      generalize f i s = out at hi ⊢
      cases hi with
      | error ht hprefix hds => exact .error ht hprefix hds
      | ok ht hexpected =>
          obtain ⟨d, hd, rfl, rfl⟩ := hexpected
          have hnext : ∀ x ∈ lowering.list es [d], nodes x :=
            forall_mem_list hes (List.forall_mem_singleton.2 (hnodes i List.mem_cons_self d hd))
          have hrest := ih (fun j hj => hnodes j (List.mem_cons_of_mem i hj))
            (fun j hj => h j (List.mem_cons_of_mem i hj)) ht hnext
          dsimp only
          generalize Step.all (items.map f) _ = out at hrest ⊢
          cases hrest with
          | error hu hprefix hds => exact .error hu ((prefix_list es [d]).trans hprefix) hds
          | ok hu hexpected =>
              obtain ⟨xs, hxs, rfl, rfl⟩ := hexpected
              refine .ok hu ⟨d :: xs, ?_, (list_cons es d xs).symm, ?_⟩
              · rw [hd, hxs, List.map_cons]
              · rw [List.map_cons,
                  Expr.entryIn_of_isPrefix (prefix_list _ xs) (id_mem_list List.mem_cons_self)]

theorem Walked.imp {α : Type} {es : List Expr} {P Q : List Expr → α → Prop}
    {out : Except LoweringError α × Lowering} (h : Walked nodes es P out)
    (hPQ : ∀ ds a, P ds a → Q ds a) : Walked nodes es Q out := by
  cases h with
  | ok ht ha => exact .ok ht (hPQ _ _ ha)
  | error ht hprefix hds => exact .error ht hprefix hds

theorem Walked.of_fst {α : Type} {es ds : List Expr} {expected : List Expr → α → Prop} {a : α}
    {out : Except LoweringError α × Lowering} (hds : Emitted out.2 ds) (h : out.1 = .ok a)
    (ha : expected ds a) : Walked nodes es expected out := by
  obtain ⟨result, t⟩ := out
  cases h
  exact .ok hds ha

/-- What is expected of a visit: the nodes of the walk are there, and the output is that of the
expression. -/
def Visited (es : List Expr) (e : Expr) (ds : List Expr) (entries : List Entry) : Prop :=
  ds = lowering.list es [e] ∧ entries = [e.entryIn ds]

/-- Arguments are walked from in order. -/
theorem walked_arguments {args : List Expr} {es : List Expr}
    (hnodes : ∀ a ∈ args, ∀ x ∈ lowering.postorder a, nodes x)
    (h : ∀ a ∈ args, ∀ s es, Emitted s es → (∀ x ∈ es, nodes x) →
      Walked nodes es (Visited es a) (visit a s))
    {s : Lowering} (hs : Emitted s es) (hes : ∀ x ∈ es, nodes x) :
    Walked nodes es (fun ds inputs => ds = lowering.list es args ∧
      inputs = args.map fun a => [a.entryIn ds]) (Step.all (args.map visit) s) := by
  have hall := walked_all (f := visit) some (fun entry => [entry])
    (fun a ha d hd => Option.some.inj hd ▸ hnodes a ha)
    (fun a ha t ds ht hds => (h a ha t ds ht hds).imp fun us entries ⟨hus, hentries⟩ =>
      ⟨a, rfl, hus, hentries⟩) hs hes
  refine hall.imp fun ds inputs ⟨xs, hxs, hds, hinputs⟩ => ?_
  obtain rfl : args = xs := List.map_injective_iff.2 (fun _ _ => Option.some.inj) hxs
  exact ⟨hds, hinputs⟩

section Patterns

variable {p : Pattern} {root : Call} {es : List Expr}
  (hnodes : ∀ o ∈ p.operands root, ∀ x, o.expr? = some x → ∀ y ∈ lowering.postorder x, nodes y)
  (h : ∀ o ∈ p.operands root, ∀ x, o.expr? = some x → ∀ s es, Emitted s es →
    (∀ y ∈ es, nodes y) → Walked nodes es (Visited es x) (visit x s))

include hnodes h in
/-- Operands are walked from in order, up to one that is not there. -/
theorem walked_lowerOperands {s : Lowering} (hs : Emitted s es) (hes : ∀ x ∈ es, nodes x) :
    Walked nodes es (fun ds inputs => ∃ xs, (p.operands root).map Operand.expr? = xs.map some ∧
      ds = lowering.list es xs ∧ inputs = xs.map (·.entryIn ds)) (lowerOperands p root s) := by
  refine walked_all Operand.expr? id hnodes (fun o ho t ds ht hds => ?_) hs hes
  cases hx : o.expr? with
  | none =>
      rw [visitOperand_of_none hx]
      exact .error ht (List.prefix_refl ds) hds
  | some x =>
      have hvisit := h o ho x hx t ds ht hds
      rw [visitOperand_of_some hx, visitFirst]
      generalize visit x t = out at hvisit
      cases hvisit with
      | ok hu hvisited =>
          obtain ⟨rfl, rfl⟩ := hvisited
          exact .ok hu ⟨x, rfl, rfl, rfl⟩
      | error hu hprefix hall => exact .error hu hprefix hall

include hnodes h in
theorem walked_ofPattern {s : Lowering} (hs : Emitted s es) (hes : ∀ x ∈ es, nodes x) :
    Walked nodes es (fun ds node => ∃ xs copied,
      (p.operands root).map Operand.expr? = xs.map some ∧ ds = lowering.list es xs ∧
        p.attrs = .ok copied ∧ node = ⟨.kernel, p.kernelName, xs.map (·.entryIn ds), 1, copied⟩)
      (ofPattern p root s) := by
  have hoperands := walked_lowerOperands hnodes h hs hes
  rw [ofPattern_eq]
  cases p.check with
  | error v => exact .error hs (List.prefix_refl es) hes
  | ok _ =>
      dsimp only
      generalize lowerOperands p root s = out at hoperands ⊢
      cases hoperands with
      | error ht hprefix hds => exact .error ht hprefix hds
      | ok ht hinputs =>
          obtain ⟨xs, hxs, rfl, rfl⟩ := hinputs
          dsimp only
          cases hattrs : p.attrs with
          | ok copied => exact .ok ht ⟨xs, copied, hxs, rfl, rfl, rfl⟩
          | error v =>
              -- the operands are lowered by now, and their nodes stay
              refine .error ht (prefix_list es xs) (forall_mem_list hes fun x hx => ?_)
              have hmem : some x ∈ (p.operands root).map Operand.expr? :=
                hxs ▸ List.mem_map_of_mem hx
              obtain ⟨o, ho, hox⟩ := List.mem_map.1 hmem
              exact hnodes o ho x hox

end Patterns

/-- What an expression is lowered over has its outputs when its own node is added. -/
theorem map_entryIn_inputs (hids : Expr.Unambiguous nodes) {es : List Expr} {e : Expr}
    (he : ∀ x ∈ lowering.postorder e, nodes x) (hnew : e.id ∉ es.map Expr.id) :
    e.inputs.map (·.entryIn (lowering.list es [e])) =
      e.inputs.map (·.entryIn (lowering.list es e.inputs)) :=
  Expr.map_entryIn_of_isPrefix (prefix_list_next hids he hnew) fun _ => id_mem_list

/-- The node of an expression comes after those of what it is lowered over. -/
theorem walked_add (hids : Expr.Unambiguous nodes) {es : List Expr} (hes : ∀ x ∈ es, nodes x)
    {e : Expr} (he : ∀ x ∈ lowering.postorder e, nodes x) (hnew : e.id ∉ es.map Expr.id)
    {t : Lowering} (ht : Emitted t (lowering.list es e.inputs)) {node : Node}
    (hvalue : e.value? = none) (houtputs : node.outputs = 1)
    (hnode : Emits t.symbol (lowering.list es [e]) e node) :
    Walked nodes es (Visited es e) (add e.id node t) := by
  have hinputs : ∀ d ∈ e.inputs, ∀ x ∈ lowering.postorder d, nodes x := fun d =>
    forall_postorder_next he
  have hlist : lowering.list es [e] = lowering.list es e.inputs ++ [e] :=
    list_of_not_mem hids he hnew
  have hmem : e.inputs ⊆ lowering.list es e.inputs := fun d hd =>
    (mem_list_iff hids hes hinputs).2 (.inr ⟨d, hd, mem_postorder_self _ d⟩)
  rw [hlist] at hnode
  obtain ⟨hu, hresult⟩ := ht.add_of_value?_eq_none (not_mem_list_next hids he hnew) hmem hvalue
    houtputs hnode
  exact .of_fst hu hresult ⟨hlist.symm, rfl⟩

/-- A visit adds the nodes of its walk that are not there yet. -/
theorem visit_walked (hids : Expr.Unambiguous nodes) (e : Expr) (s : Lowering) (es : List Expr)
    (hs : Emitted s es) (hes : ∀ x ∈ es, nodes x) (he : ∀ x ∈ lowering.postorder e, nodes x) :
    Walked nodes es (Visited es e) (visit e s) := by
  revert es hs hes he
  refine visit_induction (motive := fun e s out => ∀ es, Emitted s es → (∀ x ∈ es, nodes x) →
    (∀ x ∈ lowering.postorder e, nodes x) → Walked nodes es (Visited es e) out) ?hit ?var ?constant
    ?function ?argument ?operator ?undeclared ?unmatched ?unbuilt ?fused e s
  case hit =>
      intro e s entries hlookup es hs hes he
      have hid := hs.table.mem_of_lookup hlookup
      have hlist : lowering.list es [e] = es := list_of_mem hids hs.ordered hes he hid
      have hknown := hs.table.known e (mem_of_id_mem hids hes (he e (mem_postorder_self _ e)) hid)
      rw [hlookup] at hknown
      exact .ok hs ⟨hlist.symm, Option.some.inj hknown⟩
  case var =>
      intro id name type s hid es hs hes he
      exact walked_add hids hes he (hs.table.not_mem_of_lookup hid) hs rfl rfl (.input id name type)
  case constant =>
      intro id value s hid es hs hes he
      have hnew := hs.table.not_mem_of_lookup hid
      have hlist : lowering.list es [.constant id value] = es ++ [.constant id value] :=
        list_of_not_mem hids he hnew
      obtain ⟨hu, hresult⟩ := hs.addConstant value hnew
      exact .of_fst hu hresult ⟨hlist.symm, rfl⟩
  case function =>
      intro id params body attrs s _ es hs hes _
      exact .error hs (List.prefix_refl es) hes
  case argument =>
      intro id op args attrs s err t hid ih hargs es hs hes he
      have hnodes : ∀ a ∈ args, ∀ x ∈ lowering.postorder a, nodes x := fun a =>
        forall_postorder_next he
      have hout := walked_arguments hnodes
        (fun a ha u us hu hus => ih a ha u us hu hus (hnodes a ha)) (hs.noteOperator op) hes
      rw [hargs] at hout
      cases hout with
      | error ht hprefix hds => exact .error ht hprefix hds
  case operator =>
      intro id op args attrs s inputs t hid ih hargs es hs hes he
      have hnodes : ∀ a ∈ args, ∀ x ∈ lowering.postorder a, nodes x := fun a =>
        forall_postorder_next he
      have hnew := hs.table.not_mem_of_lookup hid
      have hout := walked_arguments hnodes
        (fun a ha u us hu hus => ih a ha u us hu hus (hnodes a ha)) (hs.noteOperator op) hes
      rw [hargs] at hout
      cases hout with
      | ok ht hinputs =>
          obtain ⟨rfl, rfl⟩ := hinputs
          have hentries : (args.map fun a => [a.entryIn (lowering.list es args)]).flatten =
              args.map (·.entryIn (lowering.list es [.opCall id op args attrs])) := by
            have hargs : args.map (·.entryIn (lowering.list es [.opCall id op args attrs])) =
                args.map (·.entryIn (lowering.list es args)) := map_entryIn_inputs hids he hnew
            rw [hargs, ← List.flatMap_def, List.map_eq_flatMap]
          rw [hentries]
          exact walked_add hids hes he hnew ht rfl rfl (.operator id op args attrs)
  case undeclared =>
      intro id callee args attrs s err t hid _ hdeclared es hs hes _
      have ht : Emitted t es :=
        holds_of_declaredKind (P := fun t => Emitted t es) hdeclared hs fun _ => hs.note _
      exact .error ht (List.prefix_refl es) hes
  case unmatched =>
      intro id callee args attrs s kind err _ _ _ es hs hes _
      exact .error (hs.note _) (List.prefix_refl es) hes
  case unbuilt =>
      intro id callee args attrs s kind p err t _ hkind hp ih hnode es hs hes he
      have hnodes : ∀ o ∈ p.operands ⟨.expr callee, args, attrs⟩, ∀ x, o.expr? = some x →
          ∀ y ∈ lowering.postorder x, nodes y := fun o ho x hx =>
        forall_postorder_next he (Expr.mem_inputs id hkind hp ho hx)
      have hout := walked_ofPattern hnodes
        (fun o ho x hx u us hu hus => ih o ho x hx u us hu hus (hnodes o ho x hx)) hs hes
      rw [hnode] at hout
      cases hout with
      | error ht hprefix hds => exact .error (ht.note _) hprefix hds
  case fused =>
      intro id callee args attrs s kind p node t hid hkind hp ih hnode es hs hes he
      have hnodes : ∀ o ∈ p.operands ⟨.expr callee, args, attrs⟩, ∀ x, o.expr? = some x →
          ∀ y ∈ lowering.postorder x, nodes y := fun o ho x hx =>
        forall_postorder_next he (Expr.mem_inputs id hkind hp ho hx)
      have hnew := hs.table.not_mem_of_lookup hid
      have hout := walked_ofPattern hnodes
        (fun o ho x hx u us hu hus => ih o ho x hx u us hu hus (hnodes o ho x hx)) hs hes
      rw [hnode] at hout
      cases hout with
      | ok ht hbuilt =>
          obtain ⟨xs, copied, hxs, rfl, hcopied, rfl⟩ := hbuilt
          obtain ⟨-, rfl⟩ := Pattern.ofCall_of_ofKind hp
          rw [p.operands_eq] at hxs
          obtain rfl : (Expr.exprCall id callee args attrs).inputs = xs :=
            Expr.inputs_eq_of_map hkind hp hxs
          rw [← map_entryIn_inputs hids he hnew, ← p.kernelName_kind]
          exact walked_add hids hes he hnew (ht.note _) rfl rfl (.fused id hkind hp hxs hcopied)

/-- Serialization adds the nodes of the walks from the parameters in order, and then from the body.
-/
theorem Emitted.serialize {f : Function} {s t : Lowering} {g : Graph} (hs : Emitted s [])
    (hids : Expr.Unambiguous (Expr.Among (f.params ++ [f.body])))
    (h : serialize f s = (.ok g, t)) :
    Emitted t f.order ∧ t.symbol = s.symbol ∧
      g = t.registry.toGraph s.symbol [f.body.entryIn f.order] := by
  obtain ⟨entries, m, heads, hparams, hbody, rfl⟩ := serialize_eq_ok_iff.1 h
  have hsymbol : t.symbol = s.symbol := (extends_serialize h).symbol
  have hnodes : ∀ e ∈ f.params ++ [f.body], ∀ x ∈ lowering.postorder e,
      Expr.Among (f.params ++ [f.body]) x := fun e he x hx =>
    .of_mem he (Expr.reaches_of_mem_lowering hx)
  have hfirst := walked_arguments (fun a ha => hnodes a (List.mem_append_left _ ha))
    (fun a ha s es hs hes => visit_walked hids a s es hs hes (hnodes a (List.mem_append_left _ ha)))
    hs fun x hx => by cases hx
  rw [hparams] at hfirst
  cases hfirst with
  | ok hm hentries =>
      obtain ⟨rfl, -⟩ := hentries
      have hparamNodes : ∀ x ∈ lowering.list [] f.params, Expr.Among (f.params ++ [f.body]) x :=
        forall_mem_list (fun x hx => by cases hx) fun d hd =>
          hnodes d (List.mem_append_left _ hd)
      have hlast := visit_walked hids f.body m _ hm hparamNodes
        (hnodes f.body (List.mem_append_right _ List.mem_cons_self))
      rw [hbody] at hlast
      cases hlast with
      | ok ht hheads =>
          obtain ⟨rfl, rfl⟩ := hheads
          rw [← list_append, f.list_eq_order] at ht ⊢
          exact ⟨ht, hsymbol, hsymbol ▸ rfl⟩

theorem serialize_emitted {f : Function} {symbol : String} {g : Graph} {t : Lowering}
    (hids : Expr.Unambiguous (Expr.Among (f.params ++ [f.body])))
    (h : serialize f (.start symbol) = (.ok g, t)) :
    Emitted t f.order ∧ t.symbol = symbol ∧
      g = t.registry.toGraph symbol [f.body.entryIn f.order] :=
  (Emitted.start symbol).serialize hids h

/-- The nodes of a graph are those of a walk from the parameters in order and then from the body,
each where it comes first: no expression has two nodes, and none has a node that is neither a
parameter, nor the body, nor an operand of a node. Parameters that are variables come first. -/
theorem serialize_postorder {f : Function} {symbol : String} {g : Graph} {t : Lowering}
    (hids : Expr.Unambiguous (Expr.Among (f.params ++ [f.body])))
    (h : serialize f (.start symbol) = (.ok g, t)) :
    List.Forall₂ (Emits symbol f.order) f.order g.nodes ∧ (f.order.map Expr.id).Nodup ∧
    (∀ x, x ∈ f.order ↔ x ∈ f.params ∨ x = f.body ∨ ∃ y ∈ f.order, x ∈ y.inputs) ∧
    (∀ x ∈ f.order, t.registry.lookup x.id = some [x.entryIn f.order]) ∧
    (∀ x, Expr.Among (f.params ++ [f.body]) x → x ∉ f.order → t.registry.lookup x.id = none) ∧
    g.heads = [f.body.entryIn f.order] ∧ g.params = constantTable symbol f.order ∧
    ((∀ x ∈ f.params, x.isVar) → Expr.distinct f.params <+: f.order) := by
  obtain ⟨ht, rfl, rfl⟩ := serialize_emitted hids h
  have hsources : ∀ x, x ∈ f.order ↔ x ∈ f.params ∨ x = f.body ∨ ∃ y ∈ f.order, x ∈ y.inputs := by
    intro x
    constructor
    · intro hx
      obtain ⟨e, he, hxe⟩ := (f.mem_order_iff hids).1 hx
      rcases eq_or_mem_next_of_mem_postorder hxe with rfl | ⟨y, hy, hxy⟩
      · exact (List.mem_append.1 he).imp_right fun hbody => .inl (List.mem_singleton.1 hbody)
      · exact .inr (.inr ⟨y, (f.mem_order_iff hids).2 ⟨e, he, hy⟩, hxy⟩)
    · rintro (hx | rfl | ⟨y, hy, hx⟩)
      · exact f.mem_order_of_mem hids (List.mem_append_left _ hx)
      · exact f.mem_order_of_mem hids (List.mem_append_right _ List.mem_cons_self)
      · exact ht.ordered.next_subset y hy hx
  have hunknown : ∀ x, Expr.Among (f.params ++ [f.body]) x → x ∉ f.order →
      t.registry.lookup x.id = none := fun x hx hnew =>
    ht.table.unknown x.id fun hid => hnew (mem_of_id_mem hids f.among_of_mem_order hx hid)
  exact ⟨ht.nodes, ht.ordered.nodup, hsources, ht.table.known, hunknown, rfl, ht.params,
    f.distinct_params_isPrefix⟩

end Lowering

namespace Sigmoids

theorem main_unambiguous : Expr.Unambiguous (Expr.Among ([data] ++ [outer])) :=
  unambiguous (by simp [nodes])

theorem serialize_isOk :
    ∃ g t, Lowering.serialize ⟨[data], outer, .empty⟩ (.start "main") = (.ok g, t) := by
  have hdata : data.tree = .ok (.input "data" none) := Expr.tree_var 7 "data" none
  exact (serialize_isOk_iff main_unambiguous).2
    ⟨List.forall_mem_singleton.2 ⟨_, hdata⟩, _, tree_outer⟩

theorem postorder_inner :
    lowering.postorder inner = [data, scale, zeroPoint, scale, zeroPoint, inner] := by
  have hdata : lowering.postorder data = [data] := Expr.postorder_of_isVar rfl
  have hscale : lowering.postorder scale = [scale] := postorder_eq _ _
  have hzero : lowering.postorder zeroPoint = [zeroPoint] := postorder_eq _ _
  rw [postorder_eq]
  show [data, scale, zeroPoint, scale, zeroPoint].flatMap lowering.postorder ++ [inner] = _
  simp [hdata, hscale, hzero]

theorem main_order : Function.order ⟨[data], outer, .empty⟩ =
    [data, scale, zeroPoint, inner, outer] := by
  have hdata : lowering.postorder data = [data] := Expr.postorder_of_isVar rfl
  have hscale : lowering.postorder scale = [scale] := postorder_eq _ _
  have hzero : lowering.postorder zeroPoint = [zeroPoint] := postorder_eq _ _
  have houter : lowering.postorder outer = [inner, scale, zeroPoint, scale, zeroPoint].flatMap
      lowering.postorder ++ [outer] := postorder_eq _ _
  rw [Function.order, List.flatMap_append, List.flatMap_singleton, List.flatMap_singleton, houter]
  simp only [List.flatMap_cons, List.flatMap_nil, hdata, hscale, hzero, postorder_inner]
  rfl

/-- Both calls share the constants of the fused function, of which no other node is in the graph. -/
theorem serialize_order : Expr.Unambiguous (Expr.Among ([data] ++ [outer])) ∧
    ∃ g t, Lowering.serialize ⟨[data], outer, .empty⟩ (.start "main") = (.ok g, t) ∧
      List.Forall₂ (Emits "main" [data, scale, zeroPoint, inner, outer])
        [data, scale, zeroPoint, inner, outer] g.nodes ∧ g.heads = [⟨4, 0, 0⟩] := by
  obtain ⟨g, t, h⟩ := serialize_isOk
  obtain ⟨hnodes, -, -, -, -, hheads, -⟩ := Lowering.serialize_postorder main_unambiguous h
  rw [main_order] at hnodes hheads
  exact ⟨main_unambiguous, g, t, h, hnodes, hheads⟩

end Sigmoids

end KernelGraph
