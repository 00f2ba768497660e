import KernelGraph.Proofs.ChainEnd
import KernelGraph.Proofs.Emission

/-!
Where the inputs of a graph come from. A call gives a fused function its data and nothing else: the
other operands are lowered as they stand in the body, in the scope of the function's parameters. So
a parameter that stands there is an input of the graph by itself (`serialize_wellScoped`), and the
arguments after the first are not looked at.
-/

namespace KernelGraph

open Walk

/-- All variables are bound, and functions are called with as many arguments as they have
parameters. A function binds its own parameters and sees no others. -/
inductive Expr.WellScoped : List Expr → Expr → Prop
  | var {bound : List Expr} {id : Nat} {name : String} {type : Option TensorType} :
      .var id name type ∈ bound → WellScoped bound (.var id name type)
  | constant {bound : List Expr} {id : Nat} {value : Tensor} :
      WellScoped bound (.constant id value)
  | opCall {bound : List Expr} {id : Nat} {op : String} {args : List Expr} {attrs : Attributes} :
      (∀ a ∈ args, WellScoped bound a) → WellScoped bound (.opCall id op args attrs)
  | exprCall {bound : List Expr} {id : Nat} {callee : Expr} {args : List Expr}
      {attrs : Attributes} : WellScoped bound callee → (∀ a ∈ args, WellScoped bound a) →
      (∀ fn, callee.function? = some fn → fn.params.length = args.length) →
      WellScoped bound (.exprCall id callee args attrs)
  | function {bound : List Expr} {id : Nat} {params : List Expr} {body : Expr}
      {attrs : Attributes} : (∀ x ∈ params, x.isVar) → WellScoped params body →
      WellScoped bound (.function id params body attrs)

/-- The operands of a kernel after the data, which the body has by itself. -/
def FusedKind.bodyOperands (kind : FusedKind) (links : List (Part × Call)) : List Operand :=
  kind.places.tail.filterMap fun p => p.part.bind fun part =>
    (links.lookup part).map fun c => ⟨c, p.position, p.role⟩

/-- What every call of a fused function is lowered over, besides the data. -/
def Expr.bodyOperands (callee : Expr) : List Expr :=
  match callee.fusedKind with
  | .error _ => []
  | .ok kind =>
    match Pattern.ofKind kind ⟨.expr callee, [], .empty⟩ with
    | .error _ => []
    | .ok p => (kind.bodyOperands p.links).filterMap Operand.expr?

/-- The node of a variable. -/
def Expr.inputNode? : Expr → Option Node
  | .var _ name type => some (.input name type)
  | _ => none

namespace FusedKind

theorem operands_eq_cons (kind : FusedKind) (root : Call) (links : List (Part × Call)) :
    kind.operands root links = ⟨root, 0, .data⟩ :: kind.bodyOperands links := by
  cases kind <;> rfl

theorem call_of_mem_bodyOperands {kind : FusedKind} {links : List (Part × Call)} {o : Operand}
    (h : o ∈ kind.bodyOperands links) : o.call ∈ links.map (·.2) := by
  obtain ⟨p, -, hp⟩ := List.mem_filterMap.1 h
  obtain ⟨part, -, hc⟩ := Option.bind_eq_some_iff.1 hp
  obtain ⟨c, hlookup, rfl⟩ := Option.map_eq_some_iff.1 hc
  obtain ⟨before, after, rfl, -⟩ := List.lookup_eq_some_iff.1 hlookup
  exact List.mem_map_of_mem (List.mem_append_right before List.mem_cons_self)

end FusedKind

namespace Expr

/-- A call is lowered over its data and what is in the body. -/
theorem inputs_eq_append {callee : Expr} {kind : FusedKind} {p : Pattern}
    (id : Nat) (args : List Expr) (attrs : Attributes) (hkind : callee.fusedKind = .ok kind)
    (hp : Pattern.ofKind kind ⟨.expr callee, args, attrs⟩ = .ok p) :
    (exprCall id callee args attrs).inputs = args[0]?.toList ++ callee.bodyOperands := by
  have hbody : Pattern.ofKind kind ⟨.expr callee, [], .empty⟩ = .ok p := hp
  have hdata : Operand.expr? ⟨⟨.expr callee, args, attrs⟩, 0, .data⟩ = args[0]? := rfl
  rw [inputs_exprCall id hkind hp, p.operands_eq, (Pattern.ofCall_of_ofKind hp).2,
    kind.operands_eq_cons, bodyOperands]
  simp only [hkind, hbody, List.filterMap_cons, hdata]
  cases args[0]? <;> rfl

theorem mem_inputs_exprCall {id : Nat} {callee : Expr} {args : List Expr} {attrs : Attributes}
    {x : Expr} (h : x ∈ (exprCall id callee args attrs).inputs) :
    x ∈ args ∨ x ∈ callee.bodyOperands := by
  obtain ⟨kind, p, o, hkind, hp, -, -⟩ := exists_operand h
  rw [inputs_eq_append id args attrs hkind hp] at h
  exact (List.mem_append.1 h).imp_left fun hx => List.mem_of_getElem? (Option.mem_toList.1 hx)

/-- What every call of a function is lowered over are arguments of calls of the body's chain. -/
theorem exists_call_of_mem_bodyOperands {callee x : Expr} (h : x ∈ callee.bodyOperands) :
    ∃ fn c, callee.function? = some fn ∧ c ∈ fn.body.chain ∧ x ∈ c.args := by
  unfold bodyOperands at h
  cases hkind : callee.fusedKind with
  | error err => simp [hkind] at h
  | ok kind =>
      cases hp : Pattern.ofKind kind ⟨.expr callee, [], .empty⟩ with
      | error err => simp [hkind, hp] at h
      | ok p =>
          simp only [hkind, hp] at h
          obtain ⟨o, ho, hx⟩ := List.mem_filterMap.1 h
          have hcall : o.call ∈ p.calls := p.map_snd_links ▸ FusedKind.call_of_mem_bodyOperands ho
          obtain ⟨chain, hchain, hpattern⟩ :=
            exists_of_bind_eq_ok (Pattern.ofCall_of_ofKind hp).1
          obtain ⟨fn, hfn, -, rfl⟩ := Pattern.chainOf_eq_ok_iff.1 hchain
          obtain ⟨rest, hrest⟩ := Pattern.calls_append_of_chain hpattern
          exact ⟨fn, o.call, hfn, hrest ▸ List.mem_append_left rest hcall,
            List.mem_of_getElem? hx⟩

namespace WellScoped

/-- The arguments of the calls of a chain are in the scope of the expression it starts from. -/
theorem of_mem_chain {bound : List Expr} {e a : Expr} {c : Call} (h : e.WellScoped bound)
    (hc : c ∈ e.chain) (ha : a ∈ c.args) : a.WellScoped bound := by
  fun_induction Expr.chain e with
  | case1 id op b args attrs ih =>
      cases h with
      | opCall hargs =>
          rcases List.mem_cons.1 hc with rfl | hc
          · exact hargs a ha
          · exact ih (hargs b List.mem_cons_self) hc
  | case2 id op attrs =>
      rw [List.mem_singleton.1 hc] at ha
      cases ha
  | case3 id callee b args attrs ih =>
      cases h with
      | exprCall _ hargs _ =>
          rcases List.mem_cons.1 hc with rfl | hc
          · exact hargs a ha
          · exact ih (hargs b List.mem_cons_self) hc
  | case4 id callee attrs =>
      rw [List.mem_singleton.1 hc] at ha
      cases ha
  | case5 => cases hc

/-- What the body of a function that is called has by itself is in the scope of its parameters. -/
theorem of_mem_bodyOperands {bound : List Expr} {callee x : Expr} (h : callee.WellScoped bound)
    (hx : x ∈ callee.bodyOperands) :
    ∃ fn, callee.function? = some fn ∧ x.WellScoped fn.params := by
  obtain ⟨fn, c, hfn, hc, hmem⟩ := exists_call_of_mem_bodyOperands hx
  cases h with
  | function _ hbody =>
      cases hfn
      exact ⟨_, rfl, hbody.of_mem_chain hc hmem⟩
  | var | constant | opCall | exprCall => cases hfn

end WellScoped

/-- A parameter of the function that is called stands in the body, as an operand or within one. -/
def TakesParam (call x : Expr) : Prop :=
  ∃ id callee args attrs fn y, call = .exprCall id callee args attrs ∧ callee.function? = some fn ∧
    x ∈ fn.params ∧ y ∈ callee.bodyOperands ∧ x ∈ lowering.postorder y

/-- A variable that a walk comes to is bound, or stands in the body of a function that is called. -/
theorem WellScoped.var_mem {bound : List Expr} {e x : Expr} (h : e.WellScoped bound)
    (hvar : x.isVar) (hx : x ∈ lowering.postorder e) :
    x ∈ bound ∨ ∃ call ∈ lowering.postorder e, call.TakesParam x := by
  rcases mem_postorder_iff.1 hx with rfl | ⟨a, (ha : a ∈ e.inputs), hxa⟩
  · cases h with
    | var hmem => exact .inl hmem
    | constant | opCall | exprCall | function => cases hvar
  · have hlt : a.size < e.size := size_lt_of_mem_inputs ha
    have hpostorder : ∀ call ∈ lowering.postorder a, call ∈ lowering.postorder e := by
      intro call hcall
      exact mem_postorder_iff.2 (.inr ⟨a, ha, hcall⟩)
    have hgo : a.WellScoped bound →
        x ∈ bound ∨ ∃ call ∈ lowering.postorder e, call.TakesParam x := fun hscope =>
      (hscope.var_mem hvar hxa).imp_right fun ⟨call, hcall, htakes⟩ =>
        ⟨call, hpostorder call hcall, htakes⟩
    cases h with
    | var | constant | function => cases ha
    | opCall hargs => exact hgo (hargs a ha)
    | exprCall hcallee hargs _ =>
        rcases mem_inputs_exprCall ha with hmem | hmem
        · exact hgo (hargs a hmem)
        · obtain ⟨fn, hfn, hscope⟩ := hcallee.of_mem_bodyOperands hmem
          rcases hscope.var_mem hvar hxa with hparam | ⟨call, hcall, htakes⟩
          · exact .inr ⟨_, mem_postorder_self _ _, _, _, _, _, fn, a, rfl, hfn, hparam, hmem, hxa⟩
          · exact .inr ⟨call, hpostorder call hcall, htakes⟩
termination_by e.size

end Expr

/-- The nodes of variables are the inputs of a graph. -/
theorem filter_input_of_emits {symbol : String} {es ds : List Expr} {nodes : List Node}
    (h : List.Forall₂ (Emits symbol es) ds nodes) :
    nodes.filter (·.op = .input) = ds.filterMap Expr.inputNode? := by
  induction h with
  | nil => rfl
  | cons hnode _ ih =>
      cases hnode with
      | input id name type => exact congrArg (Node.input name type :: ·) ih
      | constant | operator | fused => exact ih

theorem Expr.filterMap_inputNode? (es : List Expr) :
    (es.filter (·.isVar)).filterMap Expr.inputNode? = es.filterMap Expr.inputNode? := by
  rw [List.filterMap_filter]
  refine List.filterMap_congr fun x _ => ?_
  cases x <;> rfl

/-- What the kernel of a fused call takes: what the call is given first, and what the body has by
itself. -/
theorem Emits.inputs_eq {symbol : String} {es : List Expr} {id : Nat} {callee : Expr}
    {args : List Expr} {attrs : Attributes} {node : Node}
    (h : Emits symbol es (.exprCall id callee args attrs) node) :
    ∃ data, args[0]? = some data ∧
      (Expr.exprCall id callee args attrs).inputs = data :: callee.bodyOperands ∧
      node.op = .kernel ∧ node.inputs = (data :: callee.bodyOperands).map (·.entryIn es) := by
  cases h with
  | @fused _ _ _ _ kind p xs copied hkind hp hxs _ =>
      have hinputs : (Expr.exprCall id callee args attrs).inputs = xs :=
        Expr.inputs_eq_of_map hkind hp hxs
      rw [kind.operands_eq_cons, List.map_cons] at hxs
      cases xs with
      | nil => cases hxs
      | cons data xs =>
          have hdata : args[0]? = some data := (List.cons.inj hxs).1
          rw [Expr.inputs_eq_append id args attrs hkind hp, hdata] at hinputs ⊢
          rw [← hinputs]
          exact ⟨data, rfl, rfl, rfl, rfl⟩

theorem Lowering.Emitted.getElem?_of_isVar {s : Lowering} {es : List Expr} (h : Emitted s es)
    {x : Expr} (hx : x ∈ es) (hvar : x.isVar) :
    s.registry.nodes[x.placeIn es]? = x.inputNode? := by
  obtain ⟨node, hnode, hemits⟩ := h.exists_node hx
  cases hemits with
  | input => exact hnode
  | constant | operator | fused => cases hvar

/-- The kernel of a fused call that has a node. What it takes has nodes, too. -/
theorem Lowering.Emitted.exists_kernel {s : Lowering} {es : List Expr} (h : Emitted s es) {id : Nat}
    {callee : Expr} {args : List Expr} {attrs : Attributes}
    (hcall : .exprCall id callee args attrs ∈ es) : ∃ data node, args[0]? = some data ∧
      s.registry.nodes[(Expr.exprCall id callee args attrs).placeIn es]? = some node ∧
      node.op = .kernel ∧ node.inputs = (data :: callee.bodyOperands).map (·.entryIn es) ∧
      data :: callee.bodyOperands ⊆ es := by
  obtain ⟨node, hnode, hemits⟩ := h.exists_node hcall
  obtain ⟨data, hdata, hinputs, hop, htakes⟩ := hemits.inputs_eq
  exact ⟨data, node, hdata, hnode, hop, htakes, hinputs ▸ h.ordered.next_subset _ hcall⟩

namespace Function

variable {f : Function} (hids : Expr.Unambiguous (Expr.Among (f.params ++ [f.body])))

include hids in
/-- A variable that is lowered is a parameter, or stands in the body of a function called. -/
theorem exists_takesParam (hvars : ∀ x ∈ f.params, x.isVar) (hscope : f.body.WellScoped f.params)
    {x : Expr} (hvar : x.isVar) (hx : x ∈ f.order) (hnew : x ∉ f.params) :
    ∃ call ∈ f.order, call.TakesParam x := by
  obtain ⟨e, he, hxe⟩ := (f.mem_order_iff hids).1 hx
  rcases List.mem_append.1 he with hparam | hbody
  · rw [Expr.postorder_of_isVar (hvars e hparam)] at hxe
    exact absurd (List.mem_singleton.1 hxe ▸ hparam) hnew
  · obtain rfl := List.mem_singleton.1 hbody
    obtain ⟨call, hcall, htakes⟩ := (hscope.var_mem hvar hxe).resolve_left hnew
    exact ⟨call, (f.mem_order_iff hids).2 ⟨_, he, hcall⟩, htakes⟩

include hids in
theorem mem_distinct_params {x : Expr} : x ∈ Expr.distinct f.params ↔ x ∈ f.params :=
  mem_distinct_iff hids fun y hy => .of_mem (List.mem_append_left _ hy) (.refl y)

end Function

/-- A parameter that stands in a body is lowered, if a call of the function is. -/
theorem Lowering.Emitted.mem_of_takesParam {s : Lowering} {es : List Expr} (h : Emitted s es)
    {call x : Expr} (hcall : call ∈ es) (htakes : call.TakesParam x) : x ∈ es := by
  obtain ⟨id, callee, args, attrs, fn, y, rfl, -, -, hy, hx⟩ := htakes
  obtain ⟨data, -, -, -, -, -, hsubset⟩ := h.exists_kernel hcall
  exact h.ordered.postorder_subset (hsubset (List.mem_cons_of_mem data hy)) hx

namespace Lowering

/-- Where the inputs of a graph come from, and what fused calls take, for a function in which all
variables are bound. The inputs are its parameters and after them those parameters of fused
functions that stand in a body, as operands or within one. A call gives its kernel the data; the
other operands are those of the body, the same for all calls of a function. -/
theorem serialize_wellScoped {f : Function} {symbol : String} {g : Graph} {t : Lowering}
    (hids : Expr.Unambiguous (Expr.Among (f.params ++ [f.body])))
    (hvars : ∀ x ∈ f.params, x.isVar) (hscope : f.body.WellScoped f.params)
    (h : serialize f (.start symbol) = (.ok g, t)) :
    ∃ formals : List Expr, f.order.filter (·.isVar) = Expr.distinct f.params ++ formals ∧
      ((Expr.distinct f.params ++ formals).map Expr.id).Nodup ∧
      g.nodes.filter (·.op = .input) =
        (Expr.distinct f.params ++ formals).filterMap Expr.inputNode? ∧
      (∀ x ∈ Expr.distinct f.params ++ formals,
        g.resolve? (x.entryIn f.order) = x.inputNode?) ∧
      (∀ x, x ∈ formals ↔ x.isVar ∧ x ∉ f.params ∧ ∃ call ∈ f.order, call.TakesParam x) ∧
      ∀ id callee args attrs, .exprCall id callee args attrs ∈ f.order → ∃ data node,
        args[0]? = some data ∧
        g.nodes[(Expr.exprCall id callee args attrs).placeIn f.order]? = some node ∧
        node.op = .kernel ∧ node.inputs = (data :: callee.bodyOperands).map (·.entryIn f.order) ∧
        ∀ y ∈ data :: callee.bodyOperands, t.registry.lookup y.id = some [y.entryIn f.order] := by
  obtain ⟨ht, rfl, rfl⟩ := serialize_emitted hids h
  obtain ⟨rest, hrest⟩ := f.distinct_params_isPrefix hvars
  have hparams : ∀ x, x ∈ Expr.distinct f.params ↔ x ∈ f.params := fun _ =>
    Function.mem_distinct_params hids
  have hsplit : f.order.filter (·.isVar) = Expr.distinct f.params ++ rest.filter (·.isVar) := by
    rw [← hrest, List.filter_append, List.filter_eq_self.2 fun x hx => hvars x ((hparams x).1 hx)]
  have hnodup : ((Expr.distinct f.params ++ rest.filter (·.isVar)).map Expr.id).Nodup :=
    hsplit ▸ ht.ordered.nodup.sublist (List.filter_sublist.map Expr.id)
  have hinput : ∀ x ∈ Expr.distinct f.params ++ rest.filter (·.isVar),
      t.registry.nodes[x.placeIn f.order]? = x.inputNode? := by
    intro x hx
    rw [← hsplit] at hx
    exact ht.getElem?_of_isVar (List.mem_filter.1 hx).1 (List.mem_filter.1 hx).2
  refine ⟨rest.filter (·.isVar), hsplit, hnodup, ?_, hinput, fun x => ⟨fun hx => ?_, ?_⟩, ?_⟩
  · rw [← hsplit, Expr.filterMap_inputNode?]
    exact filter_input_of_emits ht.nodes
  · have hmem : x ∈ f.order.filter (·.isVar) := hsplit ▸ List.mem_append_right _ hx
    obtain ⟨horder, hvar⟩ := List.mem_filter.1 hmem
    have hnew : x ∉ f.params := fun hparam => by
      rw [List.map_append] at hnodup
      exact List.disjoint_of_nodup_append hnodup
        (List.mem_map_of_mem ((hparams x).2 hparam)) (List.mem_map_of_mem hx)
    exact ⟨hvar, hnew, Function.exists_takesParam hids hvars hscope hvar horder hnew⟩
  · rintro ⟨hvar, hnew, call, hcall, htakes⟩
    have hmem : x ∈ f.order.filter (·.isVar) :=
      List.mem_filter.2 ⟨ht.mem_of_takesParam hcall htakes, hvar⟩
    rw [hsplit] at hmem
    exact (List.mem_append.1 hmem).resolve_left fun hparam => hnew ((hparams x).1 hparam)
  · intro id callee args attrs hcall
    obtain ⟨data, node, hdata, hnode, hop, htakes, hsubset⟩ := ht.exists_kernel hcall
    exact ⟨data, node, hdata, hnode, hop, htakes, fun y hy => ht.table.known y (hsubset hy)⟩

end Lowering

/-! A call of a fused dense layer whose weight is its second parameter. -/

namespace ParamWeight

def data : Expr := .var 0 "data" none

def weights : Expr := .var 1 "weights" none

def param : Expr := .var 2 "x" none

def weightParam : Expr := .var 3 "w" none

def dense : Expr := .opCall 4 "nn.dense" [param, weightParam] .empty

def fused : Expr := .composite 5 "vsi_npu.dense" [param, weightParam] dense

def call : Expr := .exprCall 6 fused [data, weights] .empty

def main : Function := ⟨[data, weights], call, .empty⟩

theorem unambiguous : Expr.Unambiguous (Expr.Among (main.params ++ [main.body])) := by
  refine Expr.unambiguous_of_nodup [data, weights, param, weightParam, dense, fused, call] ?_ ?_
    (by decide)
  · simp [main]
  · simp [Expr.children, Expr.composite, data, weights, param, weightParam, dense, fused, call]

theorem vars : ∀ x ∈ main.params, x.isVar :=
  List.forall_mem_cons.2 ⟨rfl, List.forall_mem_singleton.2 rfl⟩

theorem wellScoped : main.body.WellScoped main.params := by
  have hdense : dense.WellScoped [param, weightParam] :=
    .opCall (List.forall_mem_cons.2
      ⟨.var List.mem_cons_self, List.forall_mem_singleton.2 (.var (by simp [param, weightParam]))⟩)
  have hfused : fused.WellScoped main.params :=
    .function (List.forall_mem_cons.2 ⟨rfl, List.forall_mem_singleton.2 rfl⟩) hdense
  refine .exprCall hfused (List.forall_mem_cons.2
    ⟨.var List.mem_cons_self, List.forall_mem_singleton.2 (.var (by simp [main, weights]))⟩) ?_
  rintro fn hfn
  cases hfn
  rfl

theorem order_eq : main.order = [data, weights, weightParam, call] := by
  have hdata : lowering.postorder data = [data] := Expr.postorder_of_isVar rfl
  have hweights : lowering.postorder weights = [weights] := Expr.postorder_of_isVar rfl
  have hparam : lowering.postorder weightParam = [weightParam] := Expr.postorder_of_isVar rfl
  have hcall : lowering.postorder call =
      [data, weightParam].flatMap lowering.postorder ++ [call] := postorder_eq _ _
  show Expr.distinct ([data, weights, call].flatMap lowering.postorder) = _
  simp only [List.flatMap_cons, List.flatMap_nil, hdata, hweights, hparam, hcall]
  rfl

theorem serialize_isOk :
    ∃ g t, Lowering.serialize main (.start "main") = (.ok g, t) := by
  have hdata : data.tree = .ok (.input "data" none) := Expr.tree_var _ _ _
  have hweights : weights.tree = .ok (.input "weights" none) := Expr.tree_var _ _ _
  have hparam : weightParam.tree = .ok (.input "w" none) := Expr.tree_var _ _ _
  have hkind : fused.fusedKind = .ok .dense := rfl
  have hp : Pattern.ofKind .dense ⟨.expr fused, [data, weights], .empty⟩ =
    .ok (.dense ⟨.op "nn.dense", [param, weightParam], .empty⟩ none none) := rfl
  have hcall : call.tree =
      .ok (.kernel "nn.dense" [.input "data" none, .input "w" none] .empty) := by
    rw [call, Expr.tree_fused 6 hkind hp]
    show Pattern.tree _ [data.tree, weightParam.tree] = _
    rw [hdata, hparam]
    rfl
  exact (serialize_isOk_iff unambiguous).2 ⟨List.forall_mem_cons.2
    ⟨⟨_, hdata⟩, List.forall_mem_singleton.2 ⟨_, hweights⟩⟩, _, hcall⟩

/-- The inputs of a graph need not be the parameters of its function. -/
theorem inputs_ne_params :
    ¬∀ (f : Function) (symbol : String) (g : Graph) (t : Lowering),
      Expr.Unambiguous (Expr.Among (f.params ++ [f.body])) → (∀ x ∈ f.params, x.isVar) →
      f.body.WellScoped f.params → Lowering.serialize f (.start symbol) = (.ok g, t) →
      g.nodes.filter (·.op = .input) = (Expr.distinct f.params).filterMap Expr.inputNode? := by
  intro h
  obtain ⟨g, t, hserialize⟩ := serialize_isOk
  have hinputs := h main "main" g t unambiguous vars wellScoped hserialize
  obtain ⟨ht, -, rfl⟩ := Lowering.serialize_emitted unambiguous hserialize
  have hnodes : t.registry.nodes.filter (·.op = .input) = main.order.filterMap Expr.inputNode? :=
    filter_input_of_emits ht.nodes
  rw [order_eq] at hnodes
  have hlength := congrArg List.length (hnodes.symm.trans hinputs)
  cases hlength

/-- The second argument is not looked at: the weights of the kernel are an input of their own. -/
theorem serialize_main : Expr.Unambiguous (Expr.Among (main.params ++ [main.body])) ∧
    (∀ x ∈ main.params, x.isVar) ∧ main.body.WellScoped main.params ∧
    ∃ g t node, Lowering.serialize main (.start "main") = (.ok g, t) ∧
      g.nodes.filter (·.op = .input) =
        [.input "data" none, .input "weights" none, .input "w" none] ∧
      g.nodes[3]? = some node ∧ node.inputs = [⟨0, 0, 0⟩, ⟨2, 0, 0⟩] := by
  obtain ⟨g, t, h⟩ := serialize_isOk
  obtain ⟨formals, hsplit, -, hinputs, -, -, hcalls⟩ :=
    Lowering.serialize_wellScoped unambiguous vars wellScoped h
  rw [← hsplit, order_eq] at hinputs
  have hmem : call ∈ main.order := by
    rw [order_eq]
    simp
  obtain ⟨x, node, hx, hnode, -, htakes, -⟩ := hcalls 6 fused [data, weights] .empty hmem
  cases hx
  rw [order_eq] at hnode htakes
  exact ⟨unambiguous, vars, wellScoped, g, t, node, h, hinputs, hnode, htakes⟩

end ParamWeight

end KernelGraph
