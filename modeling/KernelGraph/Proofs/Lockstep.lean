import KernelGraph.Proofs.ChainEnd
import KernelGraph.Proofs.Mapping
import KernelGraph.Proofs.Refinement

/-!
Two runs of lowering kept in step: one over an expression, the other over the same expression with
other identities and other attributes, in a graph that may have another name. As long as identities
stay apart and attributes change in no way that lowering takes notice of (`Unnoticed`), both runs
fail alike, or add nodes that differ in nothing but their attributes and the name of the graph
(`visit_mirrored`, `serialize_mirrored`).
-/

namespace KernelGraph

open Lowering

/-- The attributes that are looked at as layouts. -/
def layoutNames : List String := ["data_layout", "kernel_layout", "layout"]

/-- What is read of a value that should be a layout: its text, or else the name of its kind. -/
def AttrValue.layout : AttrValue → Except String String
  | text s => .ok s
  | v => .error v.kindName

/-- A relation between attributes of calls of which lowering takes no notice: what it reads of
related ones is the same, and what it copies of them is related again. -/
structure Unnoticed (A : Attributes → Attributes → Prop) : Prop where
  layout : ∀ {as bs}, A as bs → ∀ name ∈ layoutNames,
    (bs.get? name).map AttrValue.layout = (as.get? name).map AttrValue.layout
  padWidth : ∀ {as bs}, A as bs →
    (bs.get? padWidthName).bind AttrValue.grid? = (as.get? padWidthName).bind AttrValue.grid?
  copied : ∀ {as bs}, A as bs → A (Attributes.empty.extend as) (Attributes.empty.extend bs)
  set : ∀ {as bs}, A as bs → ∀ name value, A (as.set name value) (bs.set name value)

theorem unnoticed_eq : Unnoticed Eq where
  layout h name _ := by rw [h]
  padWidth h := by rw [h]
  copied h := by rw [h]
  set h name value := by rw [h]

/-! ### What is read of the calls of a pattern -/

section Reading

variable {A : Attributes → Attributes → Prop} (hA : Unnoticed A) {f : Nat → Nat}
  {g : Attributes → Attributes}

theorem Call.layout_eq (c : Call) (attr standard : String) :
    c.layout attr standard = match (c.attrs.get? attr).map AttrValue.layout with
      | none => .ok standard
      | some (.ok layout) => .ok layout
      | some (.error kind) => .error (.layoutKind attr kind) := by
  unfold Call.layout
  rcases c.attrs.get? attr with _ | v
  · rfl
  · cases v <;> rfl

include hA

namespace Call

theorem layout_map {c : Call} (hc : A c.attrs (g c.attrs)) {attr : String}
    (hattr : attr ∈ layoutNames) (standard : String) :
    (c.map f g).layout attr standard = c.layout attr standard := by
  have hsame : ((c.map f g).attrs.get? attr).map AttrValue.layout =
      (c.attrs.get? attr).map AttrValue.layout := hA.layout hc attr hattr
  rw [layout_eq, layout_eq, hsame]

theorem checkConvLayouts_map {c : Call} (hc : A c.attrs (g c.attrs)) :
    (c.map f g).checkConvLayouts = c.checkConvLayouts := by
  rw [checkConvLayouts, checkConvLayouts, convLayouts, convLayouts,
    layout_map hA hc (by simp [layoutNames]), layout_map hA hc (by simp [layoutNames])]

theorem checkPoolLayout_map {c : Call} (hc : A c.attrs (g c.attrs)) :
    (c.map f g).checkPoolLayout = c.checkPoolLayout := by
  rw [checkPoolLayout, checkPoolLayout, layout_map hA hc (by simp [layoutNames])]

theorem padding_map {c : Call} (hc : A c.attrs (g c.attrs)) :
    (c.map f g).padding = c.padding := by
  have hsame : ((c.map f g).attrs.get? padWidthName).bind AttrValue.grid? =
      (c.attrs.get? padWidthName).bind AttrValue.grid? := hA.padWidth hc
  rw [padding, padding, hsame]

end Call

omit hA in
theorem Expr.fusedKind_map {callee : Expr} (hname : ∀ F, callee.function? = some F →
    (g F.attrs).getText? compositeName = F.attrs.getText? compositeName) :
    (callee.map f g).fusedKind = callee.fusedKind := by
  rw [fusedKind, fusedKind, function?_map, typeKey_map]
  cases hF : callee.function? with
  | none => rfl
  | some F => simp only [Option.map_some, Function.map, hname F hF]

namespace Pattern

omit hA in
theorem mem_calls_of_pad? {p : Pattern} {pad : Call} (h : p.pad? = some pad) : pad ∈ p.calls := by
  cases p with
  | convolution | pool =>
      cases h
      simp [calls]
  | dense | activation | avgPool => cases h

variable {p : Pattern} (hp : ∀ c ∈ p.calls, A c.attrs (g c.attrs))

include hp

theorem check_map : (p.map f g).check = p.check := by
  rw [check_eq, check_eq, kind_map, compute_map,
    Call.checkConvLayouts_map hA (hp p.compute p.compute_mem_calls)]

theorem padding?_map : (p.map f g).padding? = p.padding? := by
  rw [padding?_eq, padding?_eq, kind_map, compute_map, pad?_map,
    Call.checkPoolLayout_map hA (hp p.compute p.compute_mem_calls)]
  cases h : p.pad? with
  | none => rfl
  | some pad =>
      simp only [Option.map_some, Call.padding_map hA (hp pad (mem_calls_of_pad? h))]

/-- The attributes of the kernel of a mapped pattern cannot be put together for the same reason, or
are related. -/
theorem attrs_map : (∃ v, p.attrs = .error v ∧ (p.map f g).attrs = .error v) ∨
    ∃ as bs, p.attrs = .ok as ∧ (p.map f g).attrs = .ok bs ∧ A as bs := by
  have hcopied := hA.copied (hp p.compute p.compute_mem_calls)
  rw [attrs, attrs, padding?_map hA hp, compute_map]
  rcases p.padding? with v | _ | padding
  · exact .inl ⟨v, rfl, rfl⟩
  · exact .inr ⟨_, _, rfl, rfl, hcopied⟩
  · exact .inr ⟨_, _, rfl, rfl, hA.set hcopied _ _⟩

end Pattern

end Reading

/-! ### Graphs in step -/

/-- Two nodes are the same but for their attributes, and for the names of the graphs in the names of
constants. -/
inductive Node.Alike (A : Attributes → Attributes → Prop) (symbol symbol' : String) :
    Node → Node → Prop
  | input (name : String) (type : Option TensorType) :
      Alike A symbol symbol' (.input name type) (.input name type)
  | constant (k : Nat) (value : Tensor) :
      Alike A symbol symbol' (.constant (constantName symbol k) value)
        (.constant (constantName symbol' k) value)
  | kernel (name : String) (inputs : List Entry) (outputs : Nat) {as bs : Attributes} : A as bs →
      Alike A symbol symbol' ⟨.kernel, name, inputs, outputs, as⟩
        ⟨.kernel, name, inputs, outputs, bs⟩

/-- Two constants have one value, and names with one number. -/
def ConstantAlike (symbol symbol' : String) (c d : String × Tensor) : Prop :=
  ∃ k, c.1 = constantName symbol k ∧ d.1 = constantName symbol' k ∧ d.2 = c.2

namespace Node.Alike

variable {A : Attributes → Attributes → Prop} {symbol symbol' : String} {m n : Node}

theorem op (h : Alike A symbol symbol' m n) : n.op = m.op := by
  cases h <;> rfl

theorem outputs (h : Alike A symbol symbol' m n) : n.outputs = m.outputs := by
  cases h <;> rfl

/-- Nodes that may differ in nothing are the same. -/
theorem eq (h : Alike Eq symbol symbol m n) : n = m := by
  cases h with
  | input | constant => rfl
  | kernel name inputs outputs hattrs => rw [hattrs]

end Node.Alike

/-- Two graphs are the same but for the attributes of kernels, and for their names. -/
structure Graph.Alike (A : Attributes → Attributes → Prop) (g g' : Graph) : Prop where
  nodes : List.Forall₂ (Node.Alike A g.symbol g'.symbol) g.nodes g'.nodes
  argNodes : g'.argNodes = g.argNodes
  heads : g'.heads = g.heads
  params : List.Forall₂ (ConstantAlike g.symbol g'.symbol) g.params g'.params

section Steps

variable (nodes : Expr → Prop) (A : Attributes → Attributes → Prop) (f : Nat → Nat)

/-- Two graphs that are being built are in step: nodes are known by the identities that correspond
to each other, and what was added is the same but for attributes and the graphs' names. -/
structure Mirrors (s t : Lowering) : Prop where
  lookup : ∀ x, nodes x → t.registry.lookup (f x.id) = s.registry.lookup x.id
  nodes : List.Forall₂ (Node.Alike A s.symbol t.symbol) s.registry.nodes t.registry.nodes
  argNodes : t.registry.argNodes = s.registry.argNodes
  params : List.Forall₂ (ConstantAlike s.symbol t.symbol) s.registry.params t.registry.params

/-- Two steps end alike, and in graphs that are in step. -/
structure Mirrored {α β : Type} (R : α → β → Prop) (out : Except LoweringError α × Lowering)
    (out' : Except LoweringError β × Lowering) : Prop where
  agrees : Agrees R out.1 out'.1
  mirrors : Mirrors nodes A f out.2 out'.2

variable {nodes A f} (hf : ∀ x y, nodes x → nodes y → f x.id = f y.id → x.id = y.id)

namespace Mirrors

variable {s t : Lowering} (h : Mirrors nodes A f s t)

theorem start (symbol symbol' : String) : Mirrors nodes A f (.start symbol) (.start symbol') :=
  ⟨fun _ _ => rfl, .nil, rfl, .nil⟩

include h

theorem note (e e' : Event) : Mirrors nodes A f (s.note e) (t.note e') :=
  ⟨h.lookup, h.nodes, h.argNodes, h.params⟩

theorem noteOperator (op : String) :
    Mirrors nodes A f (noteOperator op s) (noteOperator op t) := by
  unfold Lowering.noteOperator
  by_cases hop : (Operator.ofName? op).isSome
  · rw [if_pos hop, if_pos hop]
    exact h
  · rw [if_neg hop, if_neg hop]
    exact h.note _ _

include hf in
/-- Nodes that are alike are added alike. -/
theorem add {x : Expr} (hx : nodes x) {node node' : Node}
    (hnode : Node.Alike A s.symbol t.symbol node node') :
    Mirrored nodes A f Eq (Lowering.add x.id node s) (Lowering.add (f x.id) node' t) := by
  have hlength : t.registry.nodes.length = s.registry.nodes.length := h.nodes.length_eq.symm
  have hentries : Registry.entries t.registry.nodes.length node'.outputs =
      Registry.entries s.registry.nodes.length node.outputs := by
    rw [hlength, hnode.outputs]
  refine ⟨?_, fun y hy => ?_, ?_, ?_, h.params⟩
  · exact .ok hentries.symm
  · rw [lookup_add, lookup_add, hentries]
    by_cases hid : y.id = x.id
    · rw [if_pos hid, if_pos (congrArg f hid)]
    · rw [if_neg hid, if_neg (mt (hf y x hy hx) hid), h.lookup y hy]
  · exact List.rel_append h.nodes (.cons hnode .nil)
  · show (if node'.op.isArg then t.registry.argNodes ++ [_] else _) =
      if node.op.isArg then s.registry.argNodes ++ [_] else _
    rw [hnode.op, h.argNodes, hlength]

include hf in
theorem addConstant {id : Nat} {value : Tensor} (hx : nodes (.constant id value)) :
    Mirrored nodes A f Eq (addConstant id value s) (addConstant (f id) value t) := by
  have hnumber : t.registry.params.length = s.registry.params.length := h.params.length_eq.symm
  have hrecord : Mirrors nodes A f (s.record value) (t.record value) := by
    refine ⟨h.lookup, h.nodes, h.argNodes, List.rel_append h.params (.cons ?_ .nil)⟩
    exact ⟨s.registry.params.length, rfl, by rw [hnumber], rfl⟩
  rw [addConstant_eq, addConstant_eq, hnumber]
  exact hrecord.add hf hx (.constant s.registry.params.length value)

end Mirrors

theorem Mirrored.error {α β : Type} {R : α → β → Prop} {s t : Lowering}
    (h : Mirrors nodes A f s t) (err : LoweringError) :
    Mirrored nodes A f R (.error err, s) (.error err, t) :=
  ⟨.error err, h⟩

/-- Steps that are in step stay so one after the other. -/
theorem mirrored_all {ι κ α β : Type} {R : α → β → Prop} {m : ι → κ} {step : ι → Step α}
    {step' : κ → Step β} {items : List ι}
    (hstep : ∀ i ∈ items, ∀ s t, Mirrors nodes A f s t →
      Mirrored nodes A f R (step i s) (step' (m i) t))
    {s t : Lowering} (h : Mirrors nodes A f s t) :
    Mirrored nodes A f (List.Forall₂ R) (Step.all (items.map step) s)
      (Step.all ((items.map m).map step') t) := by
  induction items generalizing s t with
  | nil => exact ⟨.ok .nil, h⟩
  | cons i items ih =>
      have hi := hstep i List.mem_cons_self s t h
      rw [List.map_cons, List.map_cons, List.map_cons, Step.all, Step.all]
      generalize step i s = out at hi ⊢
      generalize step' (m i) t = out' at hi ⊢
      obtain ⟨result, u⟩ := out
      obtain ⟨result', u'⟩ := out'
      obtain ⟨hagrees, hu⟩ := hi
      cases hagrees with
      | error err => exact .error hu err
      | ok hab =>
          have hrest := ih (fun j hj => hstep j (List.mem_cons_of_mem i hj)) hu
          dsimp only
          generalize Step.all (items.map step) u = out at hrest ⊢
          generalize Step.all ((items.map m).map step') u' = out' at hrest ⊢
          obtain ⟨result, v⟩ := out
          obtain ⟨result', v'⟩ := out'
          obtain ⟨hagrees, hv⟩ := hrest
          cases hagrees with
          | error err => exact .error hv err
          | ok hall => exact ⟨.ok (.cons hab hall), hv⟩

theorem Mirrored.firstOf {key : String} {out out' : Except LoweringError (List Entry) × Lowering}
    (h : Mirrored nodes A f Eq out out') :
    Mirrored nodes A f Eq (firstOf key out) (firstOf key out') := by
  obtain ⟨result, s⟩ := out
  obtain ⟨result', t⟩ := out'
  obtain ⟨hagrees, hst⟩ := h
  cases hagrees with
  | error err => exact .error hst err
  | @ok entries _ heq =>
      subst heq
      rcases entries with _ | ⟨entry, entries⟩
      · exact .error hst _
      · exact ⟨.ok rfl, hst⟩

end Steps

/-! ### Visits in step -/

section Visits

variable {nodes : Expr → Prop} {A : Attributes → Attributes → Prop} (hA : Unnoticed A)
  {f : Nat → Nat} (hf : ∀ x y, nodes x → nodes y → f x.id = f y.id → x.id = y.id)
  {g : Attributes → Attributes}
  (hcalls : ∀ x, nodes x → ∀ c, x.call? = some c → A c.attrs (g c.attrs))
  (hnames : ∀ x, nodes x → ∀ F, x.function? = some F →
    (g F.attrs).getText? compositeName = F.attrs.getText? compositeName)

/-- Operands are lowered in step if visits of them are. -/
theorem mirrored_lowerOperands {p : Pattern} {root : Call}
    (hvisit : ∀ o ∈ p.operands root, ∀ x, o.expr? = some x → ∀ s t, Mirrors nodes A f s t →
      Mirrored nodes A f Eq (visit x s) (visit (x.map f g) t))
    {s t : Lowering} (h : Mirrors nodes A f s t) :
    Mirrored nodes A f Eq (lowerOperands p root s)
      (lowerOperands (p.map f g) (root.map f g) t) := by
  rw [lowerOperands, lowerOperands, Pattern.operands_map, Pattern.family_map,
    ← List.forall₂_eq_eq_eq]
  refine mirrored_all (fun o ho u v huv => ?_) h
  cases hx : o.expr? with
  | none =>
      have hx' : (o.map f g).expr? = none := by rw [Operand.expr?_map, hx, Option.map_none]
      rw [visitOperand_of_none hx, visitOperand_of_none hx', Operand.missing_map]
      exact .error huv _
  | some x =>
      have hx' : (o.map f g).expr? = some (x.map f g) := by
        rw [Operand.expr?_map, hx, Option.map_some]
      rw [visitOperand_of_some hx, visitOperand_of_some hx', visitFirst, visitFirst,
        Expr.typeKey_map]
      exact (hvisit o ho x hx u v huv).firstOf

include hA in
/-- Kernels are built in step if visits of their operands are. -/
theorem mirrored_ofPattern {p : Pattern} {root : Call}
    (hcalls : ∀ c ∈ p.calls, A c.attrs (g c.attrs))
    (hvisit : ∀ o ∈ p.operands root, ∀ x, o.expr? = some x → ∀ s t, Mirrors nodes A f s t →
      Mirrored nodes A f Eq (visit x s) (visit (x.map f g) t))
    {s t : Lowering} (h : Mirrors nodes A f s t) :
    Mirrored nodes A f (fun m n => ∀ symbol symbol', Node.Alike A symbol symbol' m n)
      (ofPattern p root s) (ofPattern (p.map f g) (root.map f g) t) := by
  have hoperands := mirrored_lowerOperands hvisit h
  rw [ofPattern_eq, ofPattern_eq, Pattern.check_map hA hcalls, Pattern.family_map,
    Pattern.kernelName_map]
  cases p.check with
  | error v => exact .error h _
  | ok _ =>
      dsimp only
      generalize lowerOperands p root s = out at hoperands ⊢
      generalize lowerOperands (p.map f g) (root.map f g) t = out' at hoperands ⊢
      obtain ⟨result, u⟩ := out
      obtain ⟨result', v⟩ := out'
      obtain ⟨hagrees, huv⟩ := hoperands
      cases hagrees with
      | error err => exact .error huv err
      | @ok inputs _ heq =>
          subst heq
          rcases Pattern.attrs_map hA hcalls with ⟨v, hv, hv'⟩ | ⟨as, bs, has, hbs, hattrs⟩
          · rw [hv, hv']
            exact .error huv _
          · rw [has, hbs]
            exact ⟨.ok fun symbol symbol' => .kernel _ _ _ hattrs, huv⟩

include hA hf in
/-- A call of an operator is lowered in step if visits of its arguments are in step. -/
theorem mirrored_opCall {id : Nat} {op : String} {args : List Expr} {attrs : Attributes}
    (hx : nodes (.opCall id op args attrs)) (hattrs : A attrs (g attrs))
    (hvisit : ∀ a ∈ args, ∀ s t, Mirrors nodes A f s t →
      Mirrored nodes A f Eq (visit a s) (visit (a.map f g) t))
    {s t : Lowering} (h : Mirrors nodes A f s t) :
    Mirrored nodes A f Eq (addCall id op attrs (Step.all (args.map visit) s))
      (addCall (f id) op (g attrs) (Step.all ((args.map fun a => a.map f g).map visit) t)) := by
  have hargs : Mirrored nodes A f (List.Forall₂ Eq) (Step.all (args.map visit) s)
      (Step.all ((args.map fun a => a.map f g).map visit) t) := mirrored_all hvisit h
  generalize Step.all (args.map visit) s = out at hargs ⊢
  generalize Step.all ((args.map fun a => a.map f g).map visit) t = out' at hargs ⊢
  obtain ⟨result, u⟩ := out
  obtain ⟨result', v⟩ := out'
  obtain ⟨hagrees, huv⟩ := hargs
  cases hagrees with
  | error err => exact .error huv err
  | ok hall =>
      rw [List.forall₂_eq_eq_eq] at hall
      subst hall
      exact huv.add hf hx (.kernel op _ 1 (hA.copied hattrs))

include hA hf in
/-- The kernel of a fused call is built and added in step if visits of its operands are in step. -/
theorem mirrored_lowerKind {id : Nat} {callee : Expr} {args : List Expr} {attrs : Attributes}
    (hx : nodes (.exprCall id callee args attrs)) {kind : FusedKind}
    (hcalls : ∀ p, Pattern.ofKind kind ⟨.expr callee, args, attrs⟩ = .ok p →
      ∀ c ∈ p.calls, A c.attrs (g c.attrs))
    (hvisit : ∀ p, Pattern.ofKind kind ⟨.expr callee, args, attrs⟩ = .ok p →
      ∀ o ∈ p.operands ⟨.expr callee, args, attrs⟩, ∀ x, o.expr? = some x →
      ∀ s t, Mirrors nodes A f s t → Mirrored nodes A f Eq (visit x s) (visit (x.map f g) t))
    {s t : Lowering} (h : Mirrors nodes A f s t) :
    Mirrored nodes A f Eq (addKernel id kind (lowerKind kind ⟨.expr callee, args, attrs⟩ s))
      (addKernel (f id) kind
        (lowerKind kind (Call.map f g ⟨.expr callee, args, attrs⟩) t)) := by
  rw [lowerKind, lowerKind, Pattern.ofKind_map]
  cases hp : Pattern.ofKind kind ⟨.expr callee, args, attrs⟩ with
  | error err => exact .error (h.note _ _) err
  | ok p =>
      have hnode := mirrored_ofPattern hA (hcalls p hp) (hvisit p hp) h
      dsimp only [Except.map]
      generalize ofPattern p ⟨.expr callee, args, attrs⟩ s = out at hnode ⊢
      generalize ofPattern (p.map f g) (Call.map f g ⟨.expr callee, args, attrs⟩) t = out'
        at hnode ⊢
      obtain ⟨result, u⟩ := out
      obtain ⟨result', v⟩ := out'
      obtain ⟨hagrees, huv⟩ := hnode
      cases hagrees with
      | error err => exact .error (huv.note _ _) err
      | ok halike => exact (huv.note _ _).add hf hx (halike _ _)

/-- Asking for the declared kind keeps graphs in step. -/
theorem mirrored_declaredKind {callee callee' : Expr} (hkind : callee'.fusedKind = callee.fusedKind)
    {s t : Lowering} (h : Mirrors nodes A f s t) :
    Mirrored nodes A f Eq (declaredKind callee s) (declaredKind callee' t) := by
  have hs : Mirrors nodes A f (declaredKind callee s).2 t := by
    rcases declaredKind_snd callee s with heq | ⟨e, heq⟩
    · rwa [heq]
    · rw [heq]
      exact ⟨h.lookup, h.nodes, h.argNodes, h.params⟩
  refine ⟨?_, ?_⟩
  · rw [declaredKind_fst, declaredKind_fst, hkind]
    cases callee.fusedKind with
    | error err => exact .error err
    | ok kind => exact .ok rfl
  · rcases declaredKind_snd callee' t with heq | ⟨e, heq⟩
    · rwa [heq]
    · rw [heq]
      exact ⟨hs.lookup, hs.nodes, hs.argNodes, hs.params⟩

include hA hf hcalls hnames in
/-- A call of a fused function is visited in step if the operands of its pattern are. -/
theorem mirrored_exprCall {id : Nat} {callee : Expr} {args : List Expr} {attrs : Attributes}
    (hx : nodes (.exprCall id callee args attrs))
    (hroot : ∀ x, Expr.Among (callee :: args) x → nodes x)
    (hvisit : ∀ kind p, Pattern.ofKind kind ⟨.expr callee, args, attrs⟩ = .ok p →
      ∀ o ∈ p.operands ⟨.expr callee, args, attrs⟩, ∀ x, o.expr? = some x →
      ∀ s t, Mirrors nodes A f s t → Mirrored nodes A f Eq (visit x s) (visit (x.map f g) t))
    {s t : Lowering} (h : Mirrors nodes A f s t) (hs : s.registry.lookup id = none) :
    Mirrored nodes A f Eq (visit (.exprCall id callee args attrs) s)
      (visit ((Expr.exprCall id callee args attrs).map f g) t) := by
  have ht : t.registry.lookup (f id) = none := (h.lookup _ hx).trans hs
  have hkind : (callee.map f g).fusedKind = callee.fusedKind :=
    Expr.fusedKind_map (hnames callee (hroot callee (.of_mem List.mem_cons_self (.refl _))))
  have hdeclared := mirrored_declaredKind hkind h
  rw [Expr.map, visit_exprCall hs, visit_exprCall ht]
  generalize declaredKind callee s = out at hdeclared ⊢
  generalize declaredKind (callee.map f g) t = out' at hdeclared ⊢
  obtain ⟨result, u⟩ := out
  obtain ⟨result', v⟩ := out'
  obtain ⟨hagrees, huv⟩ := hdeclared
  cases hagrees with
  | error err => exact .error huv err
  | @ok kind _ heq =>
      subst heq
      refine mirrored_lowerKind hA hf hx (fun p hp c hc => ?_) (hvisit kind) huv
      obtain ⟨x, hx, hcall⟩ :=
        Pattern.exists_node_of_mem_calls (Pattern.ofCall_of_ofKind hp).1 hc
      exact hcalls x (hroot x hx) c hcall

include hA hf hcalls hnames in
/-- A visit of the mapped expression is in step with one of the expression. -/
theorem visit_mirrored (e : Expr) (he : ∀ x, e.Reaches x → nodes x) (s t : Lowering)
    (h : Mirrors nodes A f s t) :
    Mirrored nodes A f Eq (visit e s) (visit (e.map f g) t) := by
  have hself : nodes e := he e (.refl e)
  have hid : t.registry.lookup (f e.id) = s.registry.lookup e.id := h.lookup e hself
  cases hlookup : s.registry.lookup e.id with
  | some entries =>
      have hlookup' : t.registry.lookup (e.map f g).id = some entries := by
        rw [Expr.id_map, hid, hlookup]
      rw [visit_of_lookup hlookup, visit_of_lookup hlookup']
      exact ⟨.ok rfl, h⟩
  | none =>
      rw [hlookup] at hid
      cases e with
      | var id name type =>
          change s.registry.lookup id = none at hlookup
          change t.registry.lookup (f id) = none at hid
          rw [Expr.map, visit_var hlookup, visit_var hid]
          exact h.add hf hself (.input name type)
      | constant id value =>
          change s.registry.lookup id = none at hlookup
          change t.registry.lookup (f id) = none at hid
          rw [Expr.map, visit_constant hlookup, visit_constant hid]
          exact h.addConstant hf hself
      | function id params body attrs =>
          change s.registry.lookup id = none at hlookup
          change t.registry.lookup (f id) = none at hid
          rw [Expr.map, visit_function hlookup, visit_function hid]
          exact .error h _
      | opCall id op args attrs =>
          have hvisit : ∀ a ∈ args, ∀ s t, Mirrors nodes A f s t →
              Mirrored nodes A f Eq (visit a s) (visit (a.map f g) t) := fun a ha u v huv =>
            have : a.size < (Expr.opCall id op args attrs).size := Expr.size_lt_of_mem_children ha
            visit_mirrored a (fun x hx => he x (.step ha hx)) u v huv
          change s.registry.lookup id = none at hlookup
          change t.registry.lookup (f id) = none at hid
          rw [Expr.map, visit_opCall hlookup, visit_opCall hid]
          exact mirrored_opCall hA hf hself (hcalls _ hself _ rfl) hvisit (h.noteOperator op)
      | exprCall id callee args attrs =>
          have hroot : ∀ x, Expr.Among (callee :: args) x → nodes x := by
            rintro x ⟨a, ha, hx⟩
            exact he x (.step ha hx)
          refine mirrored_exprCall hA hf hcalls hnames hself hroot
            (fun kind p hp o ho x hx u v huv => ?_) h hlookup
          have hlt : x.size < (Expr.exprCall id callee args attrs).size :=
            Pattern.size_lt_of_mem_operands (Pattern.ofCall_of_ofKind hp).1 ho hx
          exact visit_mirrored x (fun y hy =>
            he y ((Expr.reaches_operand id hp ho hx).trans hy)) u v huv
termination_by e.size

include hA hf hcalls hnames in
/-- The mapped function is serialized in step with the function. -/
theorem serialize_mirrored {F : Function}
    (hF : ∀ x, Expr.Among (F.params ++ [F.body]) x → nodes x) {s t : Lowering}
    (h : Mirrors nodes A f s t) :
    Mirrored nodes A f (Graph.Alike A) (serialize F s) (serialize (F.map f g) t) := by
  have hparams : Mirrored nodes A f (List.Forall₂ Eq) (Step.all (F.params.map visit) s)
      (Step.all ((F.params.map fun x => x.map f g).map visit) t) :=
    mirrored_all (fun p hp u v huv => visit_mirrored hA hf hcalls hnames p (fun x hx =>
      hF x (.of_mem (List.mem_append_left _ hp) hx)) u v huv) h
  have hbody := visit_mirrored hA hf hcalls hnames F.body fun x hx =>
    hF x (.of_mem (List.mem_append_right _ List.mem_cons_self) hx)
  have hmap : F.map f g = ⟨F.params.map fun x => x.map f g, F.body.map f g, g F.attrs⟩ := rfl
  rw [serialize, serialize, hmap]
  generalize Step.all (F.params.map visit) s = out at hparams ⊢
  dsimp only
  generalize Step.all ((F.params.map fun x => x.map f g).map visit) t = out' at hparams ⊢
  obtain ⟨result, u⟩ := out
  obtain ⟨result', v⟩ := out'
  obtain ⟨hagrees, huv⟩ := hparams
  cases hagrees with
  | error err => exact .error huv err
  | ok _ =>
      have hout := hbody u v huv
      dsimp only
      generalize visit F.body u = out at hout ⊢
      generalize visit (F.body.map f g) v = out' at hout ⊢
      obtain ⟨result, w⟩ := out
      obtain ⟨result', w'⟩ := out'
      obtain ⟨hagrees, hw⟩ := hout
      cases hagrees with
      | error err => exact .error hw err
      | ok heads =>
          exact ⟨.ok ⟨hw.nodes, hw.argNodes, heads.symm, hw.params⟩, hw⟩

end Visits

end KernelGraph
