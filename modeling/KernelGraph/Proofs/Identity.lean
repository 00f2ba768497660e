import KernelGraph.Fusion.Kernel
import Mathlib.Data.List.Nodup

/-!
The nodes that an expression is made of. Identities are unambiguous among some nodes if no two of
them share one: that is what makes it right to look a node up by its identity. All operands of a
fused call are nodes of the call, so whatever holds of its nodes holds of what its kernel takes.
-/

namespace KernelGraph

namespace Expr

/-- The nodes that a node refers to: what it calls, takes, binds and gives back. -/
def children : Expr → List Expr
  | var .. | constant .. => []
  | opCall _ _ args _ => args
  | exprCall _ callee args _ => callee :: args
  | function _ params body _ => params ++ [body]

/-- The nodes of an expression are itself and those of the nodes it refers to. -/
inductive Reaches : Expr → Expr → Prop
  | refl (e : Expr) : Reaches e e
  | step {e a x : Expr} : a ∈ e.children → Reaches a x → Reaches e x

theorem Reaches.trans {e a x : Expr} (h : e.Reaches a) (hx : a.Reaches x) : e.Reaches x := by
  induction h with
  | refl => exact hx
  | step hmem _ ih => exact .step hmem (ih hx)

theorem size_lt_of_mem_children {e a : Expr} (h : a ∈ e.children) : a.size < e.size := by
  cases e with
  | var => cases h
  | constant => cases h
  | opCall id op args attrs =>
      have : a.size ≤ sizes args := size_le_sizes h
      simp only [size]
      omega
  | exprCall id callee args attrs =>
      simp only [size]
      rcases List.mem_cons.1 h with rfl | h
      · omega
      · have := size_le_sizes h
        omega
  | function id params body attrs =>
      simp only [size]
      rcases List.mem_append.1 h with h | h
      · have := size_le_sizes h
        omega
      · rw [List.mem_singleton.1 h]
        omega

/-- The nodes of some expressions. -/
def Among (es : List Expr) (x : Expr) : Prop := ∃ e ∈ es, e.Reaches x

theorem Among.of_mem {es : List Expr} {e x : Expr} (he : e ∈ es) (hx : e.Reaches x) : Among es x :=
  ⟨e, he, hx⟩

theorem Among.trans {es : List Expr} {x y : Expr} (hx : Among es x) (hy : x.Reaches y) :
    Among es y := by
  obtain ⟨e, he, hx⟩ := hx
  exact ⟨e, he, hx.trans hy⟩

theorem Among.mono {es ds : List Expr} {x : Expr} (h : es ⊆ ds) (hx : Among es x) : Among ds x := by
  obtain ⟨e, he, hx⟩ := hx
  exact ⟨e, h he, hx⟩

theorem children_of_function? {e : Expr} {F : Function} (h : e.function? = some F) :
    e.children = F.params ++ [F.body] := by
  cases e with
  | function id params body attrs =>
      cases h
      rfl
  | var | constant | opCall | exprCall => cases h

theorem reaches_of_function? {e x : Expr} {F : Function} (h : e.function? = some F)
    (hx : Among (F.params ++ [F.body]) x) : e.Reaches x := by
  obtain ⟨a, ha, hx⟩ := hx
  rw [← children_of_function? h] at ha
  exact .step ha hx

/-- No two of some nodes share an identity. -/
def Unambiguous (nodes : Expr → Prop) : Prop :=
  ∀ x y, nodes x → nodes y → x.id = y.id → x = y

theorem mem_of_reaches {nodes : List Expr} (hclosed : ∀ n ∈ nodes, n.children ⊆ nodes) {e x : Expr}
    (he : e ∈ nodes) (hx : e.Reaches x) : x ∈ nodes := by
  induction hx with
  | refl => exact he
  | step ha _ ih => exact ih (hclosed _ he ha)

theorem Unambiguous.imp {nodes nodes' : Expr → Prop} (h : Unambiguous nodes)
    (himp : ∀ x, nodes' x → nodes x) : Unambiguous nodes' := fun x y hx hy hid =>
  h x y (himp x hx) (himp y hy) hid

/-- Identities are unambiguous where all nodes can be listed with no identity twice. -/
theorem unambiguous_of_nodup {es : List Expr} (nodes : List Expr) (hes : es ⊆ nodes)
    (hclosed : ∀ n ∈ nodes, n.children ⊆ nodes) (hids : (nodes.map id).Nodup) :
    Unambiguous (Among es) := by
  rintro x y ⟨d, hd, hx⟩ ⟨e, he, hy⟩ hid
  exact List.inj_on_of_nodup_map hids (mem_of_reaches hclosed (hes hd) hx)
    (mem_of_reaches hclosed (hes he) hy) hid

end Expr

/-- The expressions that a call refers to. -/
def Call.exprs (c : Call) : List Expr :=
  match c.callee with
  | .op _ => c.args
  | .expr callee => callee :: c.args

theorem Call.mem_exprs_of_arg? {c : Call} {i : Nat} {x : Expr} (h : c.arg? i = some x) :
    x ∈ c.exprs := by
  have hmem : x ∈ c.args := List.mem_of_getElem? h
  unfold exprs
  split
  · exact hmem
  · exact List.mem_cons_of_mem _ hmem

theorem Call.function_of_function? {c : Call} {f : Function} (h : c.function? = some f) :
    ∃ id, Expr.function id f.params f.body f.attrs ∈ c.exprs := by
  obtain ⟨callee, args, attrs⟩ := c
  match callee, h with
  | .expr (.function id params body attrs), h =>
      cases h
      exact ⟨id, List.mem_cons_self⟩

/-- The arguments of the calls of a chain are nodes of the expression that it starts from. -/
theorem Expr.reaches_of_mem_chain {e x : Expr} {c : Call} (hc : c ∈ e.chain) (hx : x ∈ c.args) :
    e.Reaches x := by
  fun_induction Expr.chain e with
  | case1 id op a args attrs ih =>
      rcases List.mem_cons.1 hc with rfl | hc
      · exact .step hx (.refl x)
      · exact .step List.mem_cons_self (ih hc)
  | case2 id op attrs =>
      rw [List.mem_singleton.1 hc] at hx
      cases hx
  | case3 id callee a args attrs ih =>
      rcases List.mem_cons.1 hc with rfl | hc
      · exact .step (List.mem_cons_of_mem _ hx) (.refl x)
      · exact .step (List.mem_cons_of_mem _ List.mem_cons_self) (ih hc)
  | case4 id callee attrs =>
      rw [List.mem_singleton.1 hc] at hx
      cases hx
  | case5 => cases hc

/-- The calls of a chain are nodes of the expression that it starts from. -/
theorem Expr.exists_node_of_mem_chain {e : Expr} {c : Call} (hc : c ∈ e.chain) :
    ∃ x, e.Reaches x ∧ x.call? = some c := by
  fun_induction Expr.chain e with
  | case1 id op a args attrs ih =>
      rcases List.mem_cons.1 hc with rfl | hc
      · exact ⟨_, .refl _, rfl⟩
      · obtain ⟨x, hx, hcall⟩ := ih hc
        exact ⟨x, .step List.mem_cons_self hx, hcall⟩
  | case2 id op attrs => exact ⟨_, .refl _, (List.mem_singleton.1 hc).symm ▸ rfl⟩
  | case3 id callee a args attrs ih =>
      rcases List.mem_cons.1 hc with rfl | hc
      · exact ⟨_, .refl _, rfl⟩
      · obtain ⟨x, hx, hcall⟩ := ih hc
        exact ⟨x, .step (List.mem_cons_of_mem _ List.mem_cons_self) hx, hcall⟩
  | case4 id callee attrs => exact ⟨_, .refl _, (List.mem_singleton.1 hc).symm ▸ rfl⟩
  | case5 => cases hc

namespace Pattern

/-- The links of a chain are the calls of the body of the function that is called. -/
theorem chainOf_eq_ok_iff {family : Family} {root : Call} {chain : List Call} :
    chainOf family root = .ok chain ↔
      ∃ f, root.function? = some f ∧ f.body.call?.isSome ∧ chain = f.body.chain := by
  unfold chainOf
  cases hf : root.function? with
  | none => simp
  | some f =>
      cases hcall : f.body.call?.isSome with
      | false => simp [hcall]
      | true => simpa [hcall] using eq_comm

/-- Every operand of a fused call is a node of it. -/
theorem among_of_mem_operands {family : Family} {root : Call} {p : Pattern} {o : Operand}
    {x : Expr} (hp : ofCall family root = .ok p) (ho : o ∈ p.operands root)
    (hx : o.expr? = some x) : Expr.Among root.exprs x := by
  rcases call_of_mem_operands o ho with hroot | hcall
  · rw [Operand.expr?, hroot] at hx
    exact .of_mem (Call.mem_exprs_of_arg? hx) (.refl x)
  · obtain ⟨chain, hchain, h⟩ := exists_of_bind_eq_ok hp
    obtain ⟨f, hf, -, rfl⟩ := chainOf_eq_ok_iff.1 hchain
    obtain ⟨rest, hrest⟩ := calls_append_of_chain h
    obtain ⟨id, hmem⟩ := Call.function_of_function? hf
    have hlink : o.call ∈ f.body.chain := hrest ▸ List.mem_append_left rest hcall
    have hbody : f.body.Reaches x :=
      Expr.reaches_of_mem_chain hlink (List.mem_of_getElem? hx)
    exact .of_mem hmem (.step (List.mem_append_right _ List.mem_cons_self) hbody)

/-- Every call of a pattern is a node of the call that it was found for. -/
theorem exists_node_of_mem_calls {family : Family} {root : Call} {p : Pattern}
    (hp : ofCall family root = .ok p) {c : Call} (hc : c ∈ p.calls) :
    ∃ x, Expr.Among root.exprs x ∧ x.call? = some c := by
  obtain ⟨chain, hchain, h⟩ := exists_of_bind_eq_ok hp
  obtain ⟨f, hf, -, rfl⟩ := chainOf_eq_ok_iff.1 hchain
  obtain ⟨rest, hrest⟩ := calls_append_of_chain h
  obtain ⟨id, hmem⟩ := Call.function_of_function? hf
  have hlink : c ∈ f.body.chain := hrest ▸ List.mem_append_left rest hc
  obtain ⟨x, hx, hcall⟩ := Expr.exists_node_of_mem_chain hlink
  exact ⟨x, .of_mem hmem (.step (List.mem_append_right _ List.mem_cons_self) hx), hcall⟩

end Pattern

theorem Expr.reaches_operand (id : Nat) {callee : Expr} {args : List Expr} {attrs : Attributes}
    {kind : FusedKind} {p : Pattern} {o : Operand} {x : Expr}
    (hp : Pattern.ofKind kind ⟨.expr callee, args, attrs⟩ = .ok p)
    (ho : o ∈ p.operands ⟨.expr callee, args, attrs⟩) (hx : o.expr? = some x) :
    (Expr.exprCall id callee args attrs).Reaches x := by
  obtain ⟨a, ha, hreach⟩ :=
    Pattern.among_of_mem_operands (Pattern.ofCall_of_ofKind hp).1 ho hx
  exact .step ha hreach

end KernelGraph
