import KernelGraph.Proofs.Contract
import KernelGraph.Proofs.Growth
import KernelGraph.Proofs.Renaming

/-!
Expressions with other identities and other attributes. Neither is looked at when the calls of a
fused body are matched, so a mapped body is matched as it was before: the pattern has the mapped
calls, its operands are the mapped ones, and what is wrong with it is the same
(`Pattern.ofKind_map`).
-/

namespace KernelGraph

/-- The expression in which every node has another identity and other attributes. -/
def Expr.map (f : Nat → Nat) (g : Attributes → Attributes) : Expr → Expr
  | var id name type => .var (f id) name type
  | constant id value => .constant (f id) value
  | opCall id op args attrs => .opCall (f id) op (args.map fun a => a.map f g) (g attrs)
  | exprCall id callee args attrs =>
    .exprCall (f id) (callee.map f g) (args.map fun a => a.map f g) (g attrs)
  | function id params body attrs =>
    .function (f id) (params.map fun x => x.map f g) (body.map f g) (g attrs)

def Callee.map (f : Nat → Nat) (g : Attributes → Attributes) : Callee → Callee
  | op name => .op name
  | expr callee => .expr (callee.map f g)

def Call.map (f : Nat → Nat) (g : Attributes → Attributes) (c : Call) : Call :=
  ⟨c.callee.map f g, c.args.map fun a => a.map f g, g c.attrs⟩

def Function.map (f : Nat → Nat) (g : Attributes → Attributes) (F : Function) : Function :=
  ⟨F.params.map fun x => x.map f g, F.body.map f g, g F.attrs⟩

section

variable (f : Nat → Nat) (g : Attributes → Attributes)

namespace Expr

theorem id_map (e : Expr) : (e.map f g).id = f e.id := by
  cases e <;> simp only [map, id]

theorem typeKey_map (e : Expr) : (e.map f g).typeKey = e.typeKey := by
  cases e <;> simp only [map, typeKey]

theorem isVar_map (e : Expr) : (e.map f g).isVar = e.isVar := by
  cases e <;> simp only [map, isVar]

theorem call?_map (e : Expr) : (e.map f g).call? = e.call?.map (Call.map f g) := by
  cases e <;> simp only [map, call?, Option.map_none, Option.map_some, Call.map, Callee.map]

theorem function?_map (e : Expr) : (e.map f g).function? = e.function?.map (Function.map f g) := by
  cases e <;> simp only [map, function?, Option.map_none, Option.map_some, Function.map]

theorem children_map (e : Expr) : (e.map f g).children = e.children.map fun a => a.map f g := by
  cases e <;> simp only [map, children, List.map_nil, List.map_cons, List.map_append]

/-- The nodes of a mapped expression are those of the expression, mapped. -/
theorem exists_of_reaches_map {e y : Expr} (h : (e.map f g).Reaches y) :
    ∃ x, e.Reaches x ∧ x.map f g = y := by
  generalize hd : e.map f g = d at h
  induction h generalizing e with
  | refl d => exact ⟨e, .refl e, hd⟩
  | step hmem _ ih =>
      subst hd
      rw [children_map] at hmem
      obtain ⟨a, ha, hmap⟩ := List.mem_map.1 hmem
      obtain ⟨x, hx, rfl⟩ := ih hmap
      exact ⟨x, .step ha hx, rfl⟩

theorem chain_map (e : Expr) : (e.map f g).chain = e.chain.map (Call.map f g) := by
  fun_induction Expr.chain e with
  | case1 id op a args attrs ih =>
      simp only [map, List.map_cons, chain, ih]
      rfl
  | case2 id op attrs =>
      simp only [map, List.map_nil, chain]
      rfl
  | case3 id callee a args attrs ih =>
      simp only [map, List.map_cons, chain, ih]
      rfl
  | case4 id callee attrs =>
      simp only [map, List.map_nil, chain]
      rfl
  | case5 e hop hop' hexpr hexpr' =>
      have hcall : e.call? = none := by
        cases e with
        | var | constant | function => rfl
        | opCall id op args attrs =>
            cases args with
            | nil => exact absurd rfl (hop' id op attrs)
            | cons a args => exact absurd rfl (hop id op a args attrs)
        | exprCall id callee args attrs =>
            cases args with
            | nil => exact absurd rfl (hexpr' id callee attrs)
            | cons a args => exact absurd rfl (hexpr id callee a args attrs)
      apply chain_of_call?_eq_none
      rw [call?_map, hcall, Option.map_none]

end Expr

namespace Call

theorem opName?_map (c : Call) : (c.map f g).opName? = c.opName? := by
  obtain ⟨_ | _, args, attrs⟩ := c <;> rfl

theorem isOp_map (c : Call) (op : Operator) : (c.map f g).isOp op = c.isOp op := by
  rw [isOp, isOp, opName?_map]

theorem description_map (c : Call) : (c.map f g).description = c.description := by
  obtain ⟨name | callee, args, attrs⟩ := c
  · rfl
  · show s!"call to {(callee.map f g).typeKey}" = s!"call to {callee.typeKey}"
    rw [Expr.typeKey_map]

theorem function?_map (c : Call) : (c.map f g).function? = c.function?.map (Function.map f g) := by
  obtain ⟨name | callee, args, attrs⟩ := c
  · rfl
  · exact callee.function?_map f g

theorem arg?_map (c : Call) (i : Nat) : (c.map f g).arg? i = (c.arg? i).map fun a => a.map f g :=
  List.getElem?_map

end Call

/-! ### Matching mapped calls -/

theorem takeIf_map (ops : List Operator) (chain : List Call) :
    takeIf ops (chain.map (Call.map f g)) =
      ((takeIf ops chain).1.map (Call.map f g), (takeIf ops chain).2.map (Call.map f g)) := by
  cases chain with
  | nil => rfl
  | cons c chain =>
      have hfits : ops.any (c.map f g).isOp = ops.any c.isOp := by
        congr 1
        funext op
        exact c.isOp_map f g op
      rw [List.map_cons, takeIf, takeIf, hfits]
      by_cases h : ops.any c.isOp
      · rw [if_pos h, if_pos h]
        rfl
      · rw [if_neg h, if_neg h]
        rfl

theorem firstLink_map (chain : List Call) :
    firstLink (chain.map (Call.map f g)) = firstLink chain := by
  cases chain with
  | nil => rfl
  | cons c chain => exact congrArg Link.call (c.description_map f g)

theorem expectOp_map (family : Family) (op : Operator) (chain : List Call) :
    expectOp family op (chain.map (Call.map f g)) =
      (expectOp family op chain).map fun (c, rest) => (c.map f g, rest.map (Call.map f g)) := by
  rw [expectOp, expectOp, takeIf_map, firstLink_map]
  rcases takeIf [op] chain with ⟨_ | c, rest⟩ <;> rfl

def Operand.map (o : Operand) : Operand := ⟨o.call.map f g, o.position, o.role⟩

namespace Operand

theorem expr?_map (o : Operand) : (o.map f g).expr? = o.expr?.map fun a => a.map f g :=
  o.call.arg?_map f g o.position

theorem missing_map (o : Operand) : (o.map f g).missing = o.missing := by
  show Violation.missingOperand (o.call.map f g).description (o.call.args.map _).length o.role
    o.position = _
  rw [Call.description_map, List.length_map, missing]

end Operand

namespace Pattern

def map : Pattern → Pattern
  | convolution pad compute bias requantize =>
    .convolution (pad.map (Call.map f g)) (compute.map f g) (bias.map (Call.map f g))
      (requantize.map (Call.map f g))
  | dense compute bias requantize =>
    .dense (compute.map f g) (bias.map (Call.map f g)) (requantize.map (Call.map f g))
  | activation which dequantize compute quantize =>
    .activation which (dequantize.map f g) (compute.map f g) (quantize.map f g)
  | avgPool preCast compute postCast =>
    .avgPool (preCast.map f g) (compute.map f g) (postCast.map f g)
  | pool which pad compute => .pool which (pad.map (Call.map f g)) (compute.map f g)

theorem family_map (p : Pattern) : (p.map f g).family = p.family := by
  cases p <;> rfl

theorem kind_map (p : Pattern) : (p.map f g).kind = p.kind := by
  cases p <;> simp only [map, kind, Option.isSome_map]

theorem kernelName_map (p : Pattern) : (p.map f g).kernelName = p.kernelName := by
  rw [← kernelName_kind, kind_map, kernelName_kind]

theorem compute_map (p : Pattern) : (p.map f g).compute = p.compute.map f g := by
  cases p <;> rfl

theorem pad?_map (p : Pattern) : (p.map f g).pad? = p.pad?.map (Call.map f g) := by
  cases p <;> rfl

theorem operands_map (p : Pattern) (root : Call) :
    (p.map f g).operands (root.map f g) = (p.operands root).map (Operand.map f g) := by
  rcases p with ⟨pad, compute, _ | bias, _ | requantize⟩ | ⟨compute, _ | bias, _ | requantize⟩ |
    ⟨which, dequantize, compute, quantize⟩ | ⟨preCast, compute, postCast⟩ |
    ⟨which, pad, compute⟩ <;> rfl

theorem ofActivation_map (which : Activation) (chain : List Call) :
    ofChain.ofActivation which (chain.map (Call.map f g)) =
      (ofChain.ofActivation which chain).map (Pattern.map f g) := by
  rw [ofChain.ofActivation, ofChain.ofActivation, expectOp_map]
  rcases expectOp which.family .quantize chain with err | ⟨quantize, chain₁⟩
  · rfl
  simp only [Except.map, bind, Except.bind, expectOp_map]
  rcases expectOp which.family which.operator chain₁ with err | ⟨compute, chain₂⟩
  · rfl
  simp only [Except.map, expectOp_map]
  rcases expectOp which.family .dequantize chain₂ with err | ⟨dequantize, rest⟩ <;> rfl

theorem ofChain_map (family : Family) (chain : List Call) :
    ofChain family (chain.map (Call.map f g)) =
      (ofChain family chain).map (Pattern.map f g) := by
  cases family with
  | convolution =>
      rw [ofChain, ofChain, takeIf_map]
      rcases takeIf [.requantize] chain with ⟨requantize, chain₁⟩
      dsimp only
      rw [takeIf_map]
      rcases takeIf [.biasAdd, .add] chain₁ with ⟨bias, chain₂⟩
      dsimp only
      rw [Option.isSome_map, expectOp_map]
      rcases expectOp _ _ chain₂ with err | ⟨compute, chain₃⟩
      · rfl
      · simp only [Except.map, bind, Except.bind, takeIf_map]
        rfl
  | dense =>
      rw [ofChain, ofChain, takeIf_map]
      rcases takeIf [.requantize] chain with ⟨requantize, chain₁⟩
      dsimp only
      rw [takeIf_map]
      rcases takeIf [.biasAdd, .add] chain₁ with ⟨bias, chain₂⟩
      dsimp only
      rw [Option.isSome_map, expectOp_map]
      rcases expectOp _ _ chain₂ with err | ⟨compute, rest⟩ <;> rfl
  | qnnSoftmax => exact ofActivation_map f g .softmax chain
  | qnnSigmoid => exact ofActivation_map f g .sigmoid chain
  | qnnAvgPool =>
      rw [ofChain, ofChain, expectOp_map]
      rcases expectOp _ .cast chain with err | ⟨postCast, chain₁⟩
      · rfl
      simp only [Except.map, bind, Except.bind, expectOp_map]
      rcases expectOp _ .avgPool2d chain₁ with err | ⟨compute, chain₂⟩
      · rfl
      simp only [Except.map, expectOp_map]
      rcases expectOp _ .cast chain₂ with err | ⟨preCast, rest⟩ <;> rfl
  | pool =>
      rw [ofChain, ofChain, takeIf_map, takeIf_map, firstLink_map]
      rcases takeIf [.avgPool2d] chain with ⟨_ | compute, rest⟩
      · rcases takeIf [.maxPool2d] chain with ⟨_ | compute, rest⟩
        · rfl
        · simp only [Option.map_none, Option.map_some, takeIf_map]
          rfl
      · simp only [Option.map_some, takeIf_map]
        rfl

theorem chainOf_map (family : Family) (root : Call) :
    chainOf family (root.map f g) =
      (chainOf family root).map fun chain => chain.map (Call.map f g) := by
  rw [chainOf, chainOf, Call.function?_map, Call.description_map]
  cases root.function? with
  | none => rfl
  | some F =>
      have hbody : (F.map f g).body = F.body.map f g := rfl
      simp only [Option.map_some, hbody, Expr.call?_map, Option.isSome_map]
      by_cases h : F.body.call?.isSome
      · rw [if_pos h, if_pos h, Expr.chain_map]
        rfl
      · rw [if_neg h, if_neg h, Expr.typeKey_map]
        rfl

theorem ofCall_map (family : Family) (root : Call) :
    ofCall family (root.map f g) = (ofCall family root).map (Pattern.map f g) := by
  rw [ofCall, ofCall, chainOf_map]
  rcases chainOf family root with err | chain
  · rfl
  · exact ofChain_map f g family chain

/-- A mapped call of a fused function has the mapped pattern, or none for the same reason. -/
theorem ofKind_map (kind : FusedKind) (root : Call) :
    ofKind kind (root.map f g) = (ofKind kind root).map (Pattern.map f g) := by
  rw [ofKind, ofKind, ofCall_map]
  rcases ofCall kind.family root with err | p
  · rfl
  · simp only [Except.map, bind, Except.bind, kind_map]
    by_cases h : p.kind = kind
    · rw [if_pos h, if_pos h]
    · rw [if_neg h, if_neg h]

end Pattern

end

/-- What maps an expression node by node is the map. -/
theorem Expr.eq_map {h : Expr → Expr} {f : Nat → Nat} {g : Attributes → Attributes}
    (hvar : ∀ id name type, h (.var id name type) = .var (f id) name type)
    (hconstant : ∀ id value, h (.constant id value) = .constant (f id) value)
    (hopCall : ∀ id op args attrs,
      h (.opCall id op args attrs) = .opCall (f id) op (args.map h) (g attrs))
    (hexprCall : ∀ id callee args attrs,
      h (.exprCall id callee args attrs) = .exprCall (f id) (h callee) (args.map h) (g attrs))
    (hfunction : ∀ id params body attrs,
      h (.function id params body attrs) = .function (f id) (params.map h) (h body) (g attrs))
    (e : Expr) : h e = e.map f g := by
  have ih : ∀ es ⊆ e.children, es.map h = es.map fun a => a.map f g := fun es hes =>
    List.map_congr_left fun a ha =>
      have : a.size < e.size := size_lt_of_mem_children (hes ha)
      eq_map hvar hconstant hopCall hexprCall hfunction a
  cases e with
  | var id name type => rw [hvar, map]
  | constant id value => rw [hconstant, map]
  | opCall id op args attrs => rw [hopCall, map, ih args (List.Subset.refl args)]
  | exprCall id callee args attrs =>
      have hcallee : h callee = _ := (List.cons.inj (ih (callee :: args) (List.Subset.refl _))).1
      rw [hexprCall, map, hcallee, ih args (List.subset_cons_self callee args)]
  | function id params body attrs =>
      have hbody := (List.cons.inj (ih [body] (List.subset_append_right params [body]))).1
      rw [hfunction, map, hbody, ih params (List.subset_append_left params [body])]
termination_by e.size

theorem Expr.map_map (f f' : Nat → Nat) (g g' : Attributes → Attributes) (e : Expr) :
    (e.map f g).map f' g' = e.map (fun id => f' (f id)) (fun as => g' (g as)) := by
  refine eq_map (h := fun e => (e.map f g).map f' g') ?_ ?_ ?_ ?_ ?_ e <;> intros <;>
    simp only [map, List.map_map, Function.comp_def]

/-- An expression with the same identities and the same attributes is the same. -/
theorem Expr.map_self (e : Expr) : (e.map (fun id => id) fun as => as) = e :=
  (eq_map (h := fun e => e) (fun _ _ _ => rfl) (fun _ _ => rfl)
    (fun _ _ args _ => by rw [List.map_id']) (fun _ _ args _ => by rw [List.map_id'])
    (fun _ params _ _ => by rw [List.map_id']) e).symm

theorem Function.map_self (F : Function) : (F.map (fun id => id) fun as => as) = F := by
  simp only [map, Expr.map_self, List.map_id']

/-! ### Renaming only -/

theorem Expr.rename_eq_map (f : Nat → Nat) (e : Expr) : e.rename f = e.map f fun as => as := by
  refine eq_map (h := fun e => e.rename f) ?_ ?_ ?_ ?_ ?_ e <;> intros <;> simp only [rename]

end KernelGraph
