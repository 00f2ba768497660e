import KernelGraph.Lowering.Equations
import KernelGraph.Proofs.Identity

/-!
What a visit can do to a graph that is being built, whether it succeeds or fails.

`visit_induction` lists once all that a visit can do; what holds of visits is proved case by case
from it. First of all, a graph only grows (`extends_visit`): nodes and constants keep their places,
and the outputs of an expression that has a node are settled for good.
-/

namespace KernelGraph

/-- What the function that is called declares to fuse, or why the call cannot be lowered. -/
def Expr.fusedKind (callee : Expr) : Except LoweringError FusedKind :=
  match callee.function? with
  | none => .error (.unsupportedTarget callee.typeKey)
  | some f =>
    match f.attrs.getText? compositeName with
    | none => .error .notComposite
    | some name =>
      match FusedKind.ofName? name with
      | none => .error (.unknownComposite name)
      | some kind => .ok kind

theorem Step.rel_all_cons {α : Type} {R : Lowering → Lowering → Prop}
    (htrans : ∀ s t u, R s t → R t u → R s u) {f : Step α} {fs : List (Step α)}
    (hf : ∀ s, R s (f s).2) (hfs : ∀ s, R s (Step.all fs s).2) (s : Lowering) :
    R s (Step.all (f :: fs) s).2 := by
  have hfirst := hf s
  rw [Step.all]
  generalize f s = out at hfirst ⊢
  obtain ⟨err | x, t⟩ := out
  · exact hfirst
  · have hrest := hfs t
    dsimp only
    generalize Step.all fs t = out at hrest ⊢
    obtain ⟨err | xs, u⟩ := out
    · exact htrans s t u hfirst hrest
    · exact htrans s t u hfirst hrest

/-- Runs of steps relate their ends as every step does. -/
theorem Step.rel_all {α : Type} {R : Lowering → Lowering → Prop} (hrefl : ∀ s, R s s)
    (htrans : ∀ s t u, R s t → R t u → R s u) {fs : List (Step α)}
    (h : ∀ f ∈ fs, ∀ s, R s (f s).2) (s : Lowering) : R s (Step.all fs s).2 := by
  induction fs generalizing s with
  | nil => exact hrefl s
  | cons f fs ih =>
      exact Step.rel_all_cons htrans (h f List.mem_cons_self)
        (ih fun g hg => h g (List.mem_cons_of_mem f hg)) s

namespace Lowering

theorem declaredKind_fst (callee : Expr) (s : Lowering) :
    (declaredKind callee s).1 = callee.fusedKind := by
  unfold declaredKind Expr.fusedKind
  cases callee.function? with
  | none => rfl
  | some f =>
      dsimp only
      cases f.attrs.getText? compositeName with
      | none => rfl
      | some name =>
          dsimp only
          cases FusedKind.ofName? name <;> rfl

/-- Asking for the declared kind reports at most that nobody knows it. -/
theorem declaredKind_snd (callee : Expr) (s : Lowering) :
    (declaredKind callee s).2 = s ∨
      ∃ err, (declaredKind callee s).2 = s.note (.unknownComposite err) := by
  unfold declaredKind
  cases callee.function? with
  | none => exact Or.inl rfl
  | some f =>
      dsimp only
      cases f.attrs.getText? compositeName with
      | none => exact Or.inl rfl
      | some name =>
          dsimp only
          cases FusedKind.ofName? name with
          | none => exact Or.inr ⟨_, rfl⟩
          | some kind => exact Or.inl rfl

/-- What holds before and after the report of a name that nobody knows holds when the declared kind
has been asked for. -/
theorem holds_of_declaredKind {P : Lowering → Prop} {callee : Expr} {s t : Lowering}
    {out : Except LoweringError FusedKind} (h : declaredKind callee s = (out, t)) (hs : P s)
    (hnote : ∀ err, P (s.note (.unknownComposite err))) : P t := by
  have hsnd := declaredKind_snd callee s
  rw [h] at hsnd
  rcases hsnd with rfl | ⟨err, rfl⟩
  · exact hs
  · exact hnote err

theorem declaredKind_ok {callee : Expr} {kind : FusedKind} {s : Lowering}
    (h : callee.fusedKind = .ok kind) : declaredKind callee s = (.ok kind, s) := by
  unfold Expr.fusedKind at h
  unfold declaredKind
  cases hf : callee.function? with
  | none => simp [hf] at h
  | some f =>
      simp only [hf] at h ⊢
      cases hname : f.attrs.getText? compositeName with
      | none => simp [hname] at h
      | some name =>
          simp only [hname] at h ⊢
          cases hkind : FusedKind.ofName? name <;> simp_all

/-- A call whose function declares no kind is not lowered. -/
theorem visit_undeclared {id : Nat} {callee : Expr} {args : List Expr} {attrs : Attributes}
    {err : LoweringError} {s : Lowering} (hid : s.registry.lookup id = none)
    (hkind : callee.fusedKind = .error err) :
    visit (.exprCall id callee args attrs) s = (.error err, (declaredKind callee s).2) := by
  have hdeclared := declaredKind_fst callee s
  rw [visit_exprCall hid]
  generalize declaredKind callee s = out at hdeclared ⊢
  obtain ⟨result, t⟩ := out
  cases hdeclared.trans hkind
  rfl

/-- A call that has no pattern of the kind that its function declares is reported. -/
theorem visit_unmatched {id : Nat} {callee : Expr} {args : List Expr} {attrs : Attributes}
    {kind : FusedKind} {err : LoweringError} {s : Lowering} (hid : s.registry.lookup id = none)
    (hkind : callee.fusedKind = .ok kind)
    (hp : Pattern.ofKind kind ⟨.expr callee, args, attrs⟩ = .error err) :
    visit (.exprCall id callee args attrs) s = (.error err, s.note (.failed kind err)) := by
  rw [visit_exprCall hid, declaredKind_ok hkind]
  dsimp only
  rw [lowerKind, hp]
  rfl

/-- A call that has a pattern is lowered as its pattern is. -/
theorem visit_fused {id : Nat} {callee : Expr} {args : List Expr} {attrs : Attributes}
    {kind : FusedKind} {p : Pattern} {s : Lowering} (hid : s.registry.lookup id = none)
    (hkind : callee.fusedKind = .ok kind)
    (hp : Pattern.ofKind kind ⟨.expr callee, args, attrs⟩ = .ok p) :
    visit (.exprCall id callee args attrs) s =
      addKernel id kind (ofPattern p ⟨.expr callee, args, attrs⟩ s) := by
  rw [visit_exprCall hid, declaredKind_ok hkind]
  dsimp only
  rw [lowerKind, hp]

/-- Lowers the operands of a pattern of the call `root`, in their order. -/
def lowerOperands (p : Pattern) (root : Call) : Step (List Entry) :=
  Step.all ((p.operands root).map (visitOperand p.family))

/-- A kernel is built in three stages, each of which can fail: layouts are looked at, operands are
lowered, and attributes are put together. -/
theorem ofPattern_eq (p : Pattern) (root : Call) (s : Lowering) :
    ofPattern p root s =
      match p.check with
      | .error v => (.error (.violation p.family v), s)
      | .ok () =>
        match lowerOperands p root s with
        | (.error e, t) => (.error e, t)
        | (.ok inputs, t) =>
          match p.attrs with
          | .error v => (.error (.violation p.family v), t)
          | .ok attrs => (.ok ⟨.kernel, p.kernelName, inputs, 1, attrs⟩, t) := rfl

/-- Building a kernel leaves the graph as it was, or as its operands leave it. -/
theorem ofPattern_snd (p : Pattern) (root : Call) (s : Lowering) :
    (ofPattern p root s).2 = s ∨ (ofPattern p root s).2 = (lowerOperands p root s).2 := by
  rw [ofPattern_eq]
  split
  · exact Or.inl rfl
  · split
    · rename_i heq
      exact Or.inr (by rw [heq])
    · rename_i heq
      split <;> exact Or.inr (by rw [heq])

theorem firstOf_snd (key : String) (out : Except LoweringError (List Entry) × Lowering) :
    (firstOf key out).2 = out.2 := by
  unfold firstOf
  split <;> rfl

theorem visitFirst_snd (e : Expr) (s : Lowering) : (visitFirst e s).2 = (visit e s).2 :=
  firstOf_snd _ _

theorem visitOperand_of_some {family : Family} {o : Operand} {x : Expr} (h : o.expr? = some x) :
    visitOperand family o = visitFirst x := by
  funext s
  rw [visitOperand, h]

theorem visitOperand_of_none {family : Family} {o : Operand} (h : o.expr? = none) (s : Lowering) :
    visitOperand family o s = (.error (.violation family o.missing), s) := by
  rw [visitOperand, h]

/-- Lowering an operand relates its ends as a visit of it does, if it is there. -/
theorem rel_visitOperand {R : Lowering → Lowering → Prop} (hrefl : ∀ s, R s s) {family : Family}
    {o : Operand} (h : ∀ x, o.expr? = some x → ∀ s, R s (visit x s).2) (s : Lowering) :
    R s (visitOperand family o s).2 := by
  cases hx : o.expr? with
  | none =>
      rw [visitOperand_of_none hx]
      exact hrefl s
  | some x =>
      rw [visitOperand_of_some hx, visitFirst_snd]
      exact h x hx s

/-- Lowering operands relates its ends as every visit of an operand does. -/
theorem rel_lowerOperands {R : Lowering → Lowering → Prop} (hrefl : ∀ s, R s s)
    (htrans : ∀ s t u, R s t → R t u → R s u) {p : Pattern} {root : Call}
    (h : ∀ o ∈ p.operands root, ∀ x, o.expr? = some x → ∀ s, R s (visit x s).2) (s : Lowering) :
    R s (lowerOperands p root s).2 := by
  refine Step.rel_all hrefl htrans (fun f hf => ?_) s
  obtain ⟨o, ho, rfl⟩ := List.mem_map.1 hf
  exact rel_visitOperand hrefl (h o ho)

theorem rel_ofPattern {R : Lowering → Lowering → Prop} (hrefl : ∀ s, R s s)
    (htrans : ∀ s t u, R s t → R t u → R s u) {p : Pattern} {root : Call}
    (h : ∀ o ∈ p.operands root, ∀ x, o.expr? = some x → ∀ s, R s (visit x s).2) (s : Lowering) :
    R s (ofPattern p root s).2 := by
  rcases ofPattern_snd p root s with heq | heq
  · rw [heq]
    exact hrefl s
  · rw [heq]
    exact rel_lowerOperands hrefl htrans h s

/-- Everything that a visit can do. What is to be proved of a visit is proved for an expression that
has a node, and for each way in which lowering one that has none can end, where it may be assumed of
all visits of the arguments or the operands. -/
theorem visit_induction
    {motive : Expr → Lowering → Except LoweringError (List Entry) × Lowering → Prop}
    (hit : ∀ e s entries, s.registry.lookup e.id = some entries → motive e s (.ok entries, s))
    (var : ∀ id name type s, s.registry.lookup id = none →
      motive (.var id name type) s (add id (.input name type) s))
    (constant : ∀ id value s, s.registry.lookup id = none →
      motive (.constant id value) s (addConstant id value s))
    (function : ∀ id params body attrs s, s.registry.lookup id = none →
      motive (.function id params body attrs) s (.error (.unsupportedTarget "Function"), s))
    (argument : ∀ id op args attrs s err t, s.registry.lookup id = none →
      (∀ a ∈ args, ∀ s, motive a s (visit a s)) →
      Step.all (args.map visit) (noteOperator op s) = (.error err, t) →
      motive (.opCall id op args attrs) s (.error err, t))
    (operator : ∀ id op args attrs s inputs t, s.registry.lookup id = none →
      (∀ a ∈ args, ∀ s, motive a s (visit a s)) →
      Step.all (args.map visit) (noteOperator op s) = (.ok inputs, t) →
      motive (.opCall id op args attrs) s (add id (.kernel op inputs.flatten 1 attrs) t))
    (undeclared : ∀ id callee args attrs s err t, s.registry.lookup id = none →
      callee.fusedKind = .error err → declaredKind callee s = (.error err, t) →
      motive (.exprCall id callee args attrs) s (.error err, t))
    (unmatched : ∀ id callee args attrs s kind err, s.registry.lookup id = none →
      callee.fusedKind = .ok kind → Pattern.ofKind kind ⟨.expr callee, args, attrs⟩ = .error err →
      motive (.exprCall id callee args attrs) s (.error err, s.note (.failed kind err)))
    (unbuilt : ∀ id callee args attrs s kind p err t, s.registry.lookup id = none →
      callee.fusedKind = .ok kind → Pattern.ofKind kind ⟨.expr callee, args, attrs⟩ = .ok p →
      (∀ o ∈ p.operands ⟨.expr callee, args, attrs⟩, ∀ x, o.expr? = some x →
        ∀ s, motive x s (visit x s)) →
      ofPattern p ⟨.expr callee, args, attrs⟩ s = (.error err, t) →
      motive (.exprCall id callee args attrs) s (.error err, t.note (.failed kind err)))
    (fused : ∀ id callee args attrs s kind p node t, s.registry.lookup id = none →
      callee.fusedKind = .ok kind → Pattern.ofKind kind ⟨.expr callee, args, attrs⟩ = .ok p →
      (∀ o ∈ p.operands ⟨.expr callee, args, attrs⟩, ∀ x, o.expr? = some x →
        ∀ s, motive x s (visit x s)) →
      ofPattern p ⟨.expr callee, args, attrs⟩ s = (.ok node, t) →
      motive (.exprCall id callee args attrs) s
        (add id node (t.note (.lowered kind node.name node.inputs.length))))
    (e : Expr) (s : Lowering) : motive e s (visit e s) := by
  cases hlookup : s.registry.lookup e.id with
  | some entries =>
      rw [visit_of_lookup hlookup]
      exact hit e s entries hlookup
  | none =>
      cases e with
      | var id name type =>
          change s.registry.lookup id = none at hlookup
          rw [visit_var hlookup]
          exact var id name type s hlookup
      | constant id value =>
          change s.registry.lookup id = none at hlookup
          rw [visit_constant hlookup]
          exact constant id value s hlookup
      | function id params body attrs =>
          change s.registry.lookup id = none at hlookup
          rw [visit_function hlookup]
          exact function id params body attrs s hlookup
      | opCall id op args attrs =>
          change s.registry.lookup id = none at hlookup
          have ih : ∀ a ∈ args, ∀ s, motive a s (visit a s) := fun a ha s =>
            have : a.size < (Expr.opCall id op args attrs).size :=
              Expr.size_lt_of_mem_children ha
            visit_induction hit var constant function argument operator undeclared unmatched
              unbuilt fused a s
          rw [visit_opCall hlookup]
          rcases hargs : Step.all (args.map visit) (noteOperator op s) with ⟨err | inputs, t⟩
          · exact argument id op args attrs s err t hlookup ih hargs
          · exact operator id op args attrs s inputs t hlookup ih hargs
      | exprCall id callee args attrs =>
          change s.registry.lookup id = none at hlookup
          cases hkind : callee.fusedKind with
          | error err =>
              rw [visit_undeclared hlookup hkind]
              exact undeclared id callee args attrs s err _ hlookup hkind
                (Prod.ext ((declaredKind_fst callee s).trans hkind) rfl)
          | ok kind =>
              cases hp : Pattern.ofKind kind ⟨.expr callee, args, attrs⟩ with
              | error err =>
                  rw [visit_unmatched hlookup hkind hp]
                  exact unmatched id callee args attrs s kind err hlookup hkind hp
              | ok p =>
                  have ih : ∀ o ∈ p.operands ⟨.expr callee, args, attrs⟩, ∀ x, o.expr? = some x →
                      ∀ s, motive x s (visit x s) := fun o ho x hx s =>
                    have : x.size < (Expr.exprCall id callee args attrs).size :=
                      Pattern.size_lt_of_mem_operands (Pattern.ofCall_of_ofKind hp).1 ho hx
                    visit_induction hit var constant function argument operator undeclared
                      unmatched unbuilt fused x s
                  rw [visit_fused hlookup hkind hp]
                  rcases hnode : ofPattern p ⟨.expr callee, args, attrs⟩ s with ⟨err | node, t⟩
                  · exact unbuilt id callee args attrs s kind p err t hlookup hkind hp ih hnode
                  · exact fused id callee args attrs s kind p node t hlookup hkind hp ih hnode
termination_by e.size

/-- What a kernel is that was built. -/
theorem ofPattern_eq_ok_iff {p : Pattern} {root : Call} {s t : Lowering} {node : Node} :
    ofPattern p root s = (.ok node, t) ↔ p.check = .ok () ∧ ∃ inputs attrs,
      lowerOperands p root s = (.ok inputs, t) ∧ p.attrs = .ok attrs ∧
        node = ⟨.kernel, p.kernelName, inputs, 1, attrs⟩ := by
  rw [ofPattern_eq]
  cases p.check with
  | error v => simp
  | ok _ =>
      dsimp only
      rcases lowerOperands p root s with ⟨err | inputs, u⟩
      · simp
      · cases p.attrs with
        | error v => simp
        | ok attrs =>
            constructor
            · intro h
              cases h
              exact ⟨rfl, inputs, attrs, rfl, rfl, rfl⟩
            · rintro ⟨-, _, _, hinputs, hattrs, rfl⟩
              cases hinputs
              cases hattrs
              rfl

/-- A fused call is lowered by building the kernel that its function declares, and adding it. -/
theorem visit_exprCall_eq_ok_iff {id : Nat} {callee : Expr} {args : List Expr} {attrs : Attributes}
    {s t : Lowering} {entries : List Entry} (hnew : s.registry.lookup id = none) :
    visit (.exprCall id callee args attrs) s = (.ok entries, t) ↔ ∃ kind p node u,
      callee.fusedKind = .ok kind ∧ Pattern.ofKind kind ⟨.expr callee, args, attrs⟩ = .ok p ∧
        ofPattern p ⟨.expr callee, args, attrs⟩ s = (.ok node, u) ∧
          add id node (u.note (.lowered kind node.name node.inputs.length)) = (.ok entries, t) := by
  constructor
  · intro h
    cases hkind : callee.fusedKind with
    | error err =>
        rw [visit_undeclared hnew hkind] at h
        cases h
    | ok kind =>
        cases hp : Pattern.ofKind kind ⟨.expr callee, args, attrs⟩ with
        | error err =>
            rw [visit_unmatched hnew hkind hp] at h
            cases h
        | ok p =>
            rw [visit_fused hnew hkind hp] at h
            rcases hnode : ofPattern p ⟨.expr callee, args, attrs⟩ s with ⟨err | node, u⟩
            · rw [hnode] at h
              cases h
            · rw [hnode] at h
              exact ⟨kind, p, node, u, rfl, hp, hnode, h⟩
  · rintro ⟨kind, p, node, u, hkind, hp, hnode, hadd⟩
    rw [visit_fused hnew hkind hp, hnode]
    exact hadd

/-! ### Graphs only grow -/

/-- The name of the constant that `k` others come before. -/
def constantName (symbol : String) (k : Nat) : String := s!"{symbol}_const_{k}"

/-- Records the value of the next constant. -/
def record (s : Lowering) (value : Tensor) : Lowering :=
  { s with registry :=
      s.registry.addParam (constantName s.symbol s.registry.params.length) value }

theorem addConstant_eq (id : Nat) (value : Tensor) (s : Lowering) :
    addConstant id value s =
      add id (.constant (constantName s.symbol s.registry.params.length) value) (s.record value) :=
  rfl

theorem lookup_add (id : Nat) (node : Node) (s : Lowering) (query : Nat) :
    (add id node s).2.registry.lookup query =
      if query = id then some (Registry.entries s.registry.nodes.length node.outputs)
      else s.registry.lookup query :=
  Registry.lookup_add s.registry node id query

/-- A visit relates its ends if reporting an event that is not critical, adding a constant and
adding any other node do, where the node is of an expression that had none when the visit began. -/
theorem rel_visit_constants {R : Lowering → Lowering → Prop} (hrefl : ∀ s, R s s)
    (htrans : ∀ s t u, R s t → R t u → R s u)
    (hnote : ∀ s e, Event.severity e ≠ .critical → R s (s.note e))
    (hconstant : ∀ s id value, s.registry.lookup id = none → R s (addConstant id value s).2)
    (hadd : ∀ s t id node, R s t → s.registry.lookup id = none → node.op ≠ .const →
      node.outputs = 1 → R s (add id node t).2) (e : Expr) (s : Lowering) : R s (visit e s).2 := by
  have hoperator : ∀ op s, R s (noteOperator op s) := by
    intro op s
    unfold noteOperator
    split
    · exact hrefl s
    · exact hnote s _ nofun
  refine visit_induction (motive := fun _ s out => R s out.2) ?hit ?var ?constant ?function
    ?argument ?operator ?undeclared ?unmatched ?unbuilt ?fused e s
  case hit =>
      intro e s entries _
      exact hrefl s
  case var =>
      intro id name type s hid
      exact hadd s s id _ (hrefl s) hid (by rintro ⟨⟩) rfl
  case constant =>
      intro id value s hid
      exact hconstant s id value hid
  case function =>
      intro id params body attrs s _
      exact hrefl s
  case argument =>
      intro id op args attrs s err t _ ih hargs
      have hrest := Step.rel_all hrefl htrans (List.forall_mem_map.2 ih) (noteOperator op s)
      rw [hargs] at hrest
      exact htrans _ _ _ (hoperator op s) hrest
  case operator =>
      intro id op args attrs s inputs t hid ih hargs
      have hrest := Step.rel_all hrefl htrans (List.forall_mem_map.2 ih) (noteOperator op s)
      rw [hargs] at hrest
      exact hadd s t id _ (htrans _ _ _ (hoperator op s) hrest) hid (by rintro ⟨⟩) rfl
  case undeclared =>
      intro id callee args attrs s err t _ _ hdeclared
      exact holds_of_declaredKind hdeclared (hrefl s) fun _ => hnote s _ nofun
  case unmatched =>
      intro id callee args attrs s kind err _ _ _
      exact hnote s _ nofun
  case unbuilt =>
      intro id callee args attrs s kind p err t _ _ _ ih hnode
      have hrest := rel_ofPattern hrefl htrans ih s
      rw [hnode] at hrest
      exact htrans _ _ _ hrest (hnote t _ nofun)
  case fused =>
      intro id callee args attrs s kind p node t hid _ _ ih hnode
      have hrest := rel_ofPattern hrefl htrans ih s
      rw [hnode] at hrest
      obtain ⟨-, inputs, copied, -, -, rfl⟩ := ofPattern_eq_ok_iff.1 hnode
      exact hadd s _ id _ (htrans _ _ _ hrest (hnote t _ nofun)) hid (by rintro ⟨⟩) rfl

/-- A visit relates its ends if reporting an event that is not critical, recording a constant and
adding a node do, where the node is of an expression that had none when the visit began. -/
theorem rel_visit {R : Lowering → Lowering → Prop} (hrefl : ∀ s, R s s)
    (htrans : ∀ s t u, R s t → R t u → R s u)
    (hnote : ∀ s e, Event.severity e ≠ .critical → R s (s.note e))
    (hrecord : ∀ s value, R s (s.record value))
    (hadd : ∀ s t id node, R s t → s.registry.lookup id = none → node.outputs = 1 →
      R s (add id node t).2) (e : Expr) (s : Lowering) : R s (visit e s).2 :=
  rel_visit_constants hrefl htrans hnote
    (fun s id value hid => hadd s _ id _ (hrecord s value) hid rfl)
    (fun s t id node h hid _ houtputs => hadd s t id node h hid houtputs) e s

/-- Serialization relates its ends as every visit does. -/
theorem rel_serialize {R : Lowering → Lowering → Prop} (hrefl : ∀ s, R s s)
    (htrans : ∀ s t u, R s t → R t u → R s u) (hvisit : ∀ e s, R s (visit e s).2) (f : Function)
    (s : Lowering) : R s (serialize f s).2 := by
  have hparams := Step.rel_all hrefl htrans (List.forall_mem_map.2 fun x (_ : x ∈ f.params) =>
    hvisit x) s
  rw [serialize]
  generalize Step.all (f.params.map visit) s = out at hparams ⊢
  obtain ⟨err | entries, m⟩ := out
  · exact hparams
  · have hbody := hvisit f.body m
    dsimp only
    generalize visit f.body m = out at hbody ⊢
    obtain ⟨err | heads, t⟩ := out
    · exact htrans _ _ _ hparams hbody
    · exact htrans _ _ _ hparams hbody

/-- One graph goes on from another: it has the same name, everything is still in its place, and what
had outputs has the same ones. -/
structure Extends (s t : Lowering) : Prop where
  symbol : t.symbol = s.symbol
  nodes : s.registry.nodes <+: t.registry.nodes
  argNodes : s.registry.argNodes <+: t.registry.argNodes
  params : s.registry.params <+: t.registry.params
  lookup : ∀ id entries, s.registry.lookup id = some entries → t.registry.lookup id = some entries
  log : s.log <+: t.log

theorem Extends.refl (s : Lowering) : Extends s s :=
  ⟨rfl, List.prefix_refl _, List.prefix_refl _, List.prefix_refl _, fun _ _ h => h,
    List.prefix_refl _⟩

theorem Extends.trans {s t u : Lowering} (h : Extends s t) (h' : Extends t u) : Extends s u :=
  ⟨h'.symbol.trans h.symbol, h.nodes.trans h'.nodes, h.argNodes.trans h'.argNodes,
    h.params.trans h'.params, fun id entries hs => h'.lookup id entries (h.lookup id entries hs),
    h.log.trans h'.log⟩

theorem extends_note (s : Lowering) (e : Event) : Extends s (s.note e) :=
  ⟨rfl, List.prefix_refl _, List.prefix_refl _, List.prefix_refl _, fun _ _ h => h,
    List.prefix_append _ _⟩

/-- An expression that had no node at first may be given one at last, whatever was lowered in
between: what had outputs at first keeps them. -/
theorem Extends.add {s t : Lowering} {id : Nat} (h : Extends s t)
    (hid : s.registry.lookup id = none) (node : Node) : Extends s (add id node t).2 := by
  refine ⟨h.symbol, h.nodes.trans (List.prefix_append _ _), h.argNodes.trans ?_, h.params, ?_,
    h.log⟩
  · show t.registry.argNodes <+: if node.op.isArg then t.registry.argNodes ++ _ else _
    split
    · exact List.prefix_append _ _
    · exact List.prefix_refl _
  · intro query entries hquery
    have hne : query ≠ id := by
      rintro rfl
      rw [hid] at hquery
      cases hquery
    rw [lookup_add, if_neg hne]
    exact h.lookup query entries hquery

theorem extends_record (s : Lowering) (value : Tensor) : Extends s (s.record value) :=
  ⟨rfl, List.prefix_refl _, List.prefix_refl _, List.prefix_append _ _, fun _ _ h => h,
    List.prefix_refl _⟩

/-- A visit only ever adds to a graph, also when it fails. -/
theorem extends_visit (e : Expr) (s : Lowering) : Extends s (visit e s).2 :=
  rel_visit Extends.refl (fun _ _ _ => Extends.trans) (fun s e _ => extends_note s e) extends_record
    (fun _ _ _ node h hid _ => h.add hid node) e s

theorem extends_visitFirst (e : Expr) (s : Lowering) : Extends s (visitFirst e s).2 := by
  rw [visitFirst_snd]
  exact extends_visit e s

theorem extends_serialize {f : Function} {s t : Lowering} {g : Graph}
    (h : serialize f s = (.ok g, t)) : Extends s t := by
  have hext := rel_serialize Extends.refl (fun _ _ _ => Extends.trans) extends_visit f s
  rwa [h] at hext

theorem symbol_of_serialize {F : Function} {g : Graph} {s t : Lowering}
    (h : serialize F s = (.ok g, t)) : g.symbol = s.symbol := by
  obtain ⟨-, -, heads, -, -, rfl⟩ := serialize_eq_ok_iff.1 h
  exact (extends_serialize h).symbol

/-- The outputs that a node is added with are those of its expression. -/
theorem lookup_of_add {id : Nat} {node : Node} {s t : Lowering} {entries : List Entry}
    (h : add id node s = (.ok entries, t)) : t.registry.lookup id = some entries := by
  cases h
  exact (lookup_add id node s id).trans (if_pos rfl)

/-- What a visit gives out is what the expression is known by from then on. -/
theorem lookup_of_visit {e : Expr} {s t : Lowering} {entries : List Entry}
    (h : visit e s = (.ok entries, t)) : t.registry.lookup e.id = some entries := by
  suffices ∀ entries t, visit e s = (.ok entries, t) → t.registry.lookup e.id = some entries from
    this entries t h
  refine visit_induction (motive := fun e _ out =>
    ∀ entries t, out = (.ok entries, t) → t.registry.lookup e.id = some entries)
    ?hit ?var ?constant ?function ?argument ?operator ?undeclared ?unmatched ?unbuilt ?fused e s
  case hit =>
      intro e s entries hid entries' t h
      cases h
      exact hid
  case var =>
      intro id name type s _ entries t h
      exact lookup_of_add h
  case constant =>
      intro id value s _ entries t h
      exact lookup_of_add h
  case operator =>
      intro id op args attrs s inputs t _ _ _ entries u h
      exact lookup_of_add h
  case fused =>
      intro id callee args attrs s kind p node t _ _ _ _ _ entries u h
      exact lookup_of_add h
  all_goals
      intros
      rename_i h
      cases h

end Lowering

end KernelGraph
