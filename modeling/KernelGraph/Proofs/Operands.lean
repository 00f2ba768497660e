import KernelGraph.Proofs.Declaration

/-!
The operands of a kernel. They are collected one after the other, in the order that the kind
promises; a kernel takes the one output of each of them, and a collection ends with the first
operand that is not there or cannot be lowered. Neither depends on which operands are the same, or
were lowered before.
-/

namespace KernelGraph

/-- How many operands a kernel of a kind has, with or without a bias. -/
def FusedKind.operandCount (biased : Bool) : FusedKind → Nat
  | dense | conv2d => if biased then 3 else 2
  | qnnDense | qnnConv2d => if biased then 11 else 10
  | qnnSoftmax | qnnSigmoid => 5
  | qnnAvgPool2d | avgPool2d | maxPool2d => 1

namespace Pattern

theorem length_operands (p : Pattern) (root : Call) :
    (p.kind.operands root p.links).length =
      p.kind.operandCount (p.links.lookup .bias).isSome := by
  rcases p with ⟨_ | pad, compute, _ | bias, _ | requantize⟩ | ⟨compute, _ | bias, _ | requantize⟩ |
    ⟨_ | _, dequantize, compute, quantize⟩ | ⟨preCast, compute, postCast⟩ |
    ⟨_ | _, pad, compute⟩ <;> rfl

theorem family_of_chain {family : Family} {chain : List Call} {p : Pattern}
    (h : ofChain family chain = .ok p) : p.family = family := by
  cases family with
  | convolution =>
      simp only [ofChain] at h
      obtain ⟨_, -, h⟩ := exists_of_bind_eq_ok h
      cases h
      rfl
  | dense =>
      simp only [ofChain] at h
      obtain ⟨_, -, h⟩ := exists_of_bind_eq_ok h
      cases h
      rfl
  | qnnSoftmax => rw [← family_kind, (follows_of_activation h).1, Activation.kind, FusedKind.family]
  | qnnSigmoid => rw [← family_kind, (follows_of_activation h).1, Activation.kind, FusedKind.family]
  | qnnAvgPool =>
      obtain ⟨_, -, h⟩ := exists_of_bind_eq_ok h
      obtain ⟨_, -, h⟩ := exists_of_bind_eq_ok h
      obtain ⟨_, -, h⟩ := exists_of_bind_eq_ok h
      cases h
      rfl
  | pool =>
      simp only [ofChain] at h
      split at h
      · cases h
        rfl
      · cases h
        rfl
      · cases h

theorem family_of_call {family : Family} {root : Call} {p : Pattern}
    (h : ofCall family root = .ok p) : p.family = family := by
  obtain ⟨chain, -, hchain⟩ := exists_of_bind_eq_ok h
  exact family_of_chain hchain

end Pattern

namespace Lowering

/-- Every expression that has a node has one output. -/
def Single (s : Lowering) : Prop :=
  ∀ id entries, s.registry.lookup id = some entries → ∃ entry, entries = [entry]

theorem Single.add {s : Lowering} (h : s.Single) (id : Nat) {node : Node}
    (hnode : node.outputs = 1) : (add id node s).2.Single := by
  intro query entries hquery
  rw [lookup_add, hnode] at hquery
  split at hquery
  · cases hquery
    exact ⟨_, rfl⟩
  · exact h query entries hquery

theorem single_visit (e : Expr) (s : Lowering) : s.Single → (visit e s).2.Single :=
  rel_visit (R := fun s t => s.Single → t.Single) (fun _ h => h)
    (fun _ _ _ hst htu h => htu (hst h)) (fun _ _ _ h => h) (fun _ _ h => h)
    (fun _ _ id _ hst _ hnode h => (hst h).add id hnode) e s

theorem single_visitFirst (e : Expr) (s : Lowering) (hs : s.Single) :
    (visitFirst e s).2.Single := by
  rw [visitFirst_snd]
  exact single_visit e s hs

/-- What a visit gives out is the one output there is. -/
theorem Single.exists_of_visit {x : Expr} {s t : Lowering} {entries : List Entry} (hs : s.Single)
    (h : visit x s = (.ok entries, t)) : ∃ entry, entries = [entry] := by
  have ht := single_visit x s hs
  rw [h] at ht
  exact ht x.id entries (lookup_of_visit h)

/-- The first output of an expression is the only one. -/
theorem visitFirst_eq_ok_iff {x : Expr} {s t : Lowering} {entry : Entry} (hs : s.Single) :
    visitFirst x s = (.ok entry, t) ↔ visit x s = (.ok [entry], t) := by
  rw [visitFirst]
  rcases hvisit : visit x s with ⟨err | entries, u⟩
  · simp [firstOf]
  · obtain ⟨entry', rfl⟩ := hs.exists_of_visit hvisit
    simp [firstOf]

/-- The first output of an expression is missing only if the visit fails. -/
theorem visitFirst_eq_error_iff {x : Expr} {s t : Lowering} {err : LoweringError} (hs : s.Single) :
    visitFirst x s = (.error err, t) ↔ visit x s = (.error err, t) := by
  rw [visitFirst]
  rcases hvisit : visit x s with ⟨err' | entries, u⟩
  · simp [firstOf]
  · obtain ⟨entry, rfl⟩ := hs.exists_of_visit hvisit
    simp [firstOf]

theorem visitOperand_eq_ok_iff {family : Family} {o : Operand} {s t : Lowering} {entry : Entry} :
    visitOperand family o s = (.ok entry, t) ↔
      ∃ x, o.expr? = some x ∧ visitFirst x s = (.ok entry, t) := by
  cases hx : o.expr? with
  | none => simp [visitOperand_of_none hx]
  | some x => simp [visitOperand_of_some hx]

/-- An operand fails if it is not there, or as its visit does. -/
theorem visitOperand_eq_error_iff {family : Family} {o : Operand} {s t : Lowering}
    {err : LoweringError} (hs : s.Single) :
    visitOperand family o s = (.error err, t) ↔
      o.expr? = none ∧ err = .violation family o.missing ∧ t = s ∨
        ∃ x, o.expr? = some x ∧ visit x s = (.error err, t) := by
  cases hx : o.expr? with
  | none => simp [visitOperand_of_none hx, eq_comm]
  | some x => simp [visitOperand_of_some hx, visitFirst_eq_error_iff hs]

/-- The outputs that are collected are those of the expressions, each at its own position. -/
theorem lookup_of_all {xs : List Expr} {s t : Lowering} {inputs : List Entry} (hs : s.Single)
    (h : Step.all (xs.map visitFirst) s = (.ok inputs, t)) :
    inputs.map (fun entry => some [entry]) = xs.map fun x => t.registry.lookup x.id := by
  induction xs generalizing s inputs with
  | nil =>
      cases h
      rfl
  | cons x xs ih =>
      obtain ⟨entry, rest, m, hx, hrest, rfl⟩ := Step.all_cons_eq_ok_iff.1 h
      have hm := single_visitFirst x s hs
      rw [hx] at hm
      have hext : m.Extends (Step.all (xs.map visitFirst) m).2 :=
        Step.rel_all Extends.refl (fun _ _ _ => Extends.trans)
          (List.forall_mem_map.2 fun y _ => extends_visitFirst y) m
      rw [hrest] at hext
      have hlookup := hext.lookup x.id _ (lookup_of_visit ((visitFirst_eq_ok_iff hs).1 hx))
      rw [List.map_cons, List.map_cons, ih hm hrest, hlookup]

/-- Operands are collected by lowering their expressions in order, all of which must be there. -/
theorem collect_eq_ok_iff {family : Family} {operands : List Operand} {s t : Lowering}
    {inputs : List Entry} :
    Step.all (operands.map (visitOperand family)) s = (.ok inputs, t) ↔
      ∃ xs : List Expr, operands.map Operand.expr? = xs.map some ∧
        Step.all (xs.map visitFirst) s = (.ok inputs, t) := by
  induction operands generalizing s inputs with
  | nil =>
      constructor
      · intro h
        exact ⟨[], rfl, h⟩
      · rintro ⟨xs, hxs, h⟩
        obtain rfl : xs = [] := List.map_eq_nil_iff.1 hxs.symm
        exact h
  | cons o operands ih =>
      rw [List.map_cons, Step.all_cons_eq_ok_iff]
      constructor
      · rintro ⟨entry, rest, m, ho, hrest, rfl⟩
        obtain ⟨xs, hxs, hall⟩ := ih.1 hrest
        obtain ⟨x, hx, ho⟩ := visitOperand_eq_ok_iff.1 ho
        exact ⟨x :: xs, by rw [List.map_cons, hx, hxs, List.map_cons],
          Step.all_cons_eq_ok_iff.2 ⟨entry, rest, m, ho, hall, rfl⟩⟩
      · rintro ⟨xs, hxs, hall⟩
        cases xs with
        | nil => cases hxs
        | cons x xs =>
            obtain ⟨hx, hxs⟩ := List.cons.inj hxs
            obtain ⟨entry, rest, m, ho, hrest, rfl⟩ := Step.all_cons_eq_ok_iff.1 hall
            exact ⟨entry, rest, m, visitOperand_eq_ok_iff.2 ⟨x, hx, ho⟩, ih.2 ⟨xs, hxs, hrest⟩, rfl⟩

theorem single_collect {family : Family} {operands : List Operand} {s t : Lowering}
    {inputs : List Entry} (hs : s.Single)
    (h : Step.all (operands.map (visitOperand family)) s = (.ok inputs, t)) : t.Single := by
  have ht : (Step.all (operands.map (visitOperand family)) s).2.Single :=
    Step.rel_all (R := fun s t => s.Single → t.Single) (fun _ h => h)
      (fun _ _ _ hst htu h => htu (hst h)) (List.forall_mem_map.2 fun o _ =>
        rel_visitOperand (R := fun s t => s.Single → t.Single) (fun _ h => h)
          fun x _ => single_visit x) s hs
  rw [h] at ht
  exact ht

/-- A collection fails with the first operand that is not there or cannot be lowered, after all that
come before it were lowered. -/
theorem collect_eq_error_iff {family : Family} {operands : List Operand} {s t : Lowering}
    {err : LoweringError} (hs : s.Single) :
    Step.all (operands.map (visitOperand family)) s = (.error err, t) ↔
      ∃ (before : List Operand) (o : Operand) (after : List Operand) (xs : List Expr)
        (inputs : List Entry) (u : Lowering), operands = before ++ o :: after ∧
        before.map Operand.expr? = xs.map some ∧
        Step.all (xs.map visitFirst) s = (.ok inputs, u) ∧
        (o.expr? = none ∧ err = .violation family o.missing ∧ t = u ∨
          ∃ x, o.expr? = some x ∧ visit x u = (.error err, t)) := by
  rw [Step.all_eq_error_iff]
  constructor
  · rintro ⟨fs, f, gs, inputs, u, hsplit, hall, hf⟩
    obtain ⟨before, rest, rfl, rfl, hrest⟩ := List.map_eq_append_iff.1 hsplit
    obtain ⟨o, after, rfl, rfl, -⟩ := List.map_eq_cons_iff.1 hrest
    have hu := single_collect hs hall
    obtain ⟨xs, hxs, hall⟩ := collect_eq_ok_iff.1 hall
    exact ⟨before, o, after, xs, inputs, u, rfl, hxs, hall, (visitOperand_eq_error_iff hu).1 hf⟩
  · rintro ⟨before, o, after, xs, inputs, u, rfl, hxs, hall, hfail⟩
    have hcollect : Step.all (before.map (visitOperand family)) s = (.ok inputs, u) :=
      collect_eq_ok_iff.2 ⟨xs, hxs, hall⟩
    have hu := single_collect hs hcollect
    refine ⟨_, _, after.map (visitOperand family), inputs, u, ?_, hcollect,
      (visitOperand_eq_error_iff hu).2 hfail⟩
    rw [List.map_append, List.map_cons]

end Lowering

theorem Session.single_run (symbol : String) (requests : List Request) :
    (run symbol requests).lowering.Single :=
  invariant_run symbol (fun _ _ h => by cases h) Lowering.single_visit requests

open Lowering

/-- The operands of a kernel are what its kind promises. In every graph that a session leads to, a
kernel that is built takes the one output of each of them, in their order. They cannot be collected
exactly if one of them is not there or cannot be lowered, and the first such operand is the reason.
-/
theorem ofPattern_operands (symbol : String) (requests : List Request) (family : Family)
    (root : Call) (p : Pattern) (hp : Pattern.ofCall family root = .ok p) :
    let s := (Session.run symbol requests).lowering
    let promised := p.kind.operands root p.links
    (∀ node t, ofPattern p root s = (.ok node, t) →
      ∃ xs : List Expr, promised.map Operand.expr? = xs.map some ∧
        Step.all (xs.map visitFirst) s = (.ok node.inputs, t) ∧
        node.inputs.map (fun entry => some [entry]) = xs.map (fun x => t.registry.lookup x.id) ∧
        node.inputs.length = p.kind.operandCount (p.links.lookup .bias).isSome) ∧
    ∀ err t, (lowerOperands p root s = (.error err, t) ↔
      ∃ (before : List Operand) (o : Operand) (after : List Operand) (xs : List Expr)
        (inputs : List Entry) (u : Lowering), promised = before ++ o :: after ∧
        before.map Operand.expr? = xs.map some ∧
        Step.all (xs.map visitFirst) s = (.ok inputs, u) ∧
        (o.expr? = none ∧ err = .violation family o.missing ∧ t = u ∨
          ∃ x, o.expr? = some x ∧ visit x u = (.error err, t))) ∧
      (p.check = .ok () → lowerOperands p root s = (.error err, t) →
        ofPattern p root s = (.error err, t)) := by
  intro s promised
  have hs : s.Single := Session.single_run symbol requests
  have hpromised : p.operands root = promised := p.operands_eq root
  have hfamily : p.family = family := Pattern.family_of_call hp
  refine ⟨fun node t h => ?_, fun err t => ⟨?_, fun hcheck hcollect => ?_⟩⟩
  · obtain ⟨-, inputs, copied, hcollect, -, rfl⟩ := ofPattern_eq_ok_iff.1 h
    rw [lowerOperands, hpromised] at hcollect
    obtain ⟨xs, hxs, hall⟩ := collect_eq_ok_iff.1 hcollect
    refine ⟨xs, hxs, hall, lookup_of_all hs hall, ?_⟩
    calc inputs.length
        = (promised.map (visitOperand p.family)).length := Step.length_of_all hcollect
      _ = promised.length := List.length_map _
      _ = p.kind.operandCount (p.links.lookup .bias).isSome := p.length_operands root
  · rw [lowerOperands, hpromised, hfamily]
    exact collect_eq_error_iff hs
  · rw [ofPattern_eq, hcheck, hcollect]

namespace Sigmoids

theorem base_sound : Sound (Expr.Among (inner :: Session.exprs [.visit data])) base :=
  (sound_run inner_unambiguous "main" fun _ hx => hx.mono (List.subset_cons_self _ _)).1

theorem ofPattern_isOk :
    ∃ node t, ofPattern pattern ⟨.expr fused, [data], .empty⟩ base = (.ok node, t) := by
  have hp : Pattern.ofKind .qnnSigmoid ⟨.expr fused, [data], .empty⟩ = .ok pattern := rfl
  obtain ⟨inputs, t, h⟩ := (lowerOperands_isOk_iff pattern ⟨.expr fused, [data], .empty⟩
    inner_unambiguous base_sound fun o ho x hx y hy =>
      .of_mem List.mem_cons_self ((Expr.reaches_operand 8 hp ho hx).trans hy)).2
        lowers_operands
  exact ⟨_, t, ofPattern_eq_ok_iff.2 ⟨rfl, inputs, _, h, rfl, rfl⟩⟩

/-- The scale and the zero point are taken twice, once for the input and once for the output. -/
theorem pattern_operands : Pattern.ofCall .qnnSigmoid ⟨.expr fused, [data], .empty⟩ = .ok pattern ∧
    ∃ node t, ofPattern pattern ⟨.expr fused, [data], .empty⟩ base = (.ok node, t) ∧
      Step.all ([data, scale, zeroPoint, scale, zeroPoint].map visitFirst) base =
        (.ok node.inputs, t) ∧ node.inputs.length = 5 := by
  obtain ⟨node, t, h⟩ := ofPattern_isOk
  obtain ⟨xs, hxs, hall, -, hlength⟩ := (ofPattern_operands "main" [.visit data] .qnnSigmoid
    ⟨.expr fused, [data], .empty⟩ pattern rfl).1 node t h
  have hexprs : [data, scale, zeroPoint, scale, zeroPoint].map some = xs.map some := hxs
  obtain rfl := List.map_injective_iff.2 (fun _ _ => Option.some.inj) hexprs
  exact ⟨rfl, node, t, h, hall, hlength⟩

end Sigmoids

end KernelGraph
