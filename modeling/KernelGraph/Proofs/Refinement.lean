import KernelGraph.Proofs.Session
import KernelGraph.Proofs.Tree

/-!
Visits compute trees. A visit remembers what it lowered and shares it, a tree does neither; where
identities are unambiguous the two come to the same (`visit_outcome`), in every graph that a session
can lead to. The invariant is that what is known by an identity unfolds to the tree of the node that
has it, and that constants are named in the order in which they were recorded.
-/

namespace KernelGraph

/-- A run and what it is held against end alike: both with values that belong together, or both with
one error. -/
inductive Agrees {α β : Type} (R : α → β → Prop) :
    Except LoweringError α → Except LoweringError β → Prop
  | ok {a : α} {b : β} : R a b → Agrees R (.ok a) (.ok b)
  | error (err : LoweringError) : Agrees R (.error err) (.error err)

/-- The one output of an expression stands for a tree. -/
def StandsFor (r : Registry) (entries : List Entry) (tree : Tree) : Prop :=
  ∃ entry, entries = [entry] ∧ r.unfold entry = some tree

theorem Agrees.error_iff {α β : Type} {R : α → β → Prop} {a : Except LoweringError α}
    {b : Except LoweringError β} (h : Agrees R a b) (err : LoweringError) :
    b = .error err ↔ a = .error err := by
  cases h with
  | ok _ => simp
  | error err' => simp

theorem Agrees.tree_iff {r : Registry} {a : Except LoweringError (List Entry)}
    {b : Except LoweringError Tree} (h : Agrees (StandsFor r) a b) (tree : Tree) :
    b = .ok tree ↔ ∃ entry, a = .ok [entry] ∧ r.unfold entry = some tree := by
  cases h with
  | error err => simp
  | ok hstands =>
      obtain ⟨entry, rfl, hu⟩ := hstands
      simp [hu]

/-- All that a graph remembers is right, among nodes whose identities are unambiguous. -/
structure Sound (nodes : Expr → Prop) (s : Lowering) : Prop where
  constants : s.registry.params.map (·.1) =
    (List.range s.registry.params.length).map (Lowering.constantName s.symbol)
  memo : ∀ id entries, s.registry.lookup id = some entries → ∃ e tree, nodes e ∧ e.id = id ∧
    e.tree = .ok tree ∧ StandsFor s.registry entries tree

/-- A kernel that was built, but not added, stands for a tree. -/
structure Builds (r : Registry) (node : Node) (tree : Tree) : Prop where
  op : node.op = .kernel
  outputs : node.outputs = 1
  tree : node.tree? r.params r.unfold = some tree

/-- A step ends in a sound graph, and with what is expected of it. -/
structure Outcome {α β : Type} (nodes : Expr → Prop) (R : Registry → α → β → Prop)
    (expected : Except LoweringError β) (out : Except LoweringError α × Lowering) : Prop where
  sound : Sound nodes out.2
  agrees : Agrees (R out.2.registry) out.1 expected

namespace Lowering

theorem constantName_injective {symbol : String} {j k : Nat}
    (h : constantName symbol j = constantName symbol k) : j = k := by
  have hdigits : toString j = toString k := (String.append_right_inj (symbol ++ "_const_")).1 h
  rw [Nat.toString_eq_ofList_toDigits, Nat.toString_eq_ofList_toDigits] at hdigits
  have hlist := String.ofList_injective hdigits
  rw [← Nat.ofDigitChars_ten_toDigits (n := j), hlist, Nat.ofDigitChars_ten_toDigits]

theorem unfold_of_extends {s t : Lowering} (h : s.Extends t) {entry : Entry} {tree : Tree}
    (hu : s.registry.unfold entry = some tree) : t.registry.unfold entry = some tree :=
  Registry.unfold_mono h.nodes h.params hu

theorem standsFor_of_extends {s t : Lowering} (h : s.Extends t) {entries : List Entry} {tree : Tree}
    (hs : StandsFor s.registry entries tree) : StandsFor t.registry entries tree := by
  obtain ⟨entry, rfl, hu⟩ := hs
  exact ⟨entry, rfl, unfold_of_extends h hu⟩

end Lowering

open Lowering

namespace Sound

variable {nodes : Expr → Prop}

theorem start (symbol : String) : Sound nodes (Lowering.start symbol) :=
  ⟨rfl, fun _ _ h => by cases h⟩

theorem note {s : Lowering} (h : Sound nodes s) (e : Event) : Sound nodes (s.note e) :=
  ⟨h.constants, h.memo⟩

theorem noteOperator {s : Lowering} (h : Sound nodes s) (op : String) :
    Sound nodes (noteOperator op s) := by
  unfold Lowering.noteOperator
  split
  · exact h
  · exact h.note _

/-- Recording a constant keeps what entries stand for, since its name is a new one. -/
theorem record {s : Lowering} (h : Sound nodes s) (value : Tensor) :
    Sound nodes (s.record value) := by
  refine ⟨?_, fun id entries hid => ?_⟩
  · show
      (s.registry.params ++ [(constantName s.symbol s.registry.params.length, value)]).map (·.1) =
        (List.range (s.registry.params ++ [_]).length).map (constantName s.symbol)
    rw [List.map_append, h.constants, List.length_append, List.length_singleton, List.range_succ,
      List.map_append]
    rfl
  · obtain ⟨e, tree, he, heid, htree, hs⟩ := h.memo id entries hid
    exact ⟨e, tree, he, heid, htree, standsFor_of_extends (extends_record s value) hs⟩

/-- The value of the constant that was recorded last is found under its name. -/
theorem lookup_record {s : Lowering} (h : Sound nodes s) (value : Tensor) :
    (s.record value).registry.params.lookup (constantName s.symbol s.registry.params.length) =
      some value := by
  have hnew : constantName s.symbol s.registry.params.length ∉ s.registry.params.map (·.1) := by
    rw [h.constants]
    intro hmem
    obtain ⟨k, hk, heq⟩ := List.mem_map.1 hmem
    exact Nat.ne_of_lt (List.mem_range.1 hk) (constantName_injective heq)
  show (s.registry.params ++ [_]).lookup _ = some value
  rw [List.lookup_append, List.lookup_eq_none_iff.2, Option.none_or]
  · simp
  · intro p hp
    rw [bne_iff_ne]
    intro heq
    exact hnew (heq ▸ List.mem_map_of_mem hp)

/-- A new node stands for the tree of its expression, and what was known before still does. -/
theorem add {s : Lowering} (h : Sound nodes s) {e : Expr} (he : nodes e) {node : Node} {tree : Tree}
    (houtputs : node.outputs = 1)
    (hnode : node.tree? s.registry.params s.registry.unfold = some tree)
    (htree : e.tree = .ok tree) : Outcome nodes StandsFor e.tree (Lowering.add e.id node s) := by
  have hnew : (Lowering.add e.id node s).2.registry.unfold ⟨s.registry.nodes.length, 0, 0⟩ =
      some tree := Registry.unfold_new (by omega) hnode
  have hentries : Registry.entries s.registry.nodes.length node.outputs =
      [⟨s.registry.nodes.length, 0, 0⟩] := by
    rw [houtputs]
    rfl
  have hstands : StandsFor (Lowering.add e.id node s).2.registry
      (Registry.entries s.registry.nodes.length node.outputs) tree := ⟨_, hentries, hnew⟩
  refine ⟨⟨h.constants, fun id entries hid => ?_⟩, ?_⟩
  · rw [lookup_add] at hid
    split at hid
    · rename_i heq
      cases hid
      exact ⟨e, tree, he, heq.symm, htree, hstands⟩
    · obtain ⟨d, tree', hd, hdid, htree', entry, rfl, hu⟩ := h.memo id entries hid
      exact ⟨d, tree', hd, hdid, htree', entry, rfl,
        Registry.unfold_mono (List.prefix_append _ _) (List.prefix_refl _) hu⟩
  · rw [htree]
    exact .ok hstands

end Sound

section Steps

variable {nodes : Expr → Prop}

/-- Steps taken one after the other give what is expected of each, in order, or end with the first
error that is expected. -/
theorem outcome_all {ι α β : Type} {R : Registry → α → β → Prop} {items : List ι}
    {f : ι → Step α} {expected : ι → Except LoweringError β}
    (hgrow : ∀ i ∈ items, ∀ s, Extends s (f i s).2)
    (hmono : ∀ s t : Lowering, s.Extends t → ∀ a b, R s.registry a b → R t.registry a b)
    (h : ∀ i ∈ items, ∀ s, Sound nodes s → Outcome nodes R (expected i) (f i s))
    {s : Lowering} (hs : Sound nodes s) :
    Outcome nodes (fun r => List.Forall₂ (R r)) (allOf (items.map expected))
      (Step.all (items.map f) s) := by
  induction items generalizing s with
  | nil => exact ⟨hs, .ok .nil⟩
  | cons i items ih =>
      have hi := h i List.mem_cons_self s hs
      rw [List.map_cons, List.map_cons, allOf_cons, Step.all]
      generalize f i s = out at hi
      obtain ⟨result, t⟩ := out
      obtain ⟨ht, hagrees⟩ := hi
      generalize expected i = e at hagrees ⊢
      cases hagrees with
      | error err => exact ⟨ht, .error err⟩
      | ok hab =>
          have hrest := ih (fun j hj => hgrow j (List.mem_cons_of_mem i hj))
            (fun j hj => h j (List.mem_cons_of_mem i hj)) ht
          have hext : t.Extends (Step.all (items.map f) t).2 :=
            Step.rel_all Extends.refl (fun _ _ _ => Extends.trans)
              (List.forall_mem_map.2 fun j hj => hgrow j (List.mem_cons_of_mem i hj)) t
          dsimp only
          generalize Step.all (items.map f) t = out at hrest hext ⊢
          obtain ⟨result, u⟩ := out
          obtain ⟨hu, hagrees⟩ := hrest
          generalize allOf (items.map expected) = es at hagrees ⊢
          cases hagrees with
          | error err => exact ⟨hu, .error err⟩
          | ok hall => exact ⟨hu, .ok (.cons (hmono t u hext _ _ hab) hall)⟩

/-- The first output stands for the tree, as the only one there is. -/
theorem Outcome.firstOf {key : String} {expected : Except LoweringError Tree}
    {out : Except LoweringError (List Entry) × Lowering}
    (h : Outcome nodes StandsFor expected out) :
    Outcome nodes (fun r entry tree => r.unfold entry = some tree) expected
      (Lowering.firstOf key out) := by
  obtain ⟨result, t⟩ := out
  obtain ⟨ht, hagrees⟩ := h
  cases hagrees with
  | error err => exact ⟨ht, .error err⟩
  | ok hs =>
      obtain ⟨entry, rfl, hu⟩ := hs
      exact ⟨ht, .ok hu⟩

/-- Operands come to their trees if visits of them do. -/
theorem outcome_lowerOperands {p : Pattern} {root : Call}
    (h : ∀ o ∈ p.operands root, ∀ x, o.expr? = some x → ∀ s, Sound nodes s →
      Outcome nodes StandsFor x.tree (visit x s)) {s : Lowering} (hs : Sound nodes s) :
    Outcome nodes (fun r => List.Forall₂ fun entry tree => r.unfold entry = some tree)
      (allOf ((p.operands root).map (Operand.tree p.family))) (lowerOperands p root s) := by
  refine outcome_all (fun o _ => rel_visitOperand Extends.refl fun x _ => extends_visit x)
    (fun t u htu entry tree => unfold_of_extends htu) (fun o ho t ht => ?_) hs
  cases hx : o.expr? with
  | none =>
      rw [visitOperand_of_none hx, Operand.tree_of_none hx]
      exact ⟨ht, .error _⟩
  | some x =>
      rw [visitOperand_of_some hx, Operand.tree_of_some hx]
      exact (h o ho x hx t ht).firstOf

/-- A kernel comes to its tree if visits of its operands come to theirs. -/
theorem outcome_ofPattern {p : Pattern} {root : Call}
    (h : ∀ o ∈ p.operands root, ∀ x, o.expr? = some x → ∀ s, Sound nodes s →
      Outcome nodes StandsFor x.tree (visit x s)) {s : Lowering} (hs : Sound nodes s) :
    Outcome nodes Builds (p.tree ((p.operands root).map (Operand.tree p.family)))
      (ofPattern p root s) := by
  have hoperands := outcome_lowerOperands h hs
  rw [ofPattern_eq, Pattern.tree]
  cases p.check with
  | error v => exact ⟨hs, .error _⟩
  | ok _ =>
      dsimp only
      generalize lowerOperands p root s = out at hoperands ⊢
      obtain ⟨result, t⟩ := out
      obtain ⟨ht, hagrees⟩ := hoperands
      generalize allOf ((p.operands root).map (Operand.tree p.family)) = trees at hagrees ⊢
      cases hagrees with
      | error err => exact ⟨ht, .error err⟩
      | @ok inputs trees hall =>
          dsimp only
          cases p.attrs with
          | error v => exact ⟨ht, .error _⟩
          | ok attrs =>
              refine ⟨ht, .ok ⟨rfl, rfl, ?_⟩⟩
              show (inputs.mapM t.registry.unfold).map _ = _
              rw [mapM_eq_some_iff.2 hall]
              rfl

/-- A call of an operator takes the one output of each argument. -/
theorem mapM_unfold_flatten {r : Registry} {inputs : List (List Entry)} {trees : List Tree}
    (h : List.Forall₂ (StandsFor r) inputs trees) :
    inputs.flatten.mapM r.unfold = some trees := by
  rw [mapM_eq_some_iff]
  induction h with
  | nil => exact .nil
  | cons hs _ ih =>
      obtain ⟨entry, rfl, hu⟩ := hs
      exact .cons hu ih

/-- Arguments come to their trees if visits of them do. -/
theorem outcome_arguments {args : List Expr}
    (h : ∀ a ∈ args, ∀ s, Sound nodes s → Outcome nodes StandsFor a.tree (visit a s))
    {s : Lowering} (hs : Sound nodes s) :
    Outcome nodes (fun r => List.Forall₂ (StandsFor r)) (allOf (args.map Expr.tree))
      (Step.all (args.map visit) s) :=
  outcome_all (fun a _ => extends_visit a)
    (fun _ _ hext _ _ hstands => standsFor_of_extends hext hstands) h hs

/-- A visit of an expression comes to its tree, in a graph that remembers only what is right. -/
theorem visit_outcome (hids : Expr.Unambiguous nodes) (e : Expr) (s : Lowering)
    (hs : Sound nodes s) (he : ∀ x, e.Reaches x → nodes x) :
    Outcome nodes StandsFor e.tree (visit e s) := by
  revert hs he
  refine visit_induction (motive := fun e s out => Sound nodes s → (∀ x, e.Reaches x → nodes x) →
    Outcome nodes StandsFor e.tree out) ?hit ?var ?constant ?function ?argument ?operator
    ?undeclared ?unmatched ?unbuilt ?fused e s
  case hit =>
      intro e s entries hlookup hs he
      obtain ⟨d, tree, hd, hid, htree, hstands⟩ := hs.memo e.id entries hlookup
      -- what is known by the identity is known of this very node
      obtain rfl : d = e := hids d e hd (he e (.refl e)) hid
      rw [htree]
      exact ⟨hs, .ok hstands⟩
  case var =>
      intro id name type s _ hs he
      refine hs.add (he _ (.refl _)) rfl ?_ (Expr.tree_var id name type)
      show some (Tree.input name (Node.input name type).type?) = _
      rw [Node.type?_input]
  case constant =>
      intro id value s _ hs he
      rw [addConstant_eq]
      refine (hs.record value).add (he _ (.refl _)) rfl ?_ (Expr.tree_constant id value)
      exact congrArg (Option.map Tree.const) (hs.lookup_record value)
  case function =>
      intro id params body attrs s _ hs _
      rw [Expr.tree_function]
      exact ⟨hs, .error _⟩
  case argument =>
      intro id op args attrs s err t _ ih hargs hs he
      have hout := outcome_arguments (fun a ha u hu => ih a ha u hu fun x hx => he x (.step ha hx))
        (hs.noteOperator op)
      rw [hargs] at hout
      obtain ⟨ht, hagrees⟩ := hout
      rw [Expr.tree_opCall]
      generalize allOf (args.map Expr.tree) = trees at hagrees ⊢
      cases hagrees
      exact ⟨ht, .error err⟩
  case operator =>
      intro id op args attrs s inputs t _ ih hargs hs he
      have hout := outcome_arguments (fun a ha u hu => ih a ha u hu fun x hx => he x (.step ha hx))
        (hs.noteOperator op)
      rw [hargs] at hout
      obtain ⟨ht, hagrees⟩ := hout
      have htree := Expr.tree_opCall id op args attrs
      generalize allOf (args.map Expr.tree) = trees at hagrees htree
      cases hagrees with
      | ok hall =>
          refine ht.add (he _ (.refl _)) rfl ?_ htree
          show (inputs.flatten.mapM t.registry.unfold).map _ = _
          rw [mapM_unfold_flatten hall]
          rfl
  case undeclared =>
      intro id callee args attrs s err t _ hkind hdeclared hs _
      have ht : Sound nodes t := holds_of_declaredKind hdeclared hs fun _ => hs.note _
      rw [Expr.tree_exprCall, hkind]
      exact ⟨ht, .error err⟩
  case unmatched =>
      intro id callee args attrs s kind err _ hkind hp hs _
      rw [Expr.tree_unmatched id hkind hp]
      exact ⟨hs.note _, .error err⟩
  case unbuilt =>
      intro id callee args attrs s kind p err t _ hkind hp ih hnode hs he
      have hout := outcome_ofPattern (fun o ho x hx u hu => ih o ho x hx u hu fun y hy =>
        he y ((Expr.reaches_operand id hp ho hx).trans hy)) hs
      rw [hnode] at hout
      obtain ⟨ht, hagrees⟩ := hout
      rw [Expr.tree_fused id hkind hp]
      generalize p.tree _ = tree at hagrees ⊢
      cases hagrees
      exact ⟨ht.note _, .error err⟩
  case fused =>
      intro id callee args attrs s kind p node t _ hkind hp ih hnode hs he
      have hout := outcome_ofPattern (fun o ho x hx u hu => ih o ho x hx u hu fun y hy =>
        he y ((Expr.reaches_operand id hp ho hx).trans hy)) hs
      rw [hnode] at hout
      obtain ⟨ht, hagrees⟩ := hout
      have htree := Expr.tree_fused id hkind hp
      generalize p.tree _ = tree at hagrees htree
      cases hagrees with
      | ok h => exact (ht.note _).add (he _ (.refl _)) h.outputs h.tree htree

end Steps

/-! ### Sessions -/

section Sessions

variable {nodes : Expr → Prop}

theorem Builds.unfold_input {r : Registry} {node : Node} {tree : Tree} (h : Builds r node tree)
    {entry : Entry} (hentry : entry ∈ node.inputs) : ∃ tree, r.unfold entry = some tree := by
  have htree := h.tree
  rw [Node.tree?, h.op] at htree
  obtain ⟨inputs, hinputs, -⟩ := Option.map_eq_some_iff.1 htree
  exact exists_of_mapM hinputs hentry

/-- A request leaves a sound graph, in which what it gives out unfolds. -/
theorem sound_answer (hids : Expr.Unambiguous nodes) {s : Lowering} (hs : Sound nodes s)
    (r : Request) (hr : ∀ x, Expr.Among r.exprs x → nodes x) :
    Sound nodes (r.answer s).2 ∧
      ∀ entry ∈ (r.answer s).1, ∃ tree, (r.answer s).2.registry.unfold entry = some tree := by
  cases r with
  | visit e =>
      have hout := visit_outcome hids e s hs fun x hx => hr x ⟨e, List.mem_cons_self, hx⟩
      refine ⟨hout.sound, fun entry hentry => ?_⟩
      have hagrees := hout.agrees
      simp only [Request.answer] at hentry ⊢
      generalize visit e s = out at hagrees hentry ⊢
      obtain ⟨result, t⟩ := out
      generalize e.tree = tree at hagrees
      cases hagrees with
      | error err => cases hentry
      | ok hstands =>
          obtain ⟨entry', rfl, hu⟩ := hstands
          obtain rfl := List.mem_singleton.1 hentry
          exact ⟨_, hu⟩
  | visitFirst e =>
      have hout : Outcome nodes _ e.tree (visitFirst e s) :=
        (visit_outcome hids e s hs fun x hx => hr x ⟨e, List.mem_cons_self, hx⟩).firstOf
      refine ⟨hout.sound, fun entry hentry => ?_⟩
      have hagrees := hout.agrees
      simp only [Request.answer] at hentry ⊢
      generalize visitFirst e s = out at hagrees hentry ⊢
      obtain ⟨result, t⟩ := out
      generalize e.tree = tree at hagrees
      cases hagrees with
      | error err => cases hentry
      | ok hu =>
          obtain rfl := List.mem_singleton.1 hentry
          exact ⟨_, hu⟩
  | lower family root =>
      simp only [Request.answer, lower]
      cases hp : Pattern.ofCall family root with
      | error err => exact ⟨hs, fun entry hentry => by cases hentry⟩
      | ok p =>
          have hout : Outcome nodes Builds _ (ofPattern p root s) :=
            outcome_ofPattern (fun o ho x hx t ht => visit_outcome hids x t ht fun y hy =>
              hr y ((Pattern.among_of_mem_operands hp ho hx).trans hy)) hs
          refine ⟨hout.sound, fun entry hentry => ?_⟩
          have hagrees := hout.agrees
          dsimp only at hentry ⊢
          generalize ofPattern p root s = out at hagrees hentry ⊢
          obtain ⟨result, t⟩ := out
          generalize p.tree _ = tree at hagrees
          cases hagrees with
          | error err => cases hentry
          | ok hbuilds => exact hbuilds.unfold_input hentry

/-- A session leaves a sound graph, in which everything that was given out unfolds. -/
theorem sound_run (hids : Expr.Unambiguous nodes) (symbol : String) {requests : List Request}
    (hnodes : ∀ x, Expr.Among (Session.exprs requests) x → nodes x) :
    Sound nodes (Session.run symbol requests).lowering ∧
      ∀ entry ∈ (Session.run symbol requests).given,
        ∃ tree, (Session.run symbol requests).lowering.registry.unfold entry = some tree := by
  induction requests using List.reverseRecOn with
  | nil => exact ⟨.start symbol, fun entry hentry => by cases hentry⟩
  | append_singleton requests r ih =>
      rw [Session.exprs_append] at hnodes
      obtain ⟨hs, hgiven⟩ := ih fun x hx => hnodes x (hx.mono (List.subset_append_left _ _))
      obtain ⟨ht, hnew⟩ := sound_answer hids hs r fun x hx =>
        hnodes x (hx.mono (Session.exprs_singleton r ▸ List.subset_append_right _ _))
      rw [Session.run_concat]
      refine ⟨ht, fun entry hentry => ?_⟩
      rcases List.mem_append.1 hentry with hold | hentry
      · obtain ⟨tree, hu⟩ := hgiven entry hold
        exact ⟨tree, unfold_of_extends (Request.extends_answer _ r) hu⟩
      · exact hnew entry hentry

/-- In every graph that a session leads to, a visit succeeds exactly where there is a tree. Then it
gives out one entry, which unfolds to the tree, and otherwise it fails with the error of the tree.
All that the session gave out before unfolds as it did when it was given out. -/
theorem visit_refines_tree (symbol : String) (requests : List Request) (e : Expr)
    (hids : Expr.Unambiguous (Expr.Among (e :: Session.exprs requests))) :
    let out := visit e (Session.run symbol requests).lowering
    (∀ tree, e.tree = .ok tree ↔
      ∃ entry, out.1 = .ok [entry] ∧ out.2.registry.unfold entry = some tree) ∧
    (∀ err, e.tree = .error err ↔ out.1 = .error err) ∧
    ∀ earlier, earlier <+: requests → ∀ entry ∈ (Session.run symbol earlier).given,
      ∃ tree, (Session.run symbol earlier).lowering.registry.unfold entry = some tree ∧
        out.2.registry.unfold entry = some tree := by
  intro out
  have hrequests : ∀ x, Expr.Among (Session.exprs requests) x →
      Expr.Among (e :: Session.exprs requests) x := fun x hx => hx.mono (List.subset_cons_self _ _)
  have hout : Outcome _ StandsFor e.tree out := visit_outcome hids e _
    (sound_run hids symbol hrequests).1 fun x hx => .of_mem List.mem_cons_self hx
  refine ⟨hout.agrees.tree_iff, hout.agrees.error_iff, fun earlier hearlier entry hentry => ?_⟩
  obtain ⟨rest, rfl⟩ := hearlier
  obtain ⟨tree, hu⟩ := (sound_run hids symbol fun x hx =>
    hrequests x (hx.mono (Session.exprs_append earlier rest ▸ List.subset_append_left _ _))).2
      entry hentry
  exact ⟨tree, hu, unfold_of_extends
    ((Session.extends_run symbol earlier rest).trans (extends_visit e _)) hu⟩

end Sessions

/-! Two calls of one fused sigmoid, the second over the first, whose scales and zero points are the
same constants. -/

namespace Sigmoids

def scale : Expr := .constant 0 (.ofInt32 1)

def zeroPoint : Expr := .constant 1 (.ofInt32 0)

def param : Expr := .var 2 "x" none

def dequantize : Expr := .opCall 3 "qnn.dequantize" [param, scale, zeroPoint] .empty

def sigmoid : Expr := .opCall 4 "sigmoid" [dequantize] .empty

def quantize : Expr := .opCall 5 "qnn.quantize" [sigmoid, scale, zeroPoint] .empty

def fused : Expr := .composite 6 "vsi_npu.qnn_sigmoid" [param] quantize

def data : Expr := .var 7 "data" none

def inner : Expr := .exprCall 8 fused [data] .empty

def outer : Expr := .exprCall 9 fused [inner] .empty

/-- The nodes of both calls. -/
def nodes : List Expr :=
  [scale, zeroPoint, param, dequantize, sigmoid, quantize, fused, data, inner, outer]

theorem children_subset_nodes : ∀ x ∈ nodes, x.children ⊆ nodes := by
  simp [nodes, Expr.children, Expr.composite, scale, zeroPoint, param, dequantize, sigmoid,
    quantize, fused, data, inner, outer]

theorem unambiguous {es : List Expr} (hes : es ⊆ nodes) : Expr.Unambiguous (Expr.Among es) :=
  Expr.unambiguous_of_nodup nodes hes children_subset_nodes (by decide)

/-- The inner call is lowered first, then the function itself, which fails. -/
def requests : List Request := [.visit inner, .visit fused]

theorem outer_unambiguous : Expr.Unambiguous (Expr.Among (outer :: Session.exprs requests)) :=
  unambiguous (by simp [nodes, requests, Session.exprs, Request.exprs])

/-- The kernel that stands for a call of the fused function over `input`. -/
def kernel (input : Tree) : Tree :=
  .kernel "qnn.sigmoid" [input, .const (.ofInt32 1), .const (.ofInt32 0), .const (.ofInt32 1),
    .const (.ofInt32 0)] .empty

/-- The pattern of every call of the fused function. -/
def pattern : Pattern :=
  .activation .sigmoid ⟨.op "qnn.dequantize", [param, scale, zeroPoint], .empty⟩
    ⟨.op "sigmoid", [dequantize], .empty⟩ ⟨.op "qnn.quantize", [sigmoid, scale, zeroPoint], .empty⟩

theorem tree_call (id : Nat) {x : Expr} {input : Tree} (hx : x.tree = .ok input) :
    (Expr.exprCall id fused [x] .empty).tree = .ok (kernel input) := by
  have hscale : scale.tree = .ok (.const (.ofInt32 1)) := Expr.tree_constant _ _
  have hzero : zeroPoint.tree = .ok (.const (.ofInt32 0)) := Expr.tree_constant _ _
  have hp : Pattern.ofKind .qnnSigmoid ⟨.expr fused, [x], .empty⟩ = .ok pattern := rfl
  have hkind : fused.fusedKind = .ok .qnnSigmoid := rfl
  rw [Expr.tree_fused id hkind hp]
  show Pattern.tree _ [x.tree, scale.tree, zeroPoint.tree, scale.tree, zeroPoint.tree] = _
  rw [hx, hscale, hzero]
  rfl

theorem tree_outer : outer.tree = .ok (kernel (kernel (.input "data" none))) :=
  tree_call 9 (tree_call 8 (Expr.tree_var 7 "data" none))

/-- The constants and the inner kernel are shared, and the outer kernel unfolds to all of them. -/
theorem visit_outer_refines_tree :
    Expr.Unambiguous (Expr.Among (outer :: Session.exprs requests)) ∧
      ∃ entry, (visit outer (Session.run "main" requests).lowering).1 = .ok [entry] ∧
        (visit outer (Session.run "main" requests).lowering).2.registry.unfold entry =
          some (kernel (kernel (.input "data" none))) :=
  ⟨outer_unambiguous,
    ((visit_refines_tree "main" requests outer outer_unambiguous).1 _).1 tree_outer⟩

end Sigmoids

end KernelGraph
