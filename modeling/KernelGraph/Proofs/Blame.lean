import KernelGraph.Lowering.Compiled
import KernelGraph.Proofs.Arena
import KernelGraph.Proofs.Emission

/-!
What is to blame where lowering fails. `Expr.blames` lists all that is wrong with an expression and
with what it is lowered over, each with the expression that it is wrong with, in the order in which
lowering comes to it. The error of a step that fails is the first of them (`explains_blames`). What
can be wrong with an expression itself is said by the contract of its kind alone (`Defective`), so
an error is always that of the very call which breaks its own contract, wherever this call stands.
-/

namespace KernelGraph

/-- The error of a result that has failed. -/
def errors {ε α : Type} : Except ε α → List ε
  | .ok _ => []
  | .error err => [err]

/-- An expression and what is wrong with it. -/
structure Blame where
  blamed : Expr
  error : LoweringError

/-- A call violates what its family asks. -/
def Expr.violates (call : Expr) (family : Family) (v : Violation) : Blame :=
  ⟨call, .violation family v⟩

/-- What is wrong with the kernel of a pattern, given what is wrong with each operand: layouts come
first, then the operands in order, then what is put into attributes. -/
def Pattern.blames (p : Pattern) (call : Expr) (operands : List (List Blame)) : List Blame :=
  (errors p.check).map (call.violates p.family) ++ (operands.flatten ++
    (errors p.attrs).map (call.violates p.family))

set_option linter.unusedVariables false in
/-- All that is wrong with an expression and with what it is lowered over. -/
def Expr.blames (e : Expr) : List Blame :=
  match e with
  | .var .. | .constant .. => []
  | .function .. => [⟨e, .unsupportedTarget e.typeKey⟩]
  | .opCall _ _ args _ => (args.attach.map fun a => a.1.blames).flatten
  | .exprCall _ callee args attrs =>
    match callee.fusedKind with
    | .error err => [⟨e, err⟩]
    | .ok kind =>
      let root : Call := ⟨.expr callee, args, attrs⟩
      match h : Pattern.ofKind kind root with
      | .error err => [⟨e, err⟩]
      | .ok p =>
        p.blames e ((p.operands root).attach.map fun o =>
          match he : o.1.expr? with
          | none => [e.violates p.family o.1.missing]
          | some x => x.blames)
termination_by e.size
decreasing_by
  · have := Expr.size_le_sizes a.2
    simp only [Expr.size]
    omega
  · have := Pattern.size_lt_of_mem_operands (Pattern.ofCall_of_ofKind h).1 o.2 he
    simpa only [Call.size, Expr.size, root] using this

/-- What is wrong with an operand of a call, which must be there. -/
def Operand.blames (call : Expr) (family : Family) (o : Operand) : List Blame :=
  match o.expr? with
  | none => [call.violates family o.missing]
  | some x => x.blames

/-- All that is wrong with a function, whose parameters come before its body. -/
def Function.blames (f : Function) : List Blame :=
  ((f.params ++ [f.body]).map Expr.blames).flatten

/-- What is wrong with the kernel of a pattern apart from what its operands are. -/
def Pattern.faults (p : Pattern) (root : Call) : List LoweringError :=
  (errors p.check).map (.violation p.family) ++
    (((p.operands root).filter (·.expr?.isNone)).map fun o => .violation p.family o.missing) ++
      (errors p.attrs).map (.violation p.family)

/-- What is wrong with an expression itself, and not with what it is lowered over. -/
def Expr.faults : Expr → List LoweringError
  | .var .. | .constant .. | .opCall .. => []
  | .function id params body attrs =>
    [.unsupportedTarget (Expr.function id params body attrs).typeKey]
  | .exprCall _ callee args attrs =>
    match callee.fusedKind with
    | .error err => [err]
    | .ok kind =>
      match Pattern.ofKind kind ⟨.expr callee, args, attrs⟩ with
      | .error err => [err]
      | .ok p => p.faults ⟨.expr callee, args, attrs⟩

namespace Expr

theorem blames_var (id : Nat) (name : String) (type : Option TensorType) :
    (var id name type).blames = [] := by
  rw [blames]

theorem blames_constant (id : Nat) (value : Tensor) : (constant id value).blames = [] := by
  rw [blames]

theorem blames_function (id : Nat) (params : List Expr) (body : Expr) (attrs : Attributes) :
    (function id params body attrs).blames =
      [⟨function id params body attrs, .unsupportedTarget "Function"⟩] := by
  rw [blames]
  rfl

theorem blames_opCall (id : Nat) (op : String) (args : List Expr) (attrs : Attributes) :
    (opCall id op args attrs).blames = (args.map blames).flatten := by
  rw [blames, List.attach_map_val]

theorem blames_undeclared (id : Nat) {callee : Expr} {args : List Expr} {attrs : Attributes}
    {err : LoweringError} (hkind : callee.fusedKind = .error err) :
    (exprCall id callee args attrs).blames = [⟨exprCall id callee args attrs, err⟩] := by
  rw [blames, hkind]

theorem blames_unmatched (id : Nat) {callee : Expr} {args : List Expr} {attrs : Attributes}
    {kind : FusedKind} {err : LoweringError} (hkind : callee.fusedKind = .ok kind)
    (hp : Pattern.ofKind kind ⟨.expr callee, args, attrs⟩ = .error err) :
    (exprCall id callee args attrs).blames = [⟨exprCall id callee args attrs, err⟩] := by
  rw [blames, hkind]
  dsimp only
  split
  · rename_i err' heq
    cases hp.symm.trans heq
    rfl
  · rename_i p heq
    cases hp.symm.trans heq

theorem blames_fused (id : Nat) {callee : Expr} {args : List Expr} {attrs : Attributes}
    {kind : FusedKind} {p : Pattern} (hkind : callee.fusedKind = .ok kind)
    (hp : Pattern.ofKind kind ⟨.expr callee, args, attrs⟩ = .ok p) :
    (exprCall id callee args attrs).blames =
      p.blames (exprCall id callee args attrs) ((p.operands ⟨.expr callee, args, attrs⟩).map
        (Operand.blames (exprCall id callee args attrs) p.family)) := by
  rw [blames, hkind]
  dsimp only
  split
  · rename_i err heq
    cases hp.symm.trans heq
  · rename_i q heq
    cases hp.symm.trans heq
    rw [← List.attach_map_val (f := Operand.blames _ p.family)]
    congr 2
    funext o
    unfold Operand.blames
    split
    · rename_i hnone
      rw [hnone]
    · rename_i x hsome
      rw [hsome]

end Expr

/-! ### The first of them is the error -/

/-- A result has failed exactly if something is to blame, and then with the first of it. -/
def Explains {α : Type} (blames : List Blame) (result : Except LoweringError α) : Prop :=
  ∀ err, result = .error err ↔ blames.head?.map Blame.error = some err

namespace Explains

variable {α β : Type} {blames later : List Blame}

theorem ok (a : α) : Explains [] (.ok a : Except LoweringError α) := by
  intro err
  simp

theorem error (b : Blame) (later : List Blame) :
    Explains (b :: later) (.error b.error : Except LoweringError α) := by
  intro err
  simp

theorem eq_nil {a : α} (h : Explains blames (.ok a)) : blames = [] := by
  cases blames with
  | nil => rfl
  | cons b later => cases (h b.error).2 rfl

theorem exists_cons {err : LoweringError} (h : Explains blames (.error err : Except _ α)) :
    ∃ b later, blames = b :: later ∧ b.error = err := by
  cases blames with
  | nil => cases (h err).1 rfl
  | cons b later => exact ⟨b, later, rfl, Option.some.inj ((h err).1 rfl)⟩

/-- What comes after a result is to blame only if the result is there. -/
theorem bind {result : Except LoweringError α} {f : α → Except LoweringError β}
    (h : Explains blames result) (hf : ∀ a, Explains later (f a)) :
    Explains (blames ++ later) (result >>= f) := by
  cases result with
  | ok a =>
      obtain rfl := h.eq_nil
      exact hf a
  | error err =>
      obtain ⟨b, rest, rfl, rfl⟩ := h.exists_cons
      exact .error b _

theorem map {result : Except LoweringError α} (h : Explains blames result) (f : α → β) :
    Explains blames (result >>= fun a => .ok (f a)) := by
  have hmap := h.bind (f := fun a => .ok (f a)) fun a => .ok (f a)
  rwa [List.append_nil] at hmap

theorem mapError (call : Expr) (family : Family) (result : Except Violation α) :
    Explains ((errors result).map (call.violates family))
      (result.mapError (LoweringError.violation family)) := by
  cases result with
  | ok a => exact .ok a
  | error v => exact .error (call.violates family v) []

theorem allOf {ι : Type} {items : List ι} {blames : ι → List Blame}
    {result : ι → Except LoweringError α} (h : ∀ i ∈ items, Explains (blames i) (result i)) :
    Explains (items.map blames).flatten (allOf (items.map result)) := by
  induction items with
  | nil => exact .ok []
  | cons i items ih =>
      rw [List.map_cons, List.map_cons, List.flatten_cons, allOf_cons]
      exact (h i List.mem_cons_self).bind fun x =>
        (ih fun j hj => h j (List.mem_cons_of_mem i hj)).map (x :: ·)

end Explains

theorem Pattern.explains_blames (p : Pattern) (call : Expr) {operands : List Operand}
    (h : ∀ o ∈ operands, Explains (o.blames call p.family) (o.tree p.family)) :
    Explains (p.blames call (operands.map (Operand.blames call p.family)))
      (p.tree (operands.map (Operand.tree p.family))) :=
  (Explains.mapError call p.family p.check).bind fun _ => (Explains.allOf h).bind fun inputs =>
    (Explains.mapError call p.family p.attrs).map (Tree.kernel p.kernelName inputs)

/-- An expression has no tree exactly if something is to blame, and for the first of it. -/
theorem Expr.explains_blames (e : Expr) : Explains e.blames e.tree := by
  cases e with
  | var id name type =>
      rw [blames_var, tree_var]
      exact .ok _
  | constant id value =>
      rw [blames_constant, tree_constant]
      exact .ok _
  | function id params body attrs =>
      rw [blames_function, tree_function]
      exact .error ⟨_, .unsupportedTarget "Function"⟩ []
  | opCall id op args attrs =>
      rw [blames_opCall, tree_opCall]
      refine (Explains.allOf fun a ha => ?_).map _
      have := size_lt_of_mem_children (e := .opCall id op args attrs) ha
      exact a.explains_blames
  | exprCall id callee args attrs =>
      cases hkind : callee.fusedKind with
      | error err =>
          rw [blames_undeclared id hkind, tree_exprCall, hkind]
          exact .error ⟨_, err⟩ []
      | ok kind =>
          cases hp : Pattern.ofKind kind ⟨.expr callee, args, attrs⟩ with
          | error err =>
              rw [blames_unmatched id hkind hp, tree_unmatched id hkind hp]
              exact .error ⟨_, err⟩ []
          | ok p =>
              rw [blames_fused id hkind hp, tree_fused id hkind hp]
              refine p.explains_blames _ fun o ho => ?_
              rw [Operand.blames, Operand.tree]
              cases hx : o.expr? with
              | none => exact .error (violates _ p.family o.missing) []
              | some x =>
                  have := size_lt_of_mem_inputs (mem_inputs id hkind hp ho hx)
                  exact x.explains_blames
termination_by e.size

/-- Where something is to blame, there is no tree. -/
theorem Expr.exists_error_of_mem_blames {e : Expr} {b : Blame} (h : b ∈ e.blames) :
    ∃ err, e.tree = .error err := by
  have hexplains := e.explains_blames
  cases htree : e.tree with
  | error err => exact ⟨err, rfl⟩
  | ok tree =>
      rw [htree] at hexplains
      rw [hexplains.eq_nil] at h
      cases h

/-! ### Who is to blame -/

theorem mem_errors {ε α : Type} {result : Except ε α} {err : ε} :
    err ∈ errors result ↔ result = .error err := by
  cases result with
  | ok a => simp [errors]
  | error err' => simp [errors, eq_comm]

theorem Operand.mem_blames_iff {call : Expr} {family : Family} {o : Operand} {b : Blame} :
    b ∈ o.blames call family ↔ o.expr? = none ∧ b = call.violates family o.missing ∨
      ∃ x, o.expr? = some x ∧ b ∈ x.blames := by
  rw [blames]
  cases o.expr? <;> simp

namespace Pattern

theorem mem_faults_iff {p : Pattern} {root : Call} {err : LoweringError} :
    err ∈ p.faults root ↔ ∃ v, err = .violation p.family v ∧ (p.check = .error v ∨
      (∃ o ∈ p.operands root, o.expr? = none ∧ v = o.missing) ∨ p.attrs = .error v) := by
  simp only [faults, List.mem_append, List.mem_map, List.mem_filter, Option.isNone_iff_eq_none,
    mem_errors]
  constructor
  · rintro ((⟨v, hv, rfl⟩ | ⟨o, ⟨ho, hx⟩, rfl⟩) | ⟨v, hv, rfl⟩)
    · exact ⟨v, rfl, .inl hv⟩
    · exact ⟨_, rfl, .inr (.inl ⟨o, ho, hx, rfl⟩)⟩
    · exact ⟨v, rfl, .inr (.inr hv)⟩
  · rintro ⟨v, rfl, hv | ⟨o, ho, hx, rfl⟩ | hv⟩
    · exact .inl (.inl ⟨v, hv, rfl⟩)
    · exact .inl (.inr ⟨o, ⟨ho, hx⟩, rfl⟩)
    · exact .inr ⟨v, hv, rfl⟩

theorem mem_blames_iff {p : Pattern} {call : Expr} {root : Call} {b : Blame} :
    b ∈ p.blames call ((p.operands root).map (Operand.blames call p.family)) ↔
      b.blamed = call ∧ b.error ∈ p.faults root ∨
        ∃ a ∈ (p.operands root).filterMap Operand.expr?, b ∈ a.blames := by
  obtain ⟨x, err⟩ := b
  simp only [blames, mem_faults_iff, List.mem_append, List.mem_map, List.mem_flatten,
    List.mem_filterMap, exists_exists_and_eq_and, Operand.mem_blames_iff, Expr.violates,
    Blame.mk.injEq, mem_errors]
  constructor
  · rintro (⟨v, hv, rfl, rfl⟩ | ⟨o, ho, ⟨hx, rfl, rfl⟩ | ⟨a, hx, ha⟩⟩ | ⟨v, hv, rfl, rfl⟩)
    · exact .inl ⟨rfl, v, rfl, .inl hv⟩
    · exact .inl ⟨rfl, _, rfl, .inr (.inl ⟨o, ho, hx, rfl⟩)⟩
    · exact .inr ⟨a, ⟨o, ho, hx⟩, ha⟩
    · exact .inl ⟨rfl, v, rfl, .inr (.inr hv)⟩
  · rintro (⟨rfl, v, rfl, hv | ⟨o, ho, hx, rfl⟩ | hv⟩ | ⟨a, ⟨o, ho, hx⟩, ha⟩)
    · exact .inl ⟨v, hv, rfl, rfl⟩
    · exact .inr (.inl ⟨o, ho, .inl ⟨hx, rfl, rfl⟩⟩)
    · exact .inr (.inr ⟨v, hv, rfl, rfl⟩)
    · exact .inr (.inl ⟨o, ho, .inr ⟨a, hx, ha⟩⟩)

end Pattern

namespace Expr

open Walk

theorem faults_fused (id : Nat) {callee : Expr} {args : List Expr} {attrs : Attributes}
    {kind : FusedKind} {p : Pattern} (hkind : callee.fusedKind = .ok kind)
    (hp : Pattern.ofKind kind ⟨.expr callee, args, attrs⟩ = .ok p) :
    (exprCall id callee args attrs).faults = p.faults ⟨.expr callee, args, attrs⟩ := by
  rw [faults]
  simp only [hkind, hp]

/-- What is wrong is wrong with an expression itself or with what it is lowered over. -/
theorem mem_blames_iff {e : Expr} {b : Blame} :
    b ∈ e.blames ↔ b.blamed = e ∧ b.error ∈ e.faults ∨ ∃ a ∈ e.inputs, b ∈ a.blames := by
  obtain ⟨x, err⟩ := b
  cases e with
  | var id name type => simp [blames_var, faults, inputs]
  | constant id value => simp [blames_constant, faults, inputs]
  | function id params body attrs => simp [blames_function, faults, inputs, typeKey]
  | opCall id op args attrs => simp [blames_opCall, faults, inputs]
  | exprCall id callee args attrs =>
      cases hkind : callee.fusedKind with
      | error err' => simp [blames_undeclared id hkind, faults, inputs, hkind]
      | ok kind =>
          cases hp : Pattern.ofKind kind ⟨.expr callee, args, attrs⟩ with
          | error err' => simp [blames_unmatched id hkind hp, faults, inputs, hkind, hp]
          | ok p =>
              rw [blames_fused id hkind hp, faults_fused id hkind hp, inputs_exprCall id hkind hp]
              exact Pattern.mem_blames_iff

/-- All that is wrong is wrong with expressions that lowering walks through. -/
theorem mem_blames_iff_faults {e : Expr} {b : Blame} :
    b ∈ e.blames ↔ b.blamed ∈ lowering.postorder e ∧ b.error ∈ b.blamed.faults := by
  have ih : ∀ a ∈ e.inputs, (b ∈ a.blames ↔
      b.blamed ∈ lowering.postorder a ∧ b.error ∈ b.blamed.faults) := fun a ha =>
    have := size_lt_of_mem_inputs ha
    mem_blames_iff_faults
  rw [mem_blames_iff, mem_postorder_iff]
  constructor
  · rintro (⟨rfl, herr⟩ | ⟨a, ha, hb⟩)
    · exact ⟨.inl rfl, herr⟩
    · obtain ⟨hmem, herr⟩ := (ih a ha).1 hb
      exact ⟨.inr ⟨a, ha, hmem⟩, herr⟩
  · rintro ⟨rfl | ⟨a, ha, hmem⟩, herr⟩
    · exact .inl ⟨rfl, herr⟩
    · exact .inr ⟨a, ha, (ih a ha).2 ⟨hmem, herr⟩⟩
termination_by e.size

end Expr

/-! ### What can be wrong -/

/-- A function declares a kind, and its body starts with the calls that the kind promises. -/
structure FusedKind.Matches (kind : FusedKind) (f : Function) (links : List (Part × Call)) :
    Prop where
  name : f.attrs.get? "Composite" = some (.text kind.name)
  body : Follows kind.slots f.body.chain links

/-- What can be wrong with an expression before anything that it is lowered over is looked at. -/
inductive Expr.Rejected : Expr → LoweringError → Prop
  | function (id : Nat) (params : List Expr) (body : Expr) (attrs : Attributes) :
      Rejected (.function id params body attrs) (.unsupportedTarget "Function")
  | target (id : Nat) {callee : Expr} (args : List Expr) (attrs : Attributes) :
      callee.function? = none →
      Rejected (.exprCall id callee args attrs) (.unsupportedTarget callee.typeKey)
  | undeclared (id : Nat) {callee : Expr} {f : Function} (args : List Expr) (attrs : Attributes) :
      callee.function? = some f → (∀ name, f.attrs.get? "Composite" ≠ some (.text name)) →
      Rejected (.exprCall id callee args attrs) .notComposite
  | unknown (id : Nat) {callee : Expr} {f : Function} (args : List Expr) (attrs : Attributes)
      (name : String) : callee.function? = some f →
      f.attrs.get? "Composite" = some (.text name) → (∀ kind : FusedKind, kind.name ≠ name) →
      Rejected (.exprCall id callee args attrs) (.unknownComposite name)
  | body (id : Nat) {callee : Expr} {f : Function} (args : List Expr) (attrs : Attributes)
      (kind : FusedKind) (expected found : Link) : callee.function? = some f →
      f.attrs.get? "Composite" = some (.text kind.name) →
      (∀ links, ¬Follows kind.slots f.body.chain links) →
      Rejected (.exprCall id callee args attrs) (.mismatch kind.family expected found)
  | layouts (id : Nat) {callee : Expr} {f : Function} (args : List Expr) (attrs : Attributes)
      {kind : FusedKind} {links : List (Part × Call)} (v : Violation) : callee.function? = some f →
      kind.Matches f links → ¬kind.AdmitsLayouts links →
      Rejected (.exprCall id callee args attrs) (.violation kind.family v)

/-- What can be wrong with an expression itself: it may be rejected at once, an operand that its
kind promises may not be there, or its padding may not be as the kind asks. -/
inductive Expr.Defective : Expr → LoweringError → Prop
  | rejected {e : Expr} {err : LoweringError} : e.Rejected err → Defective e err
  | operand (id : Nat) {callee : Expr} {f : Function} (args : List Expr) (attrs : Attributes)
      {kind : FusedKind} {links : List (Part × Call)} (o : Operand) : callee.function? = some f →
      kind.Matches f links → o ∈ kind.operands ⟨.expr callee, args, attrs⟩ links →
      o.expr? = none → Defective (.exprCall id callee args attrs) (.violation kind.family o.missing)
  | padding (id : Nat) {callee : Expr} {f : Function} (args : List Expr) (attrs : Attributes)
      {kind : FusedKind} {links : List (Part × Call)} (v : Violation) : callee.function? = some f →
      kind.Matches f links → ¬kind.AdmitsPadding links →
      Defective (.exprCall id callee args attrs) (.violation kind.family v)

theorem exists_eq_error {ε α : Type} {result : Except ε α} (h : ¬∃ a, result = .ok a) :
    ∃ err, result = .error err := by
  cases result with
  | error err => exact ⟨err, rfl⟩
  | ok a => exact absurd ⟨a, rfl⟩ h

theorem not_isOk_of_eq_error {ε α : Type} {result : Except ε α} {err : ε}
    (h : result = .error err) : ¬∃ a, result = .ok a := by
  rw [h]
  simp

/-- A function that declares a kind has the calls that the kind promises exactly where a call of it
has a pattern of this kind. -/
theorem FusedKind.matches_iff {callee : Expr} {f : Function} (hf : callee.function? = some f)
    {kind : FusedKind} {links : List (Part × Call)} (args : List Expr) (attrs : Attributes) :
    kind.Matches f links ↔ callee.fusedKind = .ok kind ∧
      ∃ p, Pattern.ofKind kind ⟨.expr callee, args, attrs⟩ = .ok p ∧ p.kind = kind ∧
        p.links = links := by
  constructor
  · intro h
    obtain ⟨p, hp, hlinks⟩ := (Pattern.ofKind_iff_follows hf).2 h.body
    exact ⟨(fusedKind_eq_ok_iff hf).2 h.name, p, hp, (Pattern.ofCall_of_ofKind hp).2, hlinks⟩
  · rintro ⟨hkind, p, hp, -, hlinks⟩
    exact ⟨(fusedKind_eq_ok_iff hf).1 hkind, (Pattern.ofKind_iff_follows hf).1 ⟨p, hp, hlinks⟩⟩

theorem Expr.exists_function_of_fusedKind {callee : Expr} {kind : FusedKind}
    (h : callee.fusedKind = .ok kind) : ∃ f, callee.function? = some f := by
  cases hf : callee.function? with
  | none =>
      rw [Expr.fusedKind, hf] at h
      cases h
  | some f => exact ⟨f, rfl⟩

namespace Expr

theorem defective_of_mem_faults {e : Expr} {err : LoweringError} (h : err ∈ e.faults) :
    e.Defective err := by
  cases e with
  | var | constant | opCall => cases h
  | function id params body attrs =>
      rw [List.mem_singleton.1 h]
      exact .rejected (.function id params body attrs)
  | exprCall id callee args attrs =>
      cases hkind : callee.fusedKind with
      | error err' =>
          simp only [faults, hkind, List.mem_singleton] at h
          subst h
          rcases fusedKind_eq_error_iff.1 hkind with
            ⟨hf, rfl⟩ | ⟨f, hf, ⟨hname, rfl⟩ | ⟨name, hname, hunknown, rfl⟩⟩
          · exact .rejected (.target id args attrs hf)
          · exact .rejected (.undeclared id args attrs hf hname)
          · exact .rejected (.unknown id args attrs name hf hname hunknown)
      | ok kind =>
          obtain ⟨f, hf⟩ := exists_function_of_fusedKind hkind
          have hname := (fusedKind_eq_ok_iff hf).1 hkind
          cases hp : Pattern.ofKind kind ⟨.expr callee, args, attrs⟩ with
          | error err' =>
              simp only [faults, hkind, hp, List.mem_singleton] at h
              subst h
              rcases Pattern.ofKind_eq_error hp with ⟨hnone, -⟩ | ⟨expected, found, rfl⟩
              · cases hf.symm.trans hnone
              · refine .rejected
                  (.body id args attrs kind expected found hf hname fun links hlinks => ?_)
                obtain ⟨p, hp', -⟩ := (Pattern.ofKind_iff_follows hf).2 hlinks
                cases hp.symm.trans hp'
          | ok p =>
              obtain ⟨-, rfl⟩ := Pattern.ofCall_of_ofKind hp
              have hmatches : p.kind.Matches f p.links :=
                (FusedKind.matches_iff hf args attrs).2 ⟨hkind, p, hp, rfl, rfl⟩
              rw [faults_fused id hkind hp, Pattern.mem_faults_iff] at h
              rw [← p.family_kind] at h
              obtain ⟨v, rfl, hcheck | ⟨o, ho, hx, rfl⟩ | hattrs⟩ := h
              · refine .rejected (.layouts id args attrs v hf hmatches fun hadmits => ?_)
                cases hcheck.symm.trans (p.check_eq_ok_iff.2 hadmits)
              · rw [p.operands_eq] at ho
                exact .operand id args attrs o hf hmatches ho hx
              · refine .padding id args attrs v hf hmatches fun hadmits => ?_
                exact not_isOk_of_eq_error hattrs (p.attrs_isOk_iff_admitsPadding.2 hadmits)

/-- An expression that is rejected fails by itself, before its operands are looked at. -/
theorem Rejected.exists_error {id : Nat} {callee : Expr} {args : List Expr} {attrs : Attributes}
    {err : LoweringError} (h : (exprCall id callee args attrs).Rejected err) :
    (∃ err', callee.fusedKind = .error err') ∨ ∃ kind, callee.fusedKind = .ok kind ∧
      ((∃ err', Pattern.ofKind kind ⟨.expr callee, args, attrs⟩ = .error err') ∨
        ∃ p v, Pattern.ofKind kind ⟨.expr callee, args, attrs⟩ = .ok p ∧ p.check = .error v) := by
  cases h with
  | target _ _ _ hf => exact .inl ⟨_, fusedKind_eq_error_iff.2 (.inl ⟨hf, rfl⟩)⟩
  | undeclared _ _ _ hf hname =>
      exact .inl ⟨_, fusedKind_eq_error_iff.2 (.inr ⟨_, hf, .inl ⟨hname, rfl⟩⟩)⟩
  | unknown _ _ _ name hf hname hunknown =>
      exact .inl ⟨_, fusedKind_eq_error_iff.2 (.inr ⟨_, hf, .inr ⟨name, hname, hunknown, rfl⟩⟩)⟩
  | body _ _ _ kind expected found hf hname hlinks =>
      refine .inr ⟨kind, (fusedKind_eq_ok_iff hf).2 hname, .inl (exists_eq_error ?_)⟩
      rintro ⟨p, hp⟩
      exact hlinks p.links ((Pattern.ofKind_iff_follows hf).1 ⟨p, hp, rfl⟩)
  | @layouts _ callee f args attrs kind links v hf hmatches hadmits =>
      obtain ⟨hkind, p, hp, rfl, rfl⟩ := (FusedKind.matches_iff hf args attrs).1 hmatches
      obtain ⟨v', hv'⟩ : ∃ v', p.check = .error v' := by
        refine exists_eq_error ?_
        rintro ⟨⟨⟩, hok⟩
        exact hadmits (p.check_eq_ok_iff.1 hok)
      exact .inr ⟨p.kind, hkind, .inr ⟨p, v', hp, hv'⟩⟩

theorem exists_fault_of_defective {e : Expr} {err : LoweringError} (h : e.Defective err) :
    ∃ err', err' ∈ e.faults := by
  cases h with
  | rejected h =>
      cases e with
      | var | constant | opCall => cases h
      | function id params body attrs => exact ⟨_, List.mem_cons_self⟩
      | exprCall id callee args attrs =>
          rcases h.exists_error with ⟨err', hkind⟩ | ⟨kind, hkind, ⟨err', hp⟩ | ⟨p, v, hp, hv⟩⟩
          · exact ⟨err', by simp [faults, hkind]⟩
          · exact ⟨err', by simp [faults, hkind, hp]⟩
          · exact ⟨_, faults_fused id hkind hp ▸ Pattern.mem_faults_iff.2 ⟨v, rfl, .inl hv⟩⟩
  | operand id args attrs o hf hmatches ho hx =>
      obtain ⟨hkind, p, hp, rfl, rfl⟩ := (FusedKind.matches_iff hf args attrs).1 hmatches
      rw [← p.operands_eq] at ho
      rw [faults_fused id hkind hp]
      exact ⟨_, Pattern.mem_faults_iff.2 ⟨_, rfl, .inr (.inl ⟨o, ho, hx, rfl⟩)⟩⟩
  | padding id args attrs v hf hmatches hadmits =>
      obtain ⟨hkind, p, hp, rfl, rfl⟩ := (FusedKind.matches_iff hf args attrs).1 hmatches
      obtain ⟨v', hv'⟩ := exists_eq_error (mt p.attrs_isOk_iff_admitsPadding.1 hadmits)
      rw [faults_fused id hkind hp]
      exact ⟨_, Pattern.mem_faults_iff.2 ⟨v', rfl, .inr (.inr hv')⟩⟩

end Expr

/-! ### Failures of steps -/

theorem Explains.of_agrees {α β : Type} {R : α → β → Prop} {blames : List Blame}
    {a : Except LoweringError α} {b : Except LoweringError β} (h : Explains blames b)
    (hagrees : Agrees R a b) : Explains blames a := fun err =>
  (hagrees.error_iff err).symm.trans (h err)

namespace Lowering

variable {nodes : Expr → Prop}

/-- A visit fails exactly if something is to blame, and with the first of it. -/
theorem explains_visit (hids : Expr.Unambiguous nodes) {s : Lowering} (hs : Sound nodes s)
    {e : Expr} (he : ∀ x, e.Reaches x → nodes x) : Explains e.blames (visit e s).1 :=
  e.explains_blames.of_agrees (visit_outcome hids e s hs he).agrees

theorem explains_serialize (hids : Expr.Unambiguous nodes) {s : Lowering} (hs : Sound nodes s)
    {f : Function} (hf : ∀ e ∈ f.params ++ [f.body], ∀ x, e.Reaches x → nodes x) :
    Explains f.blames (serialize f s).1 := by
  have hparams := outcome_arguments (fun a ha t ht => visit_outcome hids a t ht
    (hf a (List.mem_append_left _ ha))) hs
  have hfirst : Explains (f.params.map Expr.blames).flatten (Step.all (f.params.map visit) s).1 :=
    (Explains.allOf fun a _ => a.explains_blames).of_agrees hparams.agrees
  have hsound := hparams.sound
  rw [Function.blames, List.map_append, List.flatten_append, List.map_singleton,
    List.flatten_singleton, serialize]
  generalize Step.all (f.params.map visit) s = out at hfirst hsound ⊢
  obtain ⟨err | entries, m⟩ := out
  · obtain ⟨b, rest, hrest, rfl⟩ := hfirst.exists_cons
    rw [hrest]
    exact .error b _
  · have hbody := explains_visit hids hsound
      (hf f.body (List.mem_append_right _ List.mem_cons_self))
    rw [hfirst.eq_nil, List.nil_append]
    dsimp only
    generalize visit f.body m = out at hbody ⊢
    obtain ⟨err | heads, t⟩ := out
    · obtain ⟨b, rest, hrest, rfl⟩ := hbody.exists_cons
      rw [hrest]
      exact .error b _
    · rw [hbody.eq_nil]
      exact .ok _

end Lowering

open Walk Lowering

theorem Function.symbol?_eq_none_iff {f : Function} {fallback : Option String} :
    f.symbol? fallback = none ↔
      (∀ text, f.attrs.get? "global_symbol" ≠ some (.text text)) ∧ fallback = none := by
  rw [← Attributes.getText?_eq_none_iff, symbol?, symbolName]
  cases f.attrs.getText? "global_symbol" <;> simp

/-- Compiling fails for what is no function, for a function that has no name, and for one that
something is wrong with. -/
theorem compile_eq_error_iff {e : Expr} {fallback : Option String}
    (hids : Expr.Unambiguous (Expr.Among [e])) {err : LoweringError} :
    (compile e fallback).1 = .error err ↔
      e.function? = none ∧ err = .unsupportedTarget e.typeKey ∨ ∃ f, e.function? = some f ∧
        (f.symbol? fallback = none ∧ err = .missingSymbol ∨
          f.symbol? fallback ≠ none ∧ f.blames.head?.map Blame.error = some err) := by
  unfold compile
  cases hf : e.function? with
  | none => simp [eq_comm]
  | some f =>
      have hnodes : ∀ x ∈ f.params ++ [f.body], ∀ y, x.Reaches y → Expr.Among [e] y := by
        intro x hx y hy
        cases e with
        | function id params body attrs =>
            cases hf
            exact .of_mem List.mem_cons_self (.step hx hy)
        | var | constant | opCall | exprCall => cases hf
      cases hsymbol : f.symbol? fallback with
      | none => simp [hsymbol, eq_comm]
      | some symbol =>
          have hs : Sound (Expr.Among [e]) _ :=
            (Sound.start symbol).note (.compiling symbol f.params.length)
          have hout := explains_serialize hids hs hnodes err
          simp only [hsymbol, Option.some.injEq, exists_eq_left', reduceCtorEq, false_and, false_or,
            ne_eq, not_false_eq_true, true_and, ← hout]
          generalize serialize f _ = out
          obtain ⟨err' | g, t⟩ := out
          · simp
          · simp

/-- What is wrong with a call whose function declares a kind and has the calls that it promises, in
order: layouts, then all that is wrong with the operands of the kind, then the padding. -/
theorem Expr.blames_of_matches (id : Nat) {callee : Expr} {f : Function} {args : List Expr}
    {attrs : Attributes} {kind : FusedKind} {links : List (Part × Call)}
    (hf : callee.function? = some f) (hmatches : kind.Matches f links) :
    ∃ layouts padding : List Violation,
      (exprCall id callee args attrs).blames =
        layouts.map ((exprCall id callee args attrs).violates kind.family) ++
          (((kind.operands ⟨.expr callee, args, attrs⟩ links).map
            (Operand.blames (exprCall id callee args attrs) kind.family)).flatten ++
          padding.map ((exprCall id callee args attrs).violates kind.family)) ∧
      (layouts = [] ↔ kind.AdmitsLayouts links) ∧ (padding = [] ↔ kind.AdmitsPadding links) := by
  obtain ⟨hkind, p, hp, rfl, rfl⟩ := (FusedKind.matches_iff hf args attrs).1 hmatches
  refine ⟨errors p.check, errors p.attrs, ?_, ?_, ?_⟩
  · rw [blames_fused id hkind hp, Pattern.blames, p.operands_eq, p.family_kind]
  · rw [← p.check_eq_ok_iff]
    cases p.check <;> simp [errors]
  · rw [← p.attrs_isOk_iff_admitsPadding]
    cases p.attrs <;> simp [errors]

/-- No defect is that there are no outputs or no name. -/
theorem Expr.Defective.error_ne {e : Expr} {err : LoweringError} (h : e.Defective err) :
    err ≠ .missingSymbol ∧ ∀ key, err ≠ .noOutputs key := by
  cases h with
  | rejected h => cases h <;> simp
  | operand => simp
  | padding => simp

/-- A step fails exactly if something is to blame, and the error is that of the first thing to
blame. Whatever is to blame is an expression that lowering comes to and that is wrong by itself: a
function as a value, a call of what is no function, a call of a function that declares nothing or is
not what it declares, or one that lacks what its own kind asks for. It is to blame whatever it is an
operand of. For a call whose function has the calls it promises the order is that of the contract:
layouts, then all that is wrong with the operands in their order, then the padding. -/
theorem failures_blame_first (symbol : String) (requests : List Request) (e : Expr) (f : Function)
    (fallback : Option String) (hids : Expr.Unambiguous
      (Expr.Among (e :: (f.params ++ [f.body]) ++ Session.exprs requests))) :
    let s := (Session.run symbol requests).lowering
    (∀ err, (visit e s).1 = .error err ↔ e.blames.head?.map Blame.error = some err) ∧
    (∀ err, (serialize f s).1 = .error err ↔ f.blames.head?.map Blame.error = some err) ∧
    (∀ err, (compile e fallback).1 = .error err ↔
      e.function? = none ∧ err = .unsupportedTarget e.typeKey ∨ ∃ F, e.function? = some F ∧
        (((∀ text, F.attrs.get? "global_symbol" ≠ some (.text text)) ∧ fallback = none) ∧
            err = .missingSymbol ∨
          ¬((∀ text, F.attrs.get? "global_symbol" ≠ some (.text text)) ∧ fallback = none) ∧
            F.blames.head?.map Blame.error = some err)) ∧
    (∀ x b, b ∈ x.blames → b.blamed ∈ lowering.postorder x ∧ b.blamed.Defective b.error) ∧
    (∀ x err, x.Defective err → err ≠ .missingSymbol ∧ (∀ key, err ≠ .noOutputs key) ∧
      ∃ b, b.blamed = x ∧ ∀ y, x ∈ lowering.postorder y → b ∈ y.blames) ∧
    ∀ (id : Nat) (callee : Expr) (F : Function) (args : List Expr) (attrs : Attributes)
      (kind : FusedKind) (links : List (Part × Call)), callee.function? = some F →
      kind.Matches F links → ∃ layouts padding : List Violation,
        (Expr.exprCall id callee args attrs).blames =
          layouts.map ((Expr.exprCall id callee args attrs).violates kind.family) ++
            (((kind.operands ⟨.expr callee, args, attrs⟩ links).map
              (Operand.blames (.exprCall id callee args attrs) kind.family)).flatten ++
            padding.map ((Expr.exprCall id callee args attrs).violates kind.family)) ∧
        (layouts = [] ↔ kind.AdmitsLayouts links) ∧
        (padding = [] ↔ kind.AdmitsPadding links) := by
  intro s
  have hs : Sound _ s := (sound_run hids symbol fun x hx =>
    hx.mono (List.subset_append_right _ _)).1
  have hself : Expr.Unambiguous (Expr.Among [e]) := fun x y hx hy =>
    hids x y (hx.mono (by simp)) (hy.mono (by simp))
  refine ⟨?_, ?_, fun err => ?_, fun x b hb => ?_, fun x err hx => ?_, ?_⟩
  · exact explains_visit hids hs fun x hx => .of_mem List.mem_cons_self hx
  · exact explains_serialize hids hs fun x hx y hy =>
      .of_mem (List.mem_append_left _ (List.mem_cons_of_mem e hx)) hy
  · simp only [← Function.symbol?_eq_none_iff]
    exact compile_eq_error_iff hself
  · obtain ⟨hmem, herr⟩ := Expr.mem_blames_iff_faults.1 hb
    exact ⟨hmem, Expr.defective_of_mem_faults herr⟩
  · obtain ⟨err', herr⟩ := Expr.exists_fault_of_defective hx
    obtain ⟨hsymbol, houtputs⟩ := hx.error_ne
    exact ⟨hsymbol, houtputs, ⟨x, err'⟩, rfl, fun y hy => Expr.mem_blames_iff_faults.2 ⟨hy, herr⟩⟩
  · exact fun id callee F args attrs kind links hF hmatches => Expr.blames_of_matches id hF hmatches

/-! A sum, whose second term is a dense layer over a convolution, whose weights have another layout
than can be lowered. -/

namespace WrongLayout

def param : Expr := .var 0 "x" none

def weight : Expr := .constant 1 (.ofInt32 1)

def convolution : Expr :=
  .opCall 2 "nn.conv2d" [param, weight] ⟨[("kernel_layout", .text "HWIO")]⟩

def convolved : Expr := .composite 3 "vsi_npu.conv2d" [param] convolution

def data : Expr := .var 4 "data" none

def inner : Expr := .exprCall 5 convolved [data] .empty

def dense : Expr := .opCall 6 "nn.dense" [param, weight] .empty

def densed : Expr := .composite 7 "vsi_npu.dense" [param] dense

def outer : Expr := .exprCall 8 densed [inner] .empty

def sum : Expr := .opCall 9 "add" [weight, outer] .empty

def main : Expr := .function 10 [data] sum .empty

def nodes : List Expr :=
  [param, weight, convolution, convolved, data, inner, dense, densed, outer, sum, main]

theorem unambiguous {es : List Expr} (hes : es ⊆ nodes) : Expr.Unambiguous (Expr.Among es) := by
  refine Expr.unambiguous_of_nodup nodes hes ?_ (by decide)
  simp [nodes, Expr.children, Expr.composite, param, weight, convolution, convolved, data, inner,
    dense, densed, outer, sum, main]

theorem head?_blames_sum :
    sum.blames.head? = some ⟨inner, .violation .convolution (.kernelLayout "HWIO")⟩ := by
  have hconvolved : Pattern.ofKind .conv2d ⟨.expr convolved, [data], .empty⟩ = .ok (.convolution
      none ⟨.op "nn.conv2d", [param, weight], ⟨[("kernel_layout", .text "HWIO")]⟩⟩ none none) := rfl
  have hinner : inner.blames = inner.violates .convolution (.kernelLayout "HWIO") ::
      (data.blames ++ (weight.blames ++ []) ++ []) := Expr.blames_fused 5 rfl hconvolved
  have hdensed : Pattern.ofKind .dense ⟨.expr densed, [inner], .empty⟩ =
      .ok (.dense ⟨.op "nn.dense", [param, weight], .empty⟩ none none) := rfl
  have houter : outer.blames = inner.blames ++ (weight.blames ++ []) ++ [] :=
    Expr.blames_fused 8 rfl hdensed
  have hweight : weight.blames = [] := Expr.blames_constant 1 _
  have hsum : sum.blames = weight.blames ++ (outer.blames ++ []) := Expr.blames_opCall 9 "add" _ _
  rw [hsum, hweight, houter, hinner]
  rfl

/-- The convolution is to blame, and not what it is an operand of, also for a function whose body
is the sum. -/
theorem fails_for_inner :
    Expr.Unambiguous (Expr.Among (main :: ([data] ++ [sum]) ++ Session.exprs [.visit dense])) ∧
      (serialize ⟨[data], sum, .empty⟩ (Session.run "main" [.visit dense]).lowering).1 =
        .error (.violation .convolution (.kernelLayout "HWIO")) ∧
      (compile main (some "main")).1 = .error (.violation .convolution (.kernelLayout "HWIO")) := by
  have hids : Expr.Unambiguous
      (Expr.Among (main :: ([data] ++ [sum]) ++ Session.exprs [.visit dense])) :=
    unambiguous (by simp [nodes, Session.exprs, Request.exprs])
  have hfirst : (Function.blames ⟨[data], sum, .empty⟩).head?.map Blame.error =
      some (.violation .convolution (.kernelLayout "HWIO")) := by
    have hdata : data.blames = [] := Expr.blames_var 4 "data" none
    show ((data.blames ++ (sum.blames ++ [])).head?.map _) = _
    rw [hdata, List.nil_append, List.append_nil, head?_blames_sum]
    rfl
  obtain ⟨-, hserialize, hcompile, -⟩ := failures_blame_first "main" [.visit dense] main
    ⟨[data], sum, .empty⟩ (some "main") hids
  exact ⟨hids, (hserialize _).2 hfirst, (hcompile _).2 (.inr ⟨_, rfl, .inr ⟨by simp, hfirst⟩⟩)⟩

end WrongLayout

end KernelGraph
