import KernelGraph.Lowering.Basic

/-!
What lowering does with an expression of each kind.

An expression that has a node is looked up (`visit_of_lookup`). For any other there is one equation
for its kind, in which the steps for arguments and operands are `visit` and `visitOperand` themselves.
The equations are all that is needed of `visit`, whose own definition carries the measure by which it
ends.
-/

namespace KernelGraph

namespace Step

variable {α : Type}

theorem all_nil (s : Lowering) : all ([] : List (Step α)) s = (.ok [], s) := rfl

/-- Steps succeed if the first one does and then the others do. -/
theorem all_cons_eq_ok_iff {f : Step α} {fs : List (Step α)} {s t : Lowering} {xs : List α} :
    all (f :: fs) s = (.ok xs, t) ↔
      ∃ x ys m, f s = (.ok x, m) ∧ all fs m = (.ok ys, t) ∧ xs = x :: ys := by
  rw [all]
  split
  · simp_all
  · split <;> grind

/-- Steps fail with the first failure, which leaves what was done up to it. -/
theorem all_cons_eq_error_iff {f : Step α} {fs : List (Step α)} {s t : Lowering}
    {e : LoweringError} :
    all (f :: fs) s = (.error e, t) ↔
      f s = (.error e, t) ∨ ∃ x m, f s = (.ok x, m) ∧ all fs m = (.error e, t) := by
  rw [all]
  split
  · simp_all
  · split <;> grind

/-- Steps fail with the first of them that fails, after all that come before it were taken. -/
theorem all_eq_error_iff {fs : List (Step α)} {s t : Lowering} {e : LoweringError} :
    all fs s = (.error e, t) ↔
      ∃ before f after xs u, fs = before ++ f :: after ∧ all before s = (.ok xs, u) ∧
        f u = (.error e, t) := by
  induction fs generalizing s with
  | nil => simp [all_nil]
  | cons g fs ih =>
    rw [all_cons_eq_error_iff]
    constructor
    · rintro (hg | ⟨x, m, hg, hrest⟩)
      · exact ⟨[], g, fs, [], s, rfl, rfl, hg⟩
      · obtain ⟨before, f, after, xs, u, rfl, hall, hf⟩ := ih.1 hrest
        have hcons : all (g :: before) s = (.ok (x :: xs), u) :=
          all_cons_eq_ok_iff.2 ⟨x, xs, m, hg, hall, rfl⟩
        exact ⟨g :: before, f, after, x :: xs, u, rfl, hcons, hf⟩
    · rintro ⟨before, f, after, xs, u, hsplit, hall, hf⟩
      cases before with
      | nil =>
        obtain ⟨rfl, rfl⟩ := List.cons.inj hsplit
        cases hall
        exact .inl hf
      | cons first before =>
        obtain ⟨rfl, rfl⟩ := List.cons.inj hsplit
        obtain ⟨x, rest, m, hg, hrest, rfl⟩ := all_cons_eq_ok_iff.1 hall
        exact .inr ⟨x, m, hg, ih.2 ⟨before, f, after, rest, u, rfl, hrest, hf⟩⟩

/-- There is one result for every step. -/
theorem length_of_all {fs : List (Step α)} {s t : Lowering} {xs : List α}
    (h : all fs s = (.ok xs, t)) : xs.length = fs.length := by
  induction fs generalizing s xs with
  | nil =>
    cases h
    rfl
  | cons f fs ih =>
    obtain ⟨x, ys, m, -, hrest, rfl⟩ := all_cons_eq_ok_iff.1 h
    simp [ih hrest]

end Step

namespace Lowering

theorem visit_of_lookup {e : Expr} {s : Lowering} {entries : List Entry}
    (h : s.registry.lookup e.id = some entries) : visit e s = (.ok entries, s) := by
  rw [visit.eq_def, h]

theorem visit_var {id : Nat} {name : String} {type : Option TensorType} {s : Lowering}
    (h : s.registry.lookup id = none) :
    visit (.var id name type) s = add id (.input name type) s := by
  rw [visit, Expr.id, h]

theorem visit_constant {id : Nat} {value : Tensor} {s : Lowering}
    (h : s.registry.lookup id = none) :
    visit (.constant id value) s = addConstant id value s := by
  rw [visit, Expr.id, h]

theorem visit_function {id : Nat} {params : List Expr} {body : Expr} {attrs : Attributes}
    {s : Lowering} (h : s.registry.lookup id = none) :
    visit (.function id params body attrs) s = fail (.unsupportedTarget "Function") s := by
  rw [visit, Expr.id, h]
  rfl

theorem visit_opCall {id : Nat} {op : String} {args : List Expr} {attrs : Attributes}
    {s : Lowering} (h : s.registry.lookup id = none) :
    visit (.opCall id op args attrs) s =
      addCall id op attrs (Step.all (args.map visit) (noteOperator op s)) := by
  rw [visit, Expr.id, h, List.attach_map_val]

/-- A call of an expression is lowered as the kind of fused function that its callee declares. -/
theorem visit_exprCall {id : Nat} {callee : Expr} {args : List Expr} {attrs : Attributes}
    {s : Lowering} (h : s.registry.lookup id = none) :
    visit (.exprCall id callee args attrs) s =
      match declaredKind callee s with
      | (.error e, s) => (.error e, s)
      | (.ok kind, s) => addKernel id kind (lowerKind kind ⟨.expr callee, args, attrs⟩ s) := by
  rw [visit, Expr.id, h]
  dsimp only
  rcases declaredKind callee s with ⟨e | kind, t⟩
  · rfl
  · dsimp only
    congr 1
    unfold lowerKind
    split
    · rename_i heq
      rw [heq]
    · rename_i p heq
      rw [heq]
      dsimp only
      rw [ofPattern, ← List.attach_map_val (f := visitOperand p.family)]
      congr 2
      funext o u
      unfold visitOperand visitFirst
      split
      · rename_i hnone
        rw [hnone]
      · rename_i x hsome
        rw [hsome]

/-- The graph of a function is what lowering its parameters and then its body leaves. -/
theorem serialize_eq_ok_iff {f : Function} {s t : Lowering} {g : Graph} :
    serialize f s = (.ok g, t) ↔ ∃ entries m heads,
      Step.all (f.params.map visit) s = (.ok entries, m) ∧ visit f.body m = (.ok heads, t) ∧
        g = t.registry.toGraph t.symbol heads := by
  unfold serialize
  rcases Step.all (f.params.map visit) s with ⟨err | entries, m⟩
  · simp
  · dsimp only
    rcases hbody : visit f.body m with ⟨err | heads, u⟩
    · simp [hbody]
    · constructor
      · intro h
        cases h
        exact ⟨entries, m, heads, rfl, hbody, rfl⟩
      · rintro ⟨_, _, heads', h, hbody', rfl⟩
        cases h
        rw [hbody] at hbody'
        cases hbody'
        rfl

end Lowering

end KernelGraph
