import KernelGraph.Proofs.Contract
import KernelGraph.Proofs.Refinement

/-!
A call of a fused function is lowered exactly where the function is what it declares to be, and to
the kernel that it declares. What is asked of it is said here without the steps that look for it:
the sequence of calls, layouts and padding, and the operands.
-/

namespace KernelGraph

/-- An attribute is not given, or it is the text `value`. -/
def Attributes.Admits (as : Attributes) (name value : String) : Prop :=
  ∀ given, as.get? name = some given → given = .text value

/-- The width of a pad can be read: it is a grid of four rows, each of what is added before and what
is added after. -/
def Attributes.HasPadWidth (as : Attributes) : Prop :=
  ∃ rows, as.get? "pad_width" = some (.grid rows) ∧ rows.length = 4 ∧ ∀ row ∈ rows, row.length = 2

/-- What a kind asks of the attributes of its parts. -/
structure FusedKind.Meets (kind : FusedKind) (links : List (Part × Call)) : Prop where
  convolution : kind.family = .convolution → ∀ c, links.lookup .compute = some c →
    c.attrs.Admits "data_layout" "NCHW" ∧ c.attrs.Admits "kernel_layout" "OIHW"
  padding : ∀ c, links.lookup .pad = some c → c.attrs.HasPadWidth
  /-- Only a pool that is padded is asked for its layout. -/
  pool : kind.family = .pool → links.lookup .pad ≠ none →
    ∀ c, links.lookup .compute = some c → c.attrs.Admits "layout" "NCHW"

/-- What a kind asks of the layouts of the call that computes. -/
def FusedKind.AdmitsLayouts (kind : FusedKind) (links : List (Part × Call)) : Prop :=
  kind.family = .convolution → ∀ c, links.lookup .compute = some c →
    c.attrs.Admits "data_layout" "NCHW" ∧ c.attrs.Admits "kernel_layout" "OIHW"

/-- What a kind asks of a pad, and of the pool that is padded. -/
structure FusedKind.AdmitsPadding (kind : FusedKind) (links : List (Part × Call)) : Prop where
  padding : ∀ c, links.lookup .pad = some c → c.attrs.HasPadWidth
  pool : kind.family = .pool → links.lookup .pad ≠ none →
    ∀ c, links.lookup .compute = some c → c.attrs.Admits "layout" "NCHW"

/-- A function is what it declares: it carries the name of a kind, and its body starts with the
calls `links`, which are as the kind asks. -/
structure FusedKind.Describes (kind : FusedKind) (f : Function) (links : List (Part × Call)) :
    Prop where
  name : f.attrs.get? "Composite" = some (.text kind.name)
  body : Follows kind.slots f.body.chain links
  meets : kind.Meets links

/-- A visit of an expression succeeds. -/
def Lowers (e : Expr) (s : Lowering) : Prop := ∃ entries t, Lowering.visit e s = (.ok entries, t)

namespace Call

theorem layout_eq_ok_iff {c : Call} {attr standard layout : String} :
    c.layout attr standard = .ok layout ↔
      c.attrs.get? attr = none ∧ layout = standard ∨ c.attrs.get? attr = some (.text layout) := by
  unfold Call.layout
  cases c.attrs.get? attr with
  | none => simp [eq_comm]
  | some given => cases given <;> simp

/-- The standard layout is that of a call which gives no other one. -/
theorem layout_standard_iff {c : Call} {attr standard : String} :
    c.layout attr standard = .ok standard ↔ c.attrs.Admits attr standard := by
  rw [layout_eq_ok_iff, Attributes.Admits]
  cases c.attrs.get? attr with
  | none => simp
  | some given => simp

theorem checkConvLayouts_iff {c : Call} :
    c.checkConvLayouts = .ok () ↔
      c.attrs.Admits "data_layout" "NCHW" ∧ c.attrs.Admits "kernel_layout" "OIHW" := by
  rw [← layout_standard_iff, ← layout_standard_iff]
  unfold checkConvLayouts convLayouts dataLayout kernelLayout
  cases hdata : c.layout "data_layout" "NCHW" with
  | error v => simp [bind, Except.bind]
  | ok data =>
      cases hkernel : c.layout "kernel_layout" "OIHW" with
      | error v => simp [bind, Except.bind]
      | ok kernel =>
          by_cases hk : kernel = "OIHW"
          · by_cases hd : data = "NCHW"
            · simp [bind, Except.bind, hk, hd]
            · simp [bind, Except.bind, hk, hd]
          · simp [bind, Except.bind, hk]

theorem checkPoolLayout_iff {c : Call} :
    c.checkPoolLayout = .ok () ↔ c.attrs.Admits "layout" "NCHW" := by
  rw [← layout_standard_iff]
  unfold checkPoolLayout dataLayout
  cases hlayout : c.layout "layout" "NCHW" with
  | error v => simp [bind, Except.bind]
  | ok layout =>
      by_cases hl : layout = "NCHW"
      · simp [bind, Except.bind, hl]
      · simp [bind, Except.bind, hl]

theorem paddingOfWidth?_isSome_iff {rows : List (List Int64)} :
    (paddingOfWidth? rows).isSome ↔ rows.length = 4 ∧ ∀ row ∈ rows, row.length = 2 := by
  constructor
  · intro h
    unfold paddingOfWidth? at h
    split at h
    · simp
    · cases h
  · rintro ⟨hlength, hrows⟩
    obtain ⟨a, b, c, d, rfl⟩ := List.length_eq_four.1 hlength
    obtain ⟨_, _, rfl⟩ := List.length_eq_two.1 (hrows a (by simp))
    obtain ⟨_, _, rfl⟩ := List.length_eq_two.1 (hrows b (by simp))
    obtain ⟨_, _, rfl⟩ := List.length_eq_two.1 (hrows c (by simp))
    obtain ⟨_, _, rfl⟩ := List.length_eq_two.1 (hrows d (by simp))
    rfl

theorem padding_isOk_iff {c : Call} :
    (∃ padding, c.padding = .ok padding) ↔ c.attrs.HasPadWidth := by
  have hrows : ∀ rows : List (List Int64),
      (c.attrs.get? "pad_width").bind AttrValue.grid? = some rows ↔
        c.attrs.get? "pad_width" = some (.grid rows) := by
    intro rows
    cases c.attrs.get? "pad_width" with
    | none => simp
    | some given => cases given <;> simp [AttrValue.grid?]
  unfold Call.padding Attributes.HasPadWidth padWidthName
  simp only [← hrows]
  cases (c.attrs.get? "pad_width").bind AttrValue.grid? with
  | none => simp
  | some rows =>
      simp only [Option.some.injEq, exists_eq_left', ← paddingOfWidth?_isSome_iff]
      cases paddingOfWidth? rows <;> simp

end Call

namespace Pattern

theorem attrs_isOk_iff (p : Pattern) :
    (∃ attrs, p.attrs = .ok attrs) ↔ ∃ padding, p.padding? = .ok padding := by
  unfold attrs
  cases p.padding? with
  | error v => simp [bind, Except.bind]
  | ok padding => cases padding <;> simp [bind, Except.bind]

theorem some_padding_isOk_iff {c : Call} :
    (∃ padding, some <$> c.padding = .ok padding) ↔ c.attrs.HasPadWidth := by
  rw [← Call.padding_isOk_iff]
  cases c.padding <;> simp [Functor.map, Except.map]

theorem pool_padding_isOk_iff {which : Pooling} {pad compute : Call} :
    (∃ padding, (pool which (some pad) compute).padding? = .ok padding) ↔
      compute.attrs.Admits "layout" "NCHW" ∧ pad.attrs.HasPadWidth := by
  rw [← some_padding_isOk_iff, ← Call.checkPoolLayout_iff]
  show (∃ padding, (compute.checkPoolLayout >>= fun _ => some <$> pad.padding) = .ok padding) ↔ _
  cases compute.checkPoolLayout <;> simp [bind, Except.bind]

/-- The layouts are looked at first. -/
theorem check_eq_ok_iff (p : Pattern) : p.check = .ok () ↔ p.kind.AdmitsLayouts p.links := by
  have hfamily := p.family_kind
  unfold FusedKind.AdmitsLayouts
  rw [p.lookup_compute]
  cases p with
  | convolution pad compute bias requantize =>
      refine Call.checkConvLayouts_iff.trans ⟨fun h _ c hc => ?_, fun h => h hfamily compute rfl⟩
      cases hc
      exact h
  | activation which =>
      refine ⟨fun _ h => ?_, fun _ => rfl⟩
      cases which <;> cases hfamily.symm.trans h
  | _ => exact ⟨fun _ h => (by cases hfamily.symm.trans h), fun _ => rfl⟩

/-- The padding is read last. -/
theorem attrs_isOk_iff_admitsPadding (p : Pattern) :
    (∃ attrs, p.attrs = .ok attrs) ↔ p.kind.AdmitsPadding p.links := by
  have hfamily := p.family_kind
  have hcompute := p.lookup_compute
  have hpad := p.lookup_pad
  rw [attrs_isOk_iff]
  constructor
  · intro hattrs
    refine ⟨fun c hc => ?_, fun hkind hpadded c hc => ?_⟩
    · rw [hpad] at hc
      cases p with
      | convolution pad compute bias requantize =>
          cases hc
          exact some_padding_isOk_iff.1 hattrs
      | pool which pad compute =>
          cases hc
          exact (pool_padding_isOk_iff.1 hattrs).2
      | _ => cases hc
    · obtain rfl := Option.some.inj (hcompute.symm.trans hc)
      cases p with
      | pool which pad compute =>
          cases pad with
          | none => exact absurd hpad hpadded
          | some pad => exact (pool_padding_isOk_iff.1 hattrs).1
      | activation which => cases which <;> cases hfamily.symm.trans hkind
      | _ => cases hfamily.symm.trans hkind
  · intro h
    cases p with
    | convolution pad compute bias requantize =>
        cases pad with
        | none => exact ⟨none, rfl⟩
        | some pad => exact some_padding_isOk_iff.2 (h.padding pad hpad)
    | pool which pad compute =>
        cases pad with
        | none => exact ⟨none, rfl⟩
        | some pad =>
            have hpadded : (pool which (some pad) compute).links.lookup .pad ≠ none := by
              rw [hpad]
              exact Option.some_ne_none pad
            exact pool_padding_isOk_iff.2
              ⟨h.pool hfamily hpadded compute hcompute, h.padding pad hpad⟩
    | dense => exact ⟨none, rfl⟩
    | activation => exact ⟨none, rfl⟩
    | avgPool => exact ⟨none, rfl⟩

/-- A kernel can be put together exactly if the attributes are as the kind asks. -/
theorem meets_iff (p : Pattern) :
    p.kind.Meets p.links ↔ p.check = .ok () ∧ ∃ attrs, p.attrs = .ok attrs := by
  rw [p.check_eq_ok_iff, p.attrs_isOk_iff_admitsPadding]
  exact ⟨fun h => ⟨h.convolution, h.padding, h.pool⟩, fun h => ⟨h.1, h.2.padding, h.2.pool⟩⟩

end Pattern

theorem fusedKind_eq_ok_iff {callee : Expr} {f : Function} (hf : callee.function? = some f)
    {kind : FusedKind} :
    callee.fusedKind = .ok kind ↔ f.attrs.get? "Composite" = some (.text kind.name) := by
  rw [← Attributes.getText?_eq_some_iff, ← compositeName]
  unfold Expr.fusedKind
  rw [hf]
  dsimp only
  cases f.attrs.getText? compositeName with
  | none => simp
  | some name =>
      dsimp only
      rw [Option.some.injEq, eq_comm (a := name), ← FusedKind.ofName?_eq_some_iff]
      cases FusedKind.ofName? name <;> simp

/-- All results are there exactly if each of them is. -/
theorem allOf_isOk_iff {α : Type} {results : List (Except LoweringError α)} :
    (∃ xs, allOf results = .ok xs) ↔ ∀ result ∈ results, ∃ x, result = .ok x := by
  induction results with
  | nil => simp [allOf_nil]
  | cons result results ih =>
      rw [allOf_cons, List.forall_mem_cons, ← ih]
      cases result with
      | error err => simp [bind, Except.bind]
      | ok x => cases allOf results <;> simp [bind, Except.bind]

theorem Agrees.isOk_iff {α β : Type} {R : α → β → Prop} {a : Except LoweringError α}
    {b : Except LoweringError β} (h : Agrees R a b) : (∃ x, a = .ok x) ↔ ∃ y, b = .ok y := by
  cases h with
  | ok _ => simp
  | error err => simp

open Lowering

section

variable {nodes : Expr → Prop}

/-- An expression can be lowered in a sound graph exactly if it has a tree. -/
theorem lowers_iff (hids : Expr.Unambiguous nodes) {s : Lowering} (hs : Sound nodes s) {e : Expr}
    (he : ∀ x, e.Reaches x → nodes x) : Lowers e s ↔ ∃ tree, e.tree = .ok tree := by
  rw [← (visit_outcome hids e s hs he).agrees.isOk_iff]
  constructor
  · rintro ⟨entries, t, h⟩
    exact ⟨entries, by rw [h]⟩
  · rintro ⟨entries, h⟩
    exact ⟨entries, (visit e s).2, Prod.ext h rfl⟩

/-- A function can be serialized exactly if its parameters and its body have trees. -/
theorem serialize_isOk_iff {f : Function} {symbol : String}
    (hids : Expr.Unambiguous (Expr.Among (f.params ++ [f.body]))) :
    (∃ g t, serialize f (.start symbol) = (.ok g, t)) ↔
      (∀ x ∈ f.params, ∃ tree, x.tree = .ok tree) ∧ ∃ tree, f.body.tree = .ok tree := by
  have hparams := outcome_arguments (fun a ha s hs => visit_outcome hids a s hs fun x hx =>
    .of_mem (List.mem_append_left _ ha) hx) (.start symbol)
  have hall := hparams.agrees.isOk_iff.trans allOf_isOk_iff
  rw [List.forall_mem_map] at hall
  rw [← hall]
  rcases hrun : Step.all (f.params.map visit) (.start symbol) with ⟨err | entries, m⟩
  · simp [serialize_eq_ok_iff, hrun]
  · have hm := hparams.sound
    rw [hrun] at hm
    rw [← lowers_iff hids hm fun x hx => .of_mem (List.mem_append_right _ List.mem_cons_self) hx]
    simp only [serialize_eq_ok_iff, hrun, Lowers]
    constructor
    · rintro ⟨g, t, _, _, heads, hfst, hbody, -⟩
      cases hfst
      exact ⟨⟨entries, rfl⟩, heads, t, hbody⟩
    · rintro ⟨-, heads, t, hbody⟩
      exact ⟨_, t, entries, m, heads, rfl, hbody, rfl⟩

/-- Operands can be lowered one after the other exactly if each can be lowered at first. -/
theorem lowerOperands_isOk_iff (p : Pattern) (root : Call) (hids : Expr.Unambiguous nodes)
    {s : Lowering} (hs : Sound nodes s) (hnodes : ∀ o ∈ p.operands root, ∀ x, o.expr? = some x →
      ∀ y, x.Reaches y → nodes y) :
    (∃ inputs t, lowerOperands p root s = (.ok inputs, t)) ↔
      ∀ o ∈ p.operands root, ∃ x, o.expr? = some x ∧ Lowers x s := by
  have hout := outcome_lowerOperands (fun o ho x hx t ht =>
    visit_outcome hids x t ht (hnodes o ho x hx)) hs
  have hall := hout.agrees.isOk_iff.trans allOf_isOk_iff
  have hsplit : (∃ inputs t, lowerOperands p root s = (.ok inputs, t)) ↔
      ∃ inputs, (lowerOperands p root s).1 = .ok inputs := by
    simp [Prod.ext_iff]
  rw [hsplit, hall, List.forall_mem_map]
  refine forall₂_congr fun o ho => ?_
  cases hx : o.expr? with
  | none =>
      rw [Operand.tree_of_none hx]
      simp
  | some x =>
      rw [Operand.tree_of_some hx, ← lowers_iff hids hs (hnodes o ho x hx)]
      simp

end

/-- A function is what it declares exactly if its calls have a pattern of the declared kind, for
which a kernel can be put together. -/
theorem describes_iff {callee : Expr} {f : Function} {args : List Expr} {attrs : Attributes}
    (hf : callee.function? = some f) {kind : FusedKind} {links : List (Part × Call)} :
    kind.Describes f links ↔ callee.fusedKind = .ok kind ∧
      ∃ p, Pattern.ofKind kind ⟨.expr callee, args, attrs⟩ = .ok p ∧ p.kind = kind ∧
        p.links = links ∧ p.check = .ok () ∧ ∃ copied, p.attrs = .ok copied := by
  constructor
  · intro h
    obtain ⟨p, hp, rfl⟩ := (Pattern.ofKind_iff_follows hf).2 h.body
    obtain ⟨-, rfl⟩ := Pattern.ofCall_of_ofKind hp
    exact ⟨(fusedKind_eq_ok_iff hf).2 h.name, p, hp, rfl, rfl, p.meets_iff.1 h.meets⟩
  · rintro ⟨hkind, p, hp, rfl, rfl, hmeets⟩
    exact ⟨(fusedKind_eq_ok_iff hf).1 hkind, (Pattern.ofKind_iff_follows hf).1 ⟨p, hp, rfl⟩,
      p.meets_iff.2 hmeets⟩

/-- A call of a function that has no node is lowered exactly if the function is what it declares and
all operands of the declared kind are there and can be lowered. It is then given one new node, which
is the kernel of that kind over all operands. -/
theorem visit_describes_iff (symbol : String) (requests : List Request) (id : Nat) (callee : Expr)
    (f : Function) (args : List Expr) (attrs : Attributes) (hf : callee.function? = some f)
    (hids : Expr.Unambiguous
      (Expr.Among (.exprCall id callee args attrs :: Session.exprs requests)))
    (hnew : (Session.run symbol requests).lowering.registry.lookup id = none) :
    let s := (Session.run symbol requests).lowering
    let root : Call := ⟨.expr callee, args, attrs⟩
    (Lowers (.exprCall id callee args attrs) s ↔
      ∃ (kind : FusedKind) (links : List (Part × Call)), kind.Describes f links ∧
        ∀ o ∈ kind.operands root links, ∃ x, o.expr? = some x ∧ Lowers x s) ∧
    ∀ entries t, visit (.exprCall id callee args attrs) s = (.ok entries, t) →
      ∃ (kind : FusedKind) (links : List (Part × Call)) (before : List Node) (node : Node),
        kind.Describes f links ∧ t.registry.nodes = before ++ [node] ∧
          entries = [⟨before.length, 0, 0⟩] ∧ node.op = .kernel ∧ node.name = kind.kernelName ∧
          node.inputs.length = (kind.operands root links).length ∧ node.outputs = 1 := by
  intro s root
  have hs : Sound (Expr.Among (.exprCall id callee args attrs :: Session.exprs requests)) s :=
    (sound_run hids symbol fun x hx => hx.mono (List.subset_cons_self _ _)).1
  have hoperands : ∀ {kind p}, Pattern.ofKind kind root = .ok p →
      ((∃ inputs t, lowerOperands p root s = (.ok inputs, t)) ↔
        ∀ o ∈ p.operands root, ∃ x, o.expr? = some x ∧ Lowers x s) := fun hp =>
    lowerOperands_isOk_iff _ root hids hs fun o ho x hx y hy =>
      .of_mem List.mem_cons_self ((Expr.reaches_operand id hp ho hx).trans hy)
  refine ⟨⟨?_, ?_⟩, ?_⟩
  · rintro ⟨entries, t, h⟩
    obtain ⟨kind, p, node, u, hkind, hp, hnode, -⟩ := (visit_exprCall_eq_ok_iff hnew).1 h
    obtain ⟨hcheck, inputs, copied, hinputs, hcopied, -⟩ := ofPattern_eq_ok_iff.1 hnode
    obtain ⟨-, rfl⟩ := Pattern.ofCall_of_ofKind hp
    refine ⟨p.kind, p.links,
      (describes_iff hf).2 ⟨hkind, p, hp, rfl, rfl, hcheck, copied, hcopied⟩, ?_⟩
    rw [← p.operands_eq]
    exact (hoperands hp).1 ⟨inputs, u, hinputs⟩
  · rintro ⟨kind, links, hdescribes, hall⟩
    obtain ⟨hkind, p, hp, rfl, rfl, hcheck, copied, hcopied⟩ := (describes_iff hf).1 hdescribes
    rw [← p.operands_eq] at hall
    obtain ⟨inputs, u, hinputs⟩ := (hoperands hp).2 hall
    exact ⟨_, _, (visit_exprCall_eq_ok_iff hnew).2 ⟨p.kind, p, _, u, hkind, hp,
      ofPattern_eq_ok_iff.2 ⟨hcheck, inputs, copied, hinputs, hcopied, rfl⟩, rfl⟩⟩
  · intro entries t h
    obtain ⟨kind, p, node, u, hkind, hp, hnode, hadd⟩ := (visit_exprCall_eq_ok_iff hnew).1 h
    obtain ⟨hcheck, inputs, copied, hinputs, hcopied, rfl⟩ := ofPattern_eq_ok_iff.1 hnode
    obtain ⟨-, rfl⟩ := Pattern.ofCall_of_ofKind hp
    cases hadd
    refine ⟨p.kind, p.links, u.registry.nodes, _,
      (describes_iff hf).2 ⟨hkind, p, hp, rfl, rfl, hcheck, copied, hcopied⟩, rfl, rfl, rfl,
      p.kernelName_kind.symm, ?_, rfl⟩
    rw [← p.operands_eq]
    exact (Step.length_of_all hinputs).trans (List.length_map _)

namespace Sigmoids

/-- A graph that has a node for the input only. -/
def base : Lowering := (Session.run "main" [.visit data]).lowering

theorem base_eq : base = (add 7 (.input "data" none) (.start "main")).2 := by
  show (visit data (.start "main")).2 = _
  rw [data, visit_var rfl]

theorem inner_unambiguous : Expr.Unambiguous (Expr.Among (inner :: Session.exprs [.visit data])) :=
  unambiguous (by simp [nodes, Session.exprs, Request.exprs])

theorem lowers_operands : ∀ o ∈ pattern.operands ⟨.expr fused, [data], .empty⟩,
    ∃ x, o.expr? = some x ∧ Lowers x base := by
  have hdata : Lowers data base := ⟨_, _, visit_of_lookup (by rw [base_eq]; rfl)⟩
  have hscale : Lowers scale base := ⟨_, _, visit_constant (by rw [base_eq]; rfl)⟩
  have hzero : Lowers zeroPoint base := ⟨_, _, visit_constant (by rw [base_eq]; rfl)⟩
  exact List.forall_mem_cons.2 ⟨⟨data, rfl, hdata⟩, List.forall_mem_cons.2 ⟨⟨scale, rfl, hscale⟩,
    List.forall_mem_cons.2 ⟨⟨zeroPoint, rfl, hzero⟩, List.forall_mem_cons.2 ⟨⟨scale, rfl, hscale⟩,
      List.forall_mem_singleton.2 ⟨zeroPoint, rfl, hzero⟩⟩⟩⟩⟩

theorem lowers_inner :
    fused.function? = some ⟨[param], quantize, ⟨[("Composite", .text "vsi_npu.qnn_sigmoid")]⟩⟩ ∧
      Expr.Unambiguous (Expr.Among (inner :: Session.exprs [.visit data])) ∧
      base.registry.lookup 8 = none ∧ Lowers inner base := by
  have hnew : base.registry.lookup 8 = none := by
    rw [base_eq]
    rfl
  refine ⟨rfl, inner_unambiguous, hnew, (visit_describes_iff "main" [.visit data] 8 fused _ [data]
    .empty rfl inner_unambiguous hnew).1.2 ⟨.qnnSigmoid, pattern.links, ⟨rfl, ?_, ?_⟩, ?_⟩⟩
  · exact .take ⟨.quantize, by simp, rfl⟩ (.take ⟨.sigmoid, by simp, rfl⟩
      (.take ⟨.dequantize, by simp, rfl⟩ (.done _)))
  · exact ⟨fun h => (by cases h), fun c h => (by cases h), fun h => (by cases h)⟩
  · exact lowers_operands

end Sigmoids

end KernelGraph
