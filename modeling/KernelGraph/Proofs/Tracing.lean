import KernelGraph.Proofs.ConstantTable
import KernelGraph.Proofs.Reporting

/-!
What is traced while a graph is built. Each fused call that is given a node is reported when the
node is added, so the trace of a graph tells the nodes of its fused calls in their order (`Traced`),
whatever failed in between. The expressions that the nodes of a graph are those of are known from
the graph (`Emitted.unique`), so a walk from the operands of a call can be taken up where it ends.
-/

namespace KernelGraph

open Lowering Walk

/-- The kind of fused function that a call declares to be one of. -/
def Expr.declared? : Expr → Option FusedKind
  | .exprCall _ callee _ _ => callee.fusedKind.toOption
  | _ => none

/-- The nodes of fused calls, each with the declared kind, in a graph whose nodes are those of `es`.
-/
def fusedNodes (es : List Expr) (nodes : List Node) : List (FusedKind × Node) :=
  (es.zip nodes).filterMap fun (e, node) => e.declared?.map (·, node)

theorem fusedNodes_concat {es : List Expr} {nodes : List Node} (h : es.length = nodes.length)
    (e : Expr) (node : Node) : fusedNodes (es ++ [e]) (nodes ++ [node]) =
      fusedNodes es nodes ++ (e.declared?.map (·, node)).toList := by
  rw [fusedNodes, List.zip_append h, List.filterMap_append]
  cases hkind : e.declared? <;> simp [fusedNodes, hkind]

/-- The report of a fused call that has been given a node. -/
def Event.ofFused (fused : FusedKind × Node) : Event :=
  .lowered fused.1 fused.2.name fused.2.inputs.length

/-- What a log traces. -/
def traces (log : List Event) : List Event := log.filter (·.severity = .trace)

theorem traces_append (log later : List Event) :
    traces (log ++ later) = traces log ++ traces later := List.filter_append ..

/-- What is traced is shown at every level but `off`. -/
theorem TraceLevel.lines_traces {level : TraceLevel} (h : level ≠ .off) (log : List Event) :
    level.lines (traces log) = (traces log).map Event.line := by
  have hshown : ∀ event ∈ traces log, level.shows event.severity = true := by
    intro event hevent
    have hseverity : event.severity = .trace := of_decide_eq_true (List.mem_filter.1 hevent).2
    rw [hseverity]
    cases level with
    | off => exact absurd rfl h
    | basic => rfl
    | full => rfl
  rw [lines, List.filter_eq_self.2 hshown]

namespace Lowering

variable {nodes : Expr → Prop}

/-! ### The expressions of a graph -/

namespace Emitted

variable {s : Lowering} {es ds : List Expr}

/-- Which expression a node is of is seen from the outputs that expressions are known by. -/
theorem getElem?_eq_some_iff (hids : Expr.Unambiguous nodes) (hs : Emitted s es)
    (hes : ∀ x ∈ es, nodes x) {i : Nat} {x : Expr} :
    es[i]? = some x ↔ nodes x ∧ s.registry.lookup x.id = some [⟨i, 0, 0⟩] := by
  constructor
  · intro hx
    have hmem : x ∈ es := List.mem_of_getElem? hx
    rw [hs.table.known x hmem, Expr.placeIn_of_getElem? hs.ordered.nodup hx]
    exact ⟨hes x hmem, rfl⟩
  · rintro ⟨hnodes, hlookup⟩
    have hmem : x ∈ es := mem_of_id_mem hids hes hnodes (hs.table.mem_of_lookup hlookup)
    have hplace := hs.table.known x hmem
    rw [hlookup] at hplace
    obtain rfl : i = x.placeIn es := by simpa using hplace
    exact Expr.getElem?_placeIn hs.ordered.nodup hmem

/-- The nodes of a graph are those of one list of expressions only. -/
theorem unique (hids : Expr.Unambiguous nodes) (hs : Emitted s es) (hes : ∀ x ∈ es, nodes x)
    (hs' : Emitted s ds) (hds : ∀ x ∈ ds, nodes x) : es = ds := by
  refine List.ext_getElem? fun i => Option.ext fun x => ?_
  rw [hs.getElem?_eq_some_iff hids hes, hs'.getElem?_eq_some_iff hids hds]

end Emitted

/-- The node of a visited expression that had none comes after those of what it is lowered over. -/
theorem emitted_of_visit (hids : Expr.Unambiguous nodes) {e : Expr} {s t : Lowering}
    {es : List Expr} {entries : List Entry} (hs : Emitted s es) (hes : ∀ x ∈ es, nodes x)
    (he : ∀ x ∈ lowering.postorder e, nodes x) (hnew : s.registry.lookup e.id = none)
    (h : visit e s = (.ok entries, t)) : Emitted t (lowering.list es e.inputs ++ [e]) := by
  have hout := visit_walked hids e s es hs hes he
  rw [h] at hout
  cases hout with
  | ok ht hvisited =>
      have hlist : lowering.list es [e] = lowering.list es e.inputs ++ [e] :=
        list_of_not_mem hids he (hs.table.not_mem_of_lookup hnew)
      rw [← hlist, ← hvisited.1]
      exact ht

/-! ### The trace of a graph -/

/-- The trace of a graph that is being built tells the nodes of its fused calls, in order. -/
def Traced (nodes : Expr → Prop) (s : Lowering) : Prop :=
  ∃ es, Emitted s es ∧ (∀ x ∈ es, nodes x) ∧
    traces s.log = (fusedNodes es s.registry.nodes).map Event.ofFused

namespace Traced

theorem start (symbol : String) : Traced nodes (Lowering.start symbol) :=
  ⟨[], .start symbol, fun _ hx => (by cases hx), rfl⟩

theorem note {s : Lowering} (h : Traced nodes s) {event : Event}
    (hevent : event.severity ≠ .trace) :
    Traced nodes (s.note event) := by
  obtain ⟨es, hs, hes, htraces⟩ := h
  have hsilent : traces [event] = [] := List.filter_eq_nil_iff.2 (by simpa using hevent)
  refine ⟨es, hs.note event, hes, ?_⟩
  calc traces (s.note event).log = traces s.log ++ traces [event] := traces_append ..
    _ = (fusedNodes es s.registry.nodes).map Event.ofFused := by
      rw [hsilent, List.append_nil, htraces]

theorem noteOperator {s : Lowering} (h : Traced nodes s) (op : String) :
    Traced nodes (noteOperator op s) := by
  unfold Lowering.noteOperator
  split
  · exact h
  · exact h.note nofun

/-- A node that is added last is traced last, if it is that of a fused call. -/
theorem concat (hids : Expr.Unambiguous nodes) {t u : Lowering} {ds : List Expr} {e : Expr}
    {node : Node} (h : Traced nodes t) (ht : Emitted t ds) (hds : ∀ x ∈ ds, nodes x)
    (he : nodes e) (hu : Emitted u (ds ++ [e]))
    (hnodes : u.registry.nodes = t.registry.nodes ++ [node])
    (hlog : traces u.log = traces t.log ++
      ((e.declared?.map (·, node)).toList.map Event.ofFused)) : Traced nodes u := by
  obtain ⟨es, hs, hes, htraces⟩ := h
  obtain rfl : es = ds := hs.unique hids hes ht hds
  refine ⟨es ++ [e], hu, List.forall_mem_append.2 ⟨hes, List.forall_mem_singleton.2 he⟩, ?_⟩
  rw [hlog, htraces, hnodes, fusedNodes_concat hs.nodes.length_eq, List.map_append]

end Traced

theorem traced_arguments {args : List Expr}
    (h : ∀ a ∈ args, ∀ s, Traced nodes s → Traced nodes (visit a s).2) {s : Lowering}
    (hs : Traced nodes s) : Traced nodes (Step.all (args.map visit) s).2 :=
  Step.rel_all (R := fun s t => Traced nodes s → Traced nodes t) (fun _ h => h)
    (fun _ _ _ hst htu h => htu (hst h)) (List.forall_mem_map.2 h) s hs

theorem traced_ofPattern {p : Pattern} {root : Call}
    (h : ∀ o ∈ p.operands root, ∀ x, o.expr? = some x → ∀ s, Traced nodes s →
      Traced nodes (visit x s).2) {s : Lowering} (hs : Traced nodes s) :
    Traced nodes (ofPattern p root s).2 :=
  rel_ofPattern (R := fun s t => Traced nodes s → Traced nodes t) (fun _ h => h)
    (fun _ _ _ hst htu h => htu (hst h)) h s hs

/-- A visit keeps to what has to be traced, also if it fails. -/
theorem traced_visit (hids : Expr.Unambiguous nodes) (e : Expr) (s : Lowering)
    (he : ∀ x ∈ lowering.postorder e, nodes x) (hs : Traced nodes s) :
    Traced nodes (visit e s).2 := by
  have hself : ∀ {e}, (∀ x ∈ lowering.postorder e, nodes x) → nodes e := fun he =>
    he _ (mem_postorder_self _ _)
  refine visit_induction (motive := fun e s out => out = visit e s →
    (∀ x ∈ lowering.postorder e, nodes x) → Traced nodes s → Traced nodes out.2)
    ?hit ?var ?constant ?function ?argument ?operator ?undeclared ?unmatched ?unbuilt ?fused e s rfl
    he hs
  case hit =>
      intro e s entries _ _ _ hs
      exact hs
  case var =>
      intro id name type s hid hout he hs
      obtain ⟨es, hemitted, hes, htraces⟩ := hs
      have hu := emitted_of_visit hids hemitted hes he hid hout.symm
      exact Traced.concat hids ⟨es, hemitted, hes, htraces⟩ hemitted hes (hself he) hu rfl
        (List.append_nil _).symm
  case constant =>
      intro id value s hid hout he hs
      obtain ⟨es, hemitted, hes, htraces⟩ := hs
      have hu := emitted_of_visit hids hemitted hes he hid hout.symm
      exact Traced.concat hids ⟨es, hemitted, hes, htraces⟩ hemitted hes (hself he) hu rfl
        (List.append_nil _).symm
  case function =>
      intro id params body attrs s _ _ _ hs
      exact hs
  case argument =>
      intro id op args attrs s err t _ ih hargs _ he hs
      have hall := traced_arguments (fun a ha s => ih a ha s rfl (forall_postorder_next he ha))
        (hs.noteOperator op)
      rwa [hargs] at hall
  case operator =>
      intro id op args attrs s inputs t hid ih hargs hout he hs
      have hall := traced_arguments (fun a ha s => ih a ha s rfl (forall_postorder_next he ha))
        (hs.noteOperator op)
      rw [hargs] at hall
      obtain ⟨es, hemitted, hes, -⟩ := hs
      have hnodes : ∀ a ∈ args, ∀ x ∈ lowering.postorder a, nodes x := fun a =>
        forall_postorder_next he
      have hwalked := walked_arguments hnodes (fun a ha u us hu hus =>
        visit_walked hids a u us hu hus (hnodes a ha)) (hemitted.noteOperator op) hes
      rw [hargs] at hwalked
      have hu := emitted_of_visit hids hemitted hes he hid hout.symm
      cases hwalked with
      | ok ht hinputs =>
          obtain ⟨rfl, -⟩ := hinputs
          exact hall.concat hids ht (forall_mem_list hes hnodes) (hself he) hu rfl
            (List.append_nil _).symm
  case undeclared =>
      intro id callee args attrs s err t _ _ hdeclared _ _ hs
      exact holds_of_declaredKind (P := Traced nodes) hdeclared hs fun _ => hs.note nofun
  case unmatched =>
      intro id callee args attrs s kind err _ _ _ _ _ hs
      exact hs.note nofun
  case unbuilt =>
      intro id callee args attrs s kind p err t _ hkind hp ih hnode _ he hs
      have hall := traced_ofPattern (fun o ho x hx s =>
        ih o ho x hx s rfl (forall_postorder_next he (Expr.mem_inputs id hkind hp ho hx))) hs
      rw [hnode] at hall
      exact hall.note nofun
  case fused =>
      intro id callee args attrs s kind p node t hid hkind hp ih hnode hout he hs
      have hall := traced_ofPattern (fun o ho x hx s =>
        ih o ho x hx s rfl (forall_postorder_next he (Expr.mem_inputs id hkind hp ho hx))) hs
      rw [hnode] at hall
      obtain ⟨es, hemitted, hes, -⟩ := hs
      have hnodes : ∀ o ∈ p.operands ⟨.expr callee, args, attrs⟩, ∀ x, o.expr? = some x →
          ∀ y ∈ lowering.postorder x, nodes y := fun o ho x hx =>
        forall_postorder_next he (Expr.mem_inputs id hkind hp ho hx)
      have hwalked := walked_ofPattern hnodes (fun o ho x hx u us hu hus =>
        visit_walked hids x u us hu hus (hnodes o ho x hx)) hemitted hes
      rw [hnode] at hwalked
      have hu := emitted_of_visit hids hemitted hes he hid hout.symm
      cases hwalked with
      | ok ht hbuilt =>
          obtain ⟨xs, copied, hxs, rfl, -, -⟩ := hbuilt
          have hinputs : (Expr.exprCall id callee args attrs).inputs = xs := by
            rw [p.operands_eq, (Pattern.ofCall_of_ofKind hp).2] at hxs
            exact Expr.inputs_eq_of_map hkind hp hxs
          rw [hinputs] at hu
          have hnext : ∀ x ∈ lowering.list es xs, nodes x := by
            rw [← hinputs]
            exact forall_mem_list hes fun x => forall_postorder_next he
          refine hall.concat hids ht hnext (hself he) hu rfl ?_
          rw [Expr.declared?, hkind]
          exact traces_append ..

/-- What a request does is traced, also if it fails. -/
theorem traced_answer (hids : Expr.Unambiguous nodes) {s : Lowering} (hs : Traced nodes s)
    (r : Request) (hr : ∀ x, Expr.Among r.exprs x → nodes x) : Traced nodes (r.answer s).2 := by
  cases r with
  | visit e =>
      exact traced_visit hids e s (fun x hx => hr x ⟨e, List.mem_cons_self,
        Expr.reaches_of_mem_lowering hx⟩) hs
  | visitFirst e =>
      show Traced nodes (visitFirst e s).2
      rw [visitFirst_snd]
      exact traced_visit hids e s (fun x hx => hr x ⟨e, List.mem_cons_self,
        Expr.reaches_of_mem_lowering hx⟩) hs
  | lower family root =>
      show Traced nodes (lower family root s).2
      unfold lower
      cases hp : Pattern.ofCall family root with
      | error err => exact hs
      | ok p =>
          exact traced_ofPattern (fun o ho x hx s => traced_visit hids x s fun y hy =>
            hr y ((Pattern.among_of_mem_operands hp ho hx).trans
              (Expr.reaches_of_mem_lowering hy))) hs

/-- The trace of every graph that a session leads to tells the nodes of its fused calls. -/
theorem traced_run (hids : Expr.Unambiguous nodes) (symbol : String) (requests : List Request)
    (hnodes : ∀ x, Expr.Among (Session.exprs requests) x → nodes x) :
    Traced nodes (Session.run symbol requests).lowering := by
  induction requests using List.reverseRecOn with
  | nil => exact .start symbol
  | append_singleton requests r ih =>
      rw [Session.exprs_append] at hnodes
      have hs := ih fun x hx => hnodes x (hx.mono (List.subset_append_left _ _))
      rw [Session.run_concat]
      exact traced_answer hids hs r fun x hx =>
        hnodes x (hx.mono (Session.exprs_singleton r ▸ List.subset_append_right _ _))

end Lowering

end KernelGraph
