import KernelGraph.Document.Basic
import KernelGraph.Proofs.Walk

/-!
Which records a document has, and in which order. Writing walks from a node to all nodes that it
refers to, and the records are those of the nodes that the walk is finished with, each once and in
that order (`Written`). The place that a node is known by is the place of its record.
-/

namespace KernelGraph

open Walk

/-- The walk of writing, from a node to all nodes that it refers to. -/
def Walk.writing : Walk := ⟨Expr.children, Expr.size_lt_of_mem_children⟩

theorem Walk.mem_writing_iff {e x : Expr} : x ∈ writing.postorder e ↔ e.Reaches x := by
  constructor
  · intro h
    rcases mem_postorder_iff.1 h with rfl | ⟨a, ha, hx⟩
    · exact .refl x
    · have hlt : a.size < e.size := Expr.size_lt_of_mem_children ha
      exact .step ha (mem_writing_iff.1 hx)
  · intro h
    induction h with
    | refl e => exact mem_postorder_self _ e
    | step ha _ ih => exact mem_postorder_iff.2 (.inr ⟨_, ha, ih⟩)
termination_by e.size

/-- The record of a node in a document whose records are those of `es`. -/
def Expr.record (es : List Expr) : Expr → Record
  | .var _ name type => .var name type
  | .constant _ value => .constant value
  | .opCall _ op args attrs => .call (some op) none (args.map (·.placeIn es)) attrs
  | .exprCall _ callee args attrs =>
    .call none (some (callee.placeIn es)) (args.map (·.placeIn es)) attrs
  | .function _ params body attrs =>
    .function (params.map (·.placeIn es)) (body.placeIn es) attrs

/-- The places that a record refers to. -/
def Record.references : Record → List Nat
  | .var .. | .constant .. => []
  | .call _ callee args _ => callee.toList ++ args
  | .function params body _ => params ++ [body]

namespace Expr

theorem references_record (es : List Expr) (e : Expr) :
    (e.record es).references = e.children.map (·.placeIn es) := by
  cases e <;> simp [record, Record.references, children]

theorem map_placeIn_of_isPrefix {xs es ds : List Expr} (h : es <+: ds)
    (hxs : ∀ x ∈ xs, x.id ∈ es.map id) : xs.map (·.placeIn ds) = xs.map (·.placeIn es) :=
  List.map_congr_left fun x hx => placeIn_of_isPrefix h (hxs x hx)

/-- The record of a node stays as it is when others are added. -/
theorem record_of_isPrefix {es ds : List Expr} (h : es <+: ds) {e : Expr}
    (hchildren : ∀ x ∈ e.children, x.id ∈ es.map id) : e.record ds = e.record es := by
  cases e with
  | var | constant => rfl
  | opCall id op args attrs =>
      have hargs : args.map (·.placeIn ds) = args.map (·.placeIn es) :=
        map_placeIn_of_isPrefix h hchildren
      rw [record, record, hargs]
  | exprCall id callee args attrs =>
      have hcallee := placeIn_of_isPrefix h (hchildren callee List.mem_cons_self)
      have hargs := map_placeIn_of_isPrefix h fun x hx =>
        hchildren x (List.mem_cons_of_mem callee hx)
      rw [record, record, hcallee, hargs]
  | function id params body attrs =>
      have hparams := map_placeIn_of_isPrefix h fun x hx =>
        hchildren x (List.mem_append_left [body] hx)
      have hbody := placeIn_of_isPrefix h
        (hchildren body (List.mem_append_right params List.mem_cons_self))
      rw [record, record, hparams, hbody]

end Expr

namespace Document

/-- What is written are the records of `es`, and each is known by its place. -/
structure Written (w : Writing) (es : List Expr) : Prop where
  ordered : writing.Ordered es
  records : w.records = es.map (·.record es)
  table : Expr.Tabled (fun place => place) (fun id => w.places.lookup id) es

namespace Written

theorem start : Written ⟨[], []⟩ [] :=
  ⟨.nil, rfl, ⟨fun _ h => (by cases h), fun _ _ => rfl⟩⟩

/-- The record of a node that is new comes last. -/
theorem push {w : Writing} {es : List Expr} (h : Written w es) {x : Expr}
    (hx : x.id ∉ es.map Expr.id) (hchildren : x.children ⊆ es) :
    Written (w.push x.id (x.record es)).2 (es ++ [x]) ∧
      (w.push x.id (x.record es)).1 = x.placeIn (es ++ [x]) := by
  have hprefix : es <+: es ++ [x] := List.prefix_append es [x]
  have hlength : w.records.length = es.length := by rw [h.records, List.length_map]
  have hplace : w.records.length = x.placeIn (es ++ [x]) := by
    rw [hlength, Expr.placeIn_concat hx]
  have htable : ∀ id, (w.push x.id (x.record es)).2.places.lookup id =
      if id = x.id then some es.length else w.places.lookup id := by
    intro id
    rw [← hlength]
    exact lookup_cons_ite id x.id _ w.places
  refine ⟨⟨h.ordered.concat hx hchildren, ?_, h.table.concat hx htable⟩, hplace⟩
  have hold : ∀ y ∈ es ++ [x], y.record (es ++ [x]) = y.record es := fun y hy =>
    Expr.record_of_isPrefix hprefix fun a ha => List.mem_map_of_mem <| by
      rcases List.mem_append.1 hy with hy | hy
      · exact h.ordered.next_subset y hy ha
      · exact hchildren (List.mem_singleton.1 hy ▸ ha)
  rw [List.map_congr_left hold, List.map_append, ← h.records]
  rfl

end Written

/-! ### What writing does with a node of each kind -/

theorem write_of_lookup {w : Writing} {e : Expr} {place : Nat}
    (h : w.places.lookup e.id = some place) : write w e = (place, w) := by
  rw [write.eq_def, h]

theorem write_var {w : Writing} {id : Nat} {name : String} {type : Option TensorType}
    (h : w.places.lookup id = none) :
    write w (.var id name type) = w.push id (.var name type) := by
  rw [write, Expr.id, h]

theorem write_constant {w : Writing} {id : Nat} {value : Tensor}
    (h : w.places.lookup id = none) :
    write w (.constant id value) = w.push id (.constant value) := by
  rw [write, Expr.id, h]

theorem write_opCall {w : Writing} {id : Nat} {op : String} {args : List Expr} {attrs : Attributes}
    (h : w.places.lookup id = none) :
    write w (.opCall id op args attrs) =
      (writeAll w args).2.push id (.call (some op) none (writeAll w args).1 attrs) := by
  rw [write, Expr.id, h]

theorem write_exprCall {w : Writing} {id : Nat} {callee : Expr} {args : List Expr}
    {attrs : Attributes} (h : w.places.lookup id = none) :
    write w (.exprCall id callee args attrs) = (writeAll (write w callee).2 args).2.push id
      (.call none (some (write w callee).1) (writeAll (write w callee).2 args).1 attrs) := by
  rw [write, Expr.id, h]

theorem write_function {w : Writing} {id : Nat} {params : List Expr} {body : Expr}
    {attrs : Attributes} (h : w.places.lookup id = none) :
    write w (.function id params body attrs) = (write (writeAll w params).2 body).2.push id
      (.function (writeAll w params).1 (write (writeAll w params).2 body).1 attrs) := by
  rw [write, Expr.id, h]

theorem writeAll_cons (w : Writing) (e : Expr) (es : List Expr) :
    writeAll w (e :: es) = ((write w e).1 :: (writeAll (write w e).2 es).1,
      (writeAll (write w e).2 es).2) := rfl

theorem writeAll_append (w : Writing) (es ds : List Expr) :
    writeAll w (es ++ ds) = ((writeAll w es).1 ++ (writeAll (writeAll w es).2 ds).1,
      (writeAll (writeAll w es).2 ds).2) := by
  induction es generalizing w with
  | nil => rfl
  | cons e es ih =>
      rw [List.cons_append, writeAll_cons, writeAll_cons, ih, List.cons_append]

/-! ### Writing walks -/

variable {nodes : Expr → Prop}

/-- What is expected of writing a node: the nodes of the walk are written, and the place is that of
the node. -/
def Writes (es : List Expr) (e : Expr) (out : Nat × Writing) : Prop :=
  Written out.2 (writing.list es [e]) ∧ out.1 = e.placeIn (writing.list es [e])

/-- Nodes are walked from in order. -/
theorem writeAll_writes {ds : List Expr} (hds : ∀ d ∈ ds, ∀ x ∈ writing.postorder d, nodes x)
    (h : ∀ d ∈ ds, ∀ w es, Written w es → (∀ x ∈ es, nodes x) → Writes es d (write w d))
    {w : Writing} {es : List Expr} (hw : Written w es) (hes : ∀ x ∈ es, nodes x) :
    Written (writeAll w ds).2 (writing.list es ds) ∧
      (writeAll w ds).1 = ds.map (·.placeIn (writing.list es ds)) := by
  induction ds generalizing w es with
  | nil => exact ⟨hw, rfl⟩
  | cons d ds ih =>
      obtain ⟨hd, hds⟩ := List.forall_mem_cons.1 hds
      obtain ⟨hwritten, hplace⟩ := h d List.mem_cons_self w es hw hes
      have hnodes : ∀ x ∈ writing.list es [d], nodes x :=
        forall_mem_list hes (List.forall_mem_singleton.2 hd)
      obtain ⟨hrest, hplaces⟩ :=
        ih hds (fun y hy => h y (List.mem_cons_of_mem d hy)) hwritten hnodes
      rw [list_cons, writeAll_cons]
      refine ⟨hrest, ?_⟩
      rw [hplaces, hplace, List.map_cons,
        Expr.placeIn_of_isPrefix (prefix_list _ ds) (id_mem_list List.mem_cons_self)]

section

variable (hids : Expr.Unambiguous nodes) {es : List Expr} (hes : ∀ x ∈ es, nodes x) {e : Expr}
  (he : ∀ x ∈ writing.postorder e, nodes x)

include hids hes he in
/-- The record of a node comes after those of its children. -/
theorem writes_push (hnew : e.id ∉ es.map Expr.id) {w : Writing}
    (hw : Written w (writing.list es e.children)) :
    Writes es e (w.push e.id (e.record (writing.list es e.children))) := by
  have hlist : writing.list es [e] = writing.list es e.children ++ [e] :=
    list_of_not_mem hids he hnew
  have hchildren : ∀ d ∈ e.children, ∀ x ∈ writing.postorder d, nodes x := fun d =>
    forall_postorder_next he
  have hmem : e.children ⊆ writing.list es e.children := fun d hd =>
    (mem_list_iff hids hes hchildren).2 (.inr ⟨d, hd, mem_postorder_self _ d⟩)
  rw [Writes, hlist]
  exact hw.push (not_mem_list_next hids he hnew) hmem

end

/-- Writing a node adds the records of its walk that are not there yet. -/
theorem write_writes (hids : Expr.Unambiguous nodes) {e : Expr} {w : Writing} {es : List Expr}
    (hw : Written w es) (hes : ∀ x ∈ es, nodes x) (he : ∀ x ∈ writing.postorder e, nodes x) :
    Writes es e (write w e) := by
  cases hlookup : w.places.lookup e.id with
  | some place =>
      have hid := hw.table.mem_of_lookup hlookup
      have hlist : writing.list es [e] = es := list_of_mem hids hw.ordered hes he hid
      have hknown := hw.table.known e (mem_of_id_mem hids hes (he e (mem_postorder_self _ e)) hid)
      rw [write_of_lookup hlookup, Writes, hlist]
      exact ⟨hw, Option.some.inj (hlookup.symm.trans hknown)⟩
  | none =>
      have hnew := hw.table.not_mem_of_lookup hlookup
      have hchild : ∀ d ∈ e.children, ∀ x ∈ writing.postorder d, nodes x := fun d =>
        forall_postorder_next he
      have ih : ∀ d ∈ e.children, ∀ w es, Written w es → (∀ x ∈ es, nodes x) →
          Writes es d (write w d) := fun d hd w es hw hes =>
        have : d.size < e.size := Expr.size_lt_of_mem_children hd
        write_writes hids hw hes (hchild d hd)
      obtain ⟨hwritten, hplaces⟩ := writeAll_writes hchild ih hw hes
      have hpush := writes_push hids hes he hnew hwritten
      cases e with
      | var id name type =>
          change w.places.lookup id = none at hlookup
          rw [write_var hlookup]
          exact hpush
      | constant id value =>
          change w.places.lookup id = none at hlookup
          rw [write_constant hlookup]
          exact hpush
      | opCall id op args attrs =>
          change w.places.lookup id = none at hlookup
          change (writeAll w args).1 = args.map _ at hplaces
          rw [write_opCall hlookup, hplaces]
          exact hpush
      | exprCall id callee args attrs =>
          change w.places.lookup id = none at hlookup
          obtain ⟨hcallee, hargs⟩ := List.cons.inj hplaces
          rw [write_exprCall hlookup, hcallee, hargs]
          exact hpush
      | function id params body attrs =>
          change w.places.lookup id = none at hlookup
          change (writeAll w (params ++ [body])).1 = (params ++ [body]).map _ at hplaces
          change Writes es _ ((writeAll w (params ++ [body])).2.push id _) at hpush
          rw [writeAll_append] at hplaces hpush
          rw [List.map_append] at hplaces
          obtain ⟨hparams, hbody⟩ := List.append_inj' hplaces rfl
          rw [write_function hlookup, hparams, (List.cons.inj hbody).1]
          exact hpush
termination_by e.size

end Document

/-- The nodes of an expression, each once and after all that it refers to. -/
def Expr.order (e : Expr) : List Expr := Expr.distinct (writing.postorder e)

section Order

variable {e : Expr} (hids : Expr.Unambiguous e.Reaches)

theorem Expr.list_eq_order (e : Expr) : writing.list [] [e] = e.order := by
  rw [list, List.flatMap_singleton, enlist_nil_left, order]

include hids in
theorem Expr.mem_order_iff {x : Expr} : x ∈ e.order ↔ e.Reaches x := by
  rw [order, mem_distinct_iff hids fun y hy => mem_writing_iff.1 hy, mem_writing_iff]

include hids in
theorem Document.written_ofExpr : Written (write ⟨[], []⟩ e).2 e.order ∧
    (write ⟨[], []⟩ e).1 = e.placeIn e.order := by
  have hwrites := write_writes hids .start (fun _ hx => by cases hx) fun x hx =>
    mem_writing_iff.1 hx
  rwa [Writes, e.list_eq_order] at hwrites

include hids in
/-- The document of an expression has the records of its nodes. -/
theorem Document.ofExpr_eq :
    ofExpr e = ⟨e.order.map (·.record e.order), e.placeIn e.order⟩ := by
  obtain ⟨hwritten, hplace⟩ := written_ofExpr hids
  show Document.mk (write ⟨[], []⟩ e).2.records (write ⟨[], []⟩ e).1 = _
  rw [hwritten.records, hplace]

include hids in
theorem Expr.ordered_order : writing.Ordered e.order := (Document.written_ofExpr hids).1.ordered

include hids in
/-- An expression comes after all its other nodes. -/
theorem Expr.exists_order_eq : ∃ before, e.order = before ++ [e] ∧ e.id ∉ before.map Expr.id := by
  have hnodes : ∀ x ∈ writing.postorder e, e.Reaches x := fun x hx => mem_writing_iff.1 hx
  have hnew : e.id ∉ ([] : List Expr).map Expr.id := List.not_mem_nil
  refine ⟨writing.list [] e.children, ?_, not_mem_list_next hids hnodes hnew⟩
  rw [← e.list_eq_order, list_of_not_mem hids hnodes hnew]
  rfl

end Order

end KernelGraph
