import KernelGraph.Proofs.Flattening
import Mathlib.Data.Set.Function

/-!
Documents and expressions stand for each other. Reading a document back gives every node the place
of its record as identity, and is otherwise the expression that was written (`build_ofExpr`).
Documents do not depend on identities, as long as no two nodes share one (`ofExpr_rename`), so what
is read back is written as before.
-/

namespace KernelGraph

open Walk

namespace Expr

/-- The expression in which every node has another identity. -/
def rename (f : Nat → Nat) : Expr → Expr
  | var id name type => .var (f id) name type
  | constant id value => .constant (f id) value
  | opCall id op args attrs => .opCall (f id) op (args.map fun a => a.rename f) attrs
  | exprCall id callee args attrs =>
    .exprCall (f id) (callee.rename f) (args.map fun a => a.rename f) attrs
  | function id params body attrs =>
    .function (f id) (params.map fun x => x.rename f) (body.rename f) attrs

theorem id_rename (f : Nat → Nat) (e : Expr) : (e.rename f).id = f e.id := by
  cases e <;> simp only [rename, id]

theorem isVar_rename (f : Nat → Nat) (e : Expr) : (e.rename f).isVar = e.isVar := by
  cases e <;> simp only [rename, isVar]

theorem children_rename (f : Nat → Nat) (e : Expr) :
    (e.rename f).children = e.children.map fun a => a.rename f := by
  cases e <;> simp only [rename, children, List.map_nil, List.map_cons, List.map_append]

theorem map_id_rename (f : Nat → Nat) (es : List Expr) :
    (es.map fun a => a.rename f).map id = (es.map id).map f := by
  simp only [List.map_map, Function.comp_def, id_rename]

theorem postorder_rename (f : Nat → Nat) (e : Expr) :
    writing.postorder (e.rename f) = (writing.postorder e).map fun a => a.rename f := by
  have ih : ∀ a ∈ e.children, writing.postorder (a.rename f) =
      (writing.postorder a).map fun a => a.rename f := fun a ha =>
    have : a.size < e.size := size_lt_of_mem_children ha
    postorder_rename f a
  calc writing.postorder (e.rename f)
      = (e.children.map fun a => a.rename f).flatMap writing.postorder ++ [e.rename f] := by
        rw [postorder_eq]
        show (e.rename f).children.flatMap _ ++ _ = _
        rw [children_rename]
    _ = (e.children.flatMap fun a => (writing.postorder a).map fun a => a.rename f) ++
          [e.rename f] := by
        rw [List.flatMap_map, List.flatMap_congr ih]
    _ = (writing.postorder e).map fun a => a.rename f := by
        rw [postorder_eq, List.map_append, List.map_flatMap]
        rfl
termination_by e.size

/-- The nodes of a renamed expression are those of the expression, renamed. -/
theorem reaches_rename_iff {f : Nat → Nat} {e y : Expr} :
    (e.rename f).Reaches y ↔ ∃ x, e.Reaches x ∧ x.rename f = y := by
  rw [← mem_writing_iff, postorder_rename, List.mem_map]
  simp only [mem_writing_iff]

/-- The identities of the nodes of an expression. -/
def ids (e : Expr) : Set Nat := {i | ∃ x, e.Reaches x ∧ x.id = i}

/-! ### Identities that stay apart -/

section Apart

variable {nodes : Expr → Prop} {f : Nat → Nat}
  (hinj : ∀ x y, nodes x → nodes y → f x.id = f y.id → x.id = y.id)

include hinj in
theorem mem_map_id_rename {es : List Expr} (hes : ∀ y ∈ es, nodes y) {x : Expr} (hx : nodes x) :
    (x.rename f).id ∈ (es.map fun a => a.rename f).map id ↔ x.id ∈ es.map id := by
  rw [map_id_rename, id_rename]
  constructor
  · intro h
    obtain ⟨i, hi, heq⟩ := List.mem_map.1 h
    obtain ⟨y, hy, rfl⟩ := List.mem_map.1 hi
    exact hinj y x (hes y hy) hx heq ▸ List.mem_map_of_mem hy
  · exact List.mem_map_of_mem

include hinj in
/-- Places do not depend on identities. -/
theorem placeIn_rename {es : List Expr} (hes : ∀ y ∈ es, nodes y) {x : Expr} (hx : nodes x) :
    (x.rename f).placeIn (es.map fun a => a.rename f) = x.placeIn es := by
  rw [placeIn, placeIn, map_id_rename, id_rename]
  induction es with
  | nil => rfl
  | cons y es ih =>
      obtain ⟨hy, hes⟩ := List.forall_mem_cons.1 hes
      have hsame : f y.id = f x.id ↔ y.id = x.id := ⟨hinj y x hy hx, congrArg f⟩
      simp only [List.map_cons, List.idxOf_cons, beq_eq_decide, hsame, ih hes]

include hinj in
theorem record_rename {es : List Expr} (hes : ∀ y ∈ es, nodes y) {x : Expr}
    (hx : ∀ a ∈ x.children, nodes a) :
    (x.rename f).record (es.map fun a => a.rename f) = x.record es := by
  have hplaces : ∀ as ⊆ x.children, (as.map fun a => a.rename f).map
      (·.placeIn (es.map fun a => a.rename f)) = as.map (·.placeIn es) := fun as has => by
    rw [List.map_map]
    exact List.map_congr_left fun a ha => placeIn_rename hinj hes (hx a (has ha))
  cases x with
  | var | constant => simp only [rename, record]
  | opCall id op args attrs =>
      rw [rename, record, record, hplaces args (List.Subset.refl _)]
  | exprCall id callee args attrs =>
      rw [rename, record, record, hplaces args (List.subset_cons_self _ _),
        placeIn_rename hinj hes (hx callee List.mem_cons_self)]
  | function id params body attrs =>
      rw [rename, record, record, hplaces params (List.subset_append_left _ _),
        placeIn_rename hinj hes (hx body (List.mem_append_right _ List.mem_cons_self))]

include hinj in
theorem enlist_rename {listed es : List Expr} (hlisted : ∀ y ∈ listed, nodes y)
    (hes : ∀ y ∈ es, nodes y) :
    enlist (listed.map fun a => a.rename f) (es.map fun a => a.rename f) =
      (enlist listed es).map fun a => a.rename f := by
  induction es generalizing listed with
  | nil => rfl
  | cons y es ih =>
      obtain ⟨hy, hes⟩ := List.forall_mem_cons.1 hes
      rw [List.map_cons, enlist_cons, enlist_cons listed, enlist_singleton, enlist_singleton]
      by_cases hmem : y.id ∈ listed.map id
      · rw [if_pos hmem, if_pos ((mem_map_id_rename hinj hlisted hy).2 hmem), ih hlisted hes]
      · have hnext : ∀ z ∈ listed ++ [y], nodes z :=
          List.forall_mem_append.2 ⟨hlisted, List.forall_mem_singleton.2 hy⟩
        rw [if_neg hmem, if_neg (mt (mem_map_id_rename hinj hlisted hy).1 hmem), ← ih hnext hes,
          List.map_append, List.map_singleton]

end Apart

end Expr

section Renaming

variable {e : Expr} {f : Nat → Nat} (hids : Expr.Unambiguous e.Reaches) (hf : Set.InjOn f e.ids)

include hf in
theorem Expr.id_eq_of_rename (x y : Expr) (hx : e.Reaches x) (hy : e.Reaches y)
    (h : f x.id = f y.id) : x.id = y.id :=
  hf ⟨x, hx, rfl⟩ ⟨y, hy, rfl⟩ h

include hids hf in
/-- Renaming does not make identities ambiguous. -/
theorem Expr.unambiguous_rename : Expr.Unambiguous (e.rename f).Reaches := by
  intro x y hx hy hid
  obtain ⟨a, ha, rfl⟩ := reaches_rename_iff.1 hx
  obtain ⟨b, hb, rfl⟩ := reaches_rename_iff.1 hy
  rw [id_rename, id_rename] at hid
  rw [hids a b ha hb (id_eq_of_rename hf a b ha hb hid)]

include hf in
theorem Expr.order_rename : (e.rename f).order = e.order.map fun a => a.rename f := by
  have hnodes : ∀ x ∈ writing.postorder e, e.Reaches x := fun x hx => mem_writing_iff.1 hx
  have hnil : ∀ x ∈ ([] : List Expr), e.Reaches x := fun _ h => by cases h
  rw [order, order, postorder_rename, ← enlist_nil_left, ← enlist_nil_left]
  exact enlist_rename (id_eq_of_rename hf) hnil hnodes

include hids hf in
/-- Documents do not depend on identities. -/
theorem Document.ofExpr_rename : ofExpr (e.rename f) = ofExpr e := by
  have horder : ∀ x ∈ e.order, e.Reaches x := fun x hx => (Expr.mem_order_iff hids).1 hx
  have hrecords : ∀ x ∈ e.order,
      (x.rename f).record (e.order.map fun a => a.rename f) = x.record e.order := fun x hx =>
    Expr.record_rename (Expr.id_eq_of_rename hf) horder fun a ha =>
      (horder x hx).trans (.step ha (.refl a))
  rw [ofExpr_eq (Expr.unambiguous_rename hids hf), ofExpr_eq hids, Expr.order_rename hf,
    Expr.placeIn_rename (Expr.id_eq_of_rename hf) horder (.refl e), List.map_map,
    ← List.map_congr_left hrecords]
  rfl

end Renaming

/-! ### Reading back -/

/-- The place of an identity in a list of nodes. -/
def Expr.placeOf (es : List Expr) (id : Nat) : Nat := (es.map Expr.id).idxOf id

/-- What is asked of a node that is read: a constant has the elements that its shape asks for, and
the parameters of a function are variables. -/
def Expr.Readable : Expr → Prop
  | .constant _ value => ∃ t, Tensor.make value.shape value.elements = .ok t
  | .function _ params _ _ => ∀ x ∈ params, x.isVar
  | _ => True

theorem Tensor.eq_of_make {shape : Shape} {elements : Elements} {t : Tensor}
    (h : make shape elements = .ok t) : t = ⟨shape, elements⟩ := by
  unfold make at h
  split at h
  · cases h
  · split at h
    · cases h
      rfl
    · cases h

theorem mapM_eq_ok {ε α β : Type} {f : α → Except ε β} {g : α → β} {as : List α}
    (h : ∀ a ∈ as, f a = .ok (g a)) : as.mapM f = .ok (as.map g) := by
  induction as with
  | nil => rfl
  | cons a as ih =>
      obtain ⟨ha, has⟩ := List.forall_mem_cons.1 h
      rw [List.mapM_cons, ha, ih has]
      rfl

namespace Record

theorem checkParams_eq_ok {place : Nat} {ps : List Expr} (h : ∀ p ∈ ps, p.isVar) :
    checkParams place ps = .ok () := by
  induction ps with
  | nil => rfl
  | cons p ps ih =>
      obtain ⟨hp, hps⟩ := List.forall_mem_cons.1 h
      rw [checkParams, if_pos hp, ih hps]

section

variable {es ds : List Expr} (hpre : es <+: ds) (hids : (es.map Expr.id).Nodup)

include hpre hids

theorem resolve_eq_ok {a : Expr} (ha : a ∈ es) :
    resolve (es.map fun x => x.rename (Expr.placeOf ds)) (a.placeIn ds) =
      .ok (a.rename (Expr.placeOf ds)) := by
  have hplace : es[a.placeIn es]? = some a := Expr.getElem?_placeIn hids ha
  rw [resolve, Expr.placeIn_of_isPrefix hpre (List.mem_map_of_mem ha), List.getElem?_map, hplace]
  rfl

theorem mapM_resolve_eq_ok {as : List Expr} (has : as ⊆ es) :
    (as.map (·.placeIn ds)).mapM (resolve (es.map fun x => x.rename (Expr.placeOf ds))) =
      .ok (as.map fun x => x.rename (Expr.placeOf ds)) := by
  rw [List.mapM_map]
  exact mapM_eq_ok fun a ha => resolve_eq_ok hpre hids (has ha)

/-- The record of a node that comes next is read as the node, with the next place as identity. -/
theorem build_record {x : Expr} (hx : x.placeIn ds = es.length) (hchildren : x.children ⊆ es)
    (hreadable : x.Readable) :
    (x.record ds).build (es.map fun x => x.rename (Expr.placeOf ds)) =
      .ok (x.rename (Expr.placeOf ds)) := by
  have hplace : (es.map fun x => x.rename (Expr.placeOf ds)).length = Expr.placeOf ds x.id := by
    rw [List.length_map, ← hx]
    rfl
  cases x with
  | var id name type =>
      rw [Expr.record, build, hplace, Expr.rename]
      rfl
  | constant id value =>
      obtain ⟨t, ht⟩ := hreadable
      obtain rfl := Tensor.eq_of_make ht
      simp only [Expr.record, build, hplace, Expr.rename, ht]
      rfl
  | opCall id op args attrs =>
      have hsubset : args ⊆ es := hchildren
      have hargs := mapM_resolve_eq_ok hpre hids hsubset
      rw [Expr.record, build, hargs, hplace, Expr.rename]
      rfl
  | exprCall id callee args attrs =>
      obtain ⟨hmem, hsubset⟩ := List.cons_subset.1 hchildren
      have hcallee := resolve_eq_ok hpre hids hmem
      have hargs := mapM_resolve_eq_ok hpre hids hsubset
      rw [Expr.record, build, hcallee, hargs, hplace, Expr.rename]
      rfl
  | function id params body attrs =>
      obtain ⟨hsubset, hmem⟩ := List.append_subset.1 hchildren
      have hparams := mapM_resolve_eq_ok hpre hids hsubset
      have hbody := resolve_eq_ok hpre hids (hmem List.mem_cons_self)
      have hvars : ∀ p ∈ params.map fun x => x.rename (Expr.placeOf ds), p.isVar :=
        List.forall_mem_map.2 fun x hx => (Expr.isVar_rename _ x).trans (hreadable x hx)
      rw [Expr.record, build, hparams, hbody, hplace, Expr.rename]
      show (checkParams _ _ >>= _) = _
      rw [checkParams_eq_ok hvars]
      rfl

end

end Record

namespace Document

theorem buildAll_append (built : List Expr) (rs rs' : List Record) :
    buildAll built (rs ++ rs') = (do buildAll (← buildAll built rs) rs') := by
  induction rs generalizing built with
  | nil => rfl
  | cons r rs ih =>
      rw [List.cons_append, buildAll, buildAll]
      cases r.build built with
      | error err => rfl
      | ok e => exact ih (built ++ [e])

/-- The records of nodes are read as the nodes, with their places as identities. -/
theorem buildAll_records {es ds : List Expr} (h : writing.Ordered es) (hpre : es <+: ds)
    (hreadable : ∀ x ∈ es, x.Readable) :
    buildAll [] (es.map (·.record ds)) = .ok (es.map fun x => x.rename (Expr.placeOf ds)) := by
  induction h with
  | nil => rfl
  | @concat es x hes hx hchildren ih =>
      have hinit : es <+: ds := (List.prefix_append es [x]).trans hpre
      have hplace : x.placeIn ds = es.length := by
        rw [Expr.placeIn_of_isPrefix hpre (by simp), Expr.placeIn_concat hx]
      have hbuilt := ih hinit fun y hy => hreadable y (List.mem_append_left _ hy)
      have hlast := Record.build_record hinit hes.nodup hplace hchildren
        (hreadable x (List.mem_append_right _ List.mem_cons_self))
      rw [List.map_append, buildAll_append, hbuilt, List.map_append]
      show (Record.build _ _ >>= _) = _
      rw [hlast]
      rfl

theorem build_eq_ok {d : Document} {built : List Expr} {e : Expr}
    (hall : buildAll [] d.records = .ok built) (hroot : built[d.root]? = some e) :
    d.build = .ok e := by
  rw [build, hall]
  simp only [bind, Except.bind, hroot]

/-- A document that was written is read as the expression, with places as identities. -/
theorem build_ofExpr {e : Expr} (hids : Expr.Unambiguous e.Reaches)
    (hreadable : ∀ x, e.Reaches x → x.Readable) :
    (ofExpr e).build = .ok (e.rename (Expr.placeOf e.order)) := by
  have hordered := Expr.ordered_order hids
  have hall := buildAll_records hordered (List.prefix_refl _) fun x hx =>
    hreadable x ((Expr.mem_order_iff hids).1 hx)
  have hroot : e.order[e.placeIn e.order]? = some e :=
    Expr.getElem?_placeIn hordered.nodup ((Expr.mem_order_iff hids).2 (.refl e))
  rw [ofExpr_eq hids]
  refine build_eq_ok hall ?_
  rw [List.getElem?_map, hroot]
  rfl

end Document

theorem Expr.injOn_placeOf {e : Expr} (hids : Expr.Unambiguous e.Reaches) :
    Set.InjOn (placeOf e.order) e.ids := by
  rintro i ⟨x, hx, rfl⟩ j ⟨y, hy, rfl⟩ h
  have hmem : x.id ∈ e.order.map id := List.mem_map_of_mem ((mem_order_iff hids).2 hx)
  exact (List.idxOf_inj hmem).1 h

/-- An injective renaming takes the identities of an expression to those of the renamed one. -/
theorem Expr.bijOn_ids {e : Expr} {f : Nat → Nat} (hf : Set.InjOn f e.ids) :
    Set.BijOn f e.ids (e.rename f).ids := by
  refine ⟨?_, hf, ?_⟩
  · rintro i ⟨x, hx, rfl⟩
    exact ⟨x.rename f, reaches_rename_iff.2 ⟨x, hx, rfl⟩, id_rename f x⟩
  · rintro i ⟨y, hy, rfl⟩
    obtain ⟨x, hx, rfl⟩ := reaches_rename_iff.1 hy
    exact ⟨x.id, ⟨x, hx, rfl⟩, (id_rename f x).symm⟩

/-- A document has one record for each node of the expression, after those that it refers to and
with the expression itself last. If the nodes can be read, they are read as they were written:
names, types, values, attributes and the order of arguments and parameters are kept, and so is what
is shared, since the identities that the nodes get correspond to those they had. Written again, the
document is the same. -/
theorem Document.ofExpr_roundtrip {e : Expr} (hids : Expr.Unambiguous e.Reaches) :
    (∃ order : List Expr, (order.map Expr.id).Nodup ∧ (∀ x, x ∈ order ↔ e.Reaches x) ∧
      (ofExpr e).records = order.map (·.record order)) ∧
    (∀ (i : Nat) (r : Record), (ofExpr e).records[i]? = some r → ∀ j ∈ r.references, j < i) ∧
    (ofExpr e).root + 1 = (ofExpr e).records.length ∧
    ((∀ x, e.Reaches x → x.Readable) → ∃ f e', (ofExpr e).build = .ok e' ∧ e' = e.rename f ∧
      Set.BijOn f e.ids e'.ids ∧ Expr.Unambiguous e'.Reaches ∧ ofExpr e' = ofExpr e) := by
  have hordered := Expr.ordered_order hids
  rw [ofExpr_eq hids]
  refine ⟨⟨e.order, hordered.nodup, fun x => Expr.mem_order_iff hids, rfl⟩, ?_, ?_, ?_⟩
  · intro i r hr j hj
    rw [List.getElem?_map] at hr
    obtain ⟨x, hx, rfl⟩ := Option.map_eq_some_iff.1 hr
    rw [Expr.references_record] at hj
    obtain ⟨a, ha, rfl⟩ := List.mem_map.1 hj
    rw [← Expr.placeIn_of_getElem? hordered.nodup hx]
    exact hordered.placeIn_lt x (List.mem_of_getElem? hx) a ha
  · obtain ⟨before, hbefore, hnew⟩ := Expr.exists_order_eq hids
    rw [hbefore]
    simp [Expr.placeIn_concat hnew]
  · intro hreadable
    have hinj := Expr.injOn_placeOf hids
    have hbuild := build_ofExpr hids hreadable
    have hrename := ofExpr_rename hids hinj
    rw [ofExpr_eq hids] at hbuild hrename
    exact ⟨Expr.placeOf e.order, _, hbuild, rfl, Expr.bijOn_ids hinj,
      Expr.unambiguous_rename hids hinj, hrename⟩

/-! Two calls of one function, the second over the first. -/

namespace Doubling

def one : Expr := .constant 4 (.ofInt32 1)

def param : Expr := .var 7 "x" none

def sum : Expr := .opCall 2 "add" [param, param] .empty

def double : Expr := .function 9 [param] sum .empty

def inner : Expr := .exprCall 3 double [one] .empty

def outer : Expr := .exprCall 5 double [inner] .empty

def nodes : List Expr := [one, param, sum, double, inner, outer]

theorem mem_nodes : ∀ x, outer.Reaches x → x ∈ nodes := by
  intro x hx
  refine Expr.mem_of_reaches ?_ (by simp [nodes]) hx
  simp [nodes, Expr.children, one, param, sum, double, inner, outer]

theorem unambiguous : Expr.Unambiguous outer.Reaches := fun x y hx hy hid =>
  have hnodup : (nodes.map Expr.id).Nodup := by decide
  List.inj_on_of_nodup_map hnodup (mem_nodes x hx) (mem_nodes y hy) hid

theorem readable : ∀ x, outer.Reaches x → x.Readable := by
  have hnodes : ∀ x ∈ nodes, x.Readable := by
    simp [nodes, one, param, sum, double, inner, outer, Expr.Readable, Expr.isVar, Tensor.make,
      Tensor.ofInt32, Shape.count?, Elements.length]
  exact fun x hx => hnodes x (mem_nodes x hx)

/-- Each node has one record, however often it is referred to. -/
theorem roundtrip_outer : Expr.Unambiguous outer.Reaches ∧ (∀ x, outer.Reaches x → x.Readable) ∧
    (Document.ofExpr outer).root = 5 ∧ (Document.ofExpr outer).records.length = 6 ∧
    ∃ e', (Document.ofExpr outer).build = .ok e' ∧
      Document.ofExpr e' = Document.ofExpr outer := by
  have hroundtrip := Document.ofExpr_roundtrip unambiguous
  obtain ⟨f, e', hbuild, -, -, -, hagain⟩ := hroundtrip.2.2.2 readable
  exact ⟨unambiguous, readable, by decide, by decide, e', hbuild, hagain⟩

end Doubling

end KernelGraph
