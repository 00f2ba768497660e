import KernelGraph.Graph.Json
import KernelGraph.Proofs.Emission
import KernelGraph.Proofs.Session

/-!
The constants of a graph. A constant that is lowered gets one node and one value, both under the
name that counts the constants before it (`Lowering.Registers`). As no two of these names are the
same, it makes no difference whether a constant is looked up in the list or in the record of all
values (`Graph.Tabulates`). Both hold of the graph of a function, whose constants are those of its
order, and of every graph that a session leads to, whether its requests succeed or fail; there the
constants are those of the nodes that are known, among which is all that a request that succeeded has
visited (`Session.Visits`).
-/

namespace KernelGraph

open Lowering Walk

/-- The identity and the value of a constant. -/
def Expr.constant? : Expr → Option (Nat × Tensor)
  | .constant id value => some (id, value)
  | _ => none

theorem Expr.constant?_eq_some_iff {x : Expr} {id : Nat} {value : Tensor} :
    x.constant? = some (id, value) ↔ x = .constant id value := by
  cases x <;> simp [constant?]

theorem Expr.value?_eq_map (x : Expr) : x.value? = x.constant?.map (·.2) := by
  cases x <;> rfl

namespace Graph

def constants (g : Graph) : List Node := g.nodes.filter (·.op = .const)

/-- The constants of a graph have the values `values`. There is a node and an entry of the table of
constants for each, in one order and under one name, and what the table gives for a name is also
what stands under the name in the record of all values. -/
structure Tabulates (g : Graph) (values : List Tensor) : Prop where
  nodes : g.constants = values.mapIdx fun k value => .constant (constantName g.symbol k) value
  dtypes : g.constants.map (·.attrs.get? "dtype") =
    values.map fun value => some (.dtype value.dtype)
  params : g.params = values.mapIdx fun k value => (constantName g.symbol k, value)
  names : g.constNames = (List.range values.length).map (constantName g.symbol)
  distinct : g.constNames.Nodup
  record : ∃ fields, paramsToJson g.params = .record fields ∧ fields.length = values.length ∧
    ∀ name, fields.lookup name = (g.param? name).map fun value => value.toJson.canonical

end Graph

/-- The constants that have a node in a graph that is being built, each by its identity and with its
value: none of them twice, and the `k`th of them named by `k`. -/
structure Lowering.Registers (nodes : Expr → Prop) (s : Lowering)
    (constants : List (Nat × Tensor)) : Prop where
  distinct : (constants.map (·.1)).Nodup
  known : ∀ id value, (id, value) ∈ constants ↔
    nodes (.constant id value) ∧ s.registry.lookup id ≠ none
  named : ∀ k id value, constants[k]? = some (id, value) → ∃ place,
    s.registry.lookup id = some [⟨place, 0, 0⟩] ∧
      s.registry.nodes[place]? = some (.constant (constantName s.symbol k) value)

/-! ### Names and values -/

theorem Node.dtype_constant (name : String) (value : Tensor) :
    (Node.constant name value).attrs.get? "dtype" = some (.dtype value.dtype) := by
  show Attributes.get? (Node.typeAttrs value.dtype value.shape) "dtype" = _
  rw [Node.typeAttrs, Attributes.get?_set, Attributes.get?_set]
  rfl

/-- The values as the record of all of them has them. -/
def Graph.jsonParams (params : List (String × Tensor)) : List (String × Json) :=
  params.map fun (name, value) => (name, value.toJson.canonical)

/-- Where no name stands twice, all values are in the record. -/
theorem Graph.exists_paramsToJson {params : List (String × Tensor)}
    (h : (params.map (·.1)).Nodup) :
    ∃ fields, paramsToJson params = .record fields ∧ fields.length = params.length ∧
      ∀ name, fields.lookup name =
        (params.lookup name).map fun value => value.toJson.canonical := by
  have hjson : paramsToJson params = .record (SortedTable.ofList (jsonParams params)) := by
    rw [paramsToJson, Json.canonical, Json.canonicalFields_eq_map, List.map_map]
    rfl
  have hnames : (jsonParams params).map (·.1) = params.map (·.1) := List.map_map
  have hnodup : ((jsonParams params).map (·.1)).Nodup := hnames ▸ h
  refine ⟨_, hjson, ?_, fun name => ?_⟩
  · rw [(SortedTable.perm_ofList hnodup).length_eq, jsonParams, List.length_map]
  · rw [SortedTable.lookup_ofList_of_nodup hnodup]
    exact lookup_map_snd (fun value : Tensor => value.toJson.canonical) name params

theorem Graph.Tabulates.of_nodes {g : Graph} {values : List Tensor}
    (hnodes : g.constants = values.mapIdx fun k value => .constant (constantName g.symbol k) value)
    (hparams : g.params = values.mapIdx fun k value => (constantName g.symbol k, value)) :
    g.Tabulates values := by
  have hnames : g.constNames = (List.range values.length).map (constantName g.symbol) := by
    rw [constNames, hparams]
    apply List.ext_getElem
    · simp
    · simp
  have hdistinct : g.constNames.Nodup := by
    rw [hnames]
    exact List.nodup_range.map fun _ _ => constantName_injective
  have hlength : g.params.length = values.length := by rw [hparams, List.length_mapIdx]
  refine ⟨hnodes, ?_, hparams, hnames, hdistinct, ?_⟩
  · rw [hnodes]
    apply List.ext_getElem
    · simp
    · simp [Node.dtype_constant]
  · rw [← hlength]
    exact exists_paramsToJson hdistinct

/-! ### What is registered -/

namespace Lowering

variable {nodes : Expr → Prop}

theorem map_constant?_filter (es : List Expr) :
    (es.filter (·.value?.isSome)).map Expr.constant? = (es.filterMap Expr.constant?).map some := by
  induction es with
  | nil => rfl
  | cons x es ih =>
      cases hx : x.constant? with
      | none =>
          have hvalue : ¬ x.value?.isSome := by simp [Expr.value?_eq_map, hx]
          rw [List.filter_cons_of_neg (p := fun x : Expr => x.value?.isSome) hvalue,
            List.filterMap_cons_none hx, ih]
      | some c =>
          have hvalue : x.value?.isSome := by simp [Expr.value?_eq_map, hx]
          rw [List.filter_cons_of_pos (p := fun x : Expr => x.value?.isSome) hvalue,
            List.filterMap_cons_some hx, List.map_cons, List.map_cons, hx, ih]

theorem getElem?_filter {es : List Expr} {k id : Nat} {value : Tensor}
    (h : (es.filterMap Expr.constant?)[k]? = some (id, value)) :
    (es.filter (·.value?.isSome))[k]? = some (.constant id value) := by
  have hmap := congrArg (·[k]?) (map_constant?_filter es)
  simp only [List.getElem?_map, h] at hmap
  obtain ⟨x, hx, hconstant⟩ := Option.map_eq_some_iff.1 hmap
  rw [hx, Expr.constant?_eq_some_iff.1 hconstant]

/-- The node of a constant is named by the place of the constant among the constants. -/
theorem eq_constant {symbol : String} {es : List Expr} (hnodup : (es.map Expr.id).Nodup)
    {k id : Nat} {value : Tensor} (h : (es.filterMap Expr.constant?)[k]? = some (id, value))
    {node : Node} (hnode : Emits symbol es (.constant id value) node) :
    node = .constant (constantName symbol k) value := by
  have hplace : (Expr.constant id value).placeIn (es.filter (·.value?.isSome)) = k :=
    Expr.placeIn_of_getElem? (hnodup.sublist (List.filter_sublist.map Expr.id)) (getElem?_filter h)
  cases hnode
  rw [hplace]

/-- An expression has a node in the role that it has itself. -/
theorem isSome_value?_iff {symbol : String} {es : List Expr} {x : Expr} {node : Node}
    (h : Emits symbol es x node) : x.value?.isSome ↔ node.op = .const := by
  cases h <;> simp [Expr.value?, Node.input, Node.constant, Node.kernel]

namespace Emitted

variable {s : Lowering} {es : List Expr}

theorem nodes_constants (h : Emitted s es) : s.registry.nodes.filter (·.op = .const) =
    ((es.filterMap Expr.constant?).map (·.2)).mapIdx fun k value =>
      .constant (constantName s.symbol k) value := by
  have hall : List.Forall₂ (Emits s.symbol es) (es.filter (·.value?.isSome))
      (s.registry.nodes.filter (·.op = .const)) :=
    List.rel_filter (fun x node hnode => by simpa using isSome_value?_iff hnode) h.nodes
  have hlength : (s.registry.nodes.filter (·.op = .const)).length =
      (es.filterMap Expr.constant?).length := by
    rw [← hall.length_eq, ← List.length_map Expr.constant?, map_constant?_filter, List.length_map]
  apply List.ext_getElem
  · rw [hlength, List.length_mapIdx, List.length_map]
  · intro k hk _
    have hconstant := List.getElem?_eq_getElem (hlength ▸ hk)
    obtain ⟨hlt, heq⟩ := List.getElem?_eq_some_iff.1 (getElem?_filter hconstant)
    have hnode := hall.get hlt hk
    rw [List.get_eq_getElem, heq] at hnode
    rw [List.getElem_mapIdx, List.getElem_map]
    exact eq_constant h.ordered.nodup hconstant hnode

theorem tabulates (h : Emitted s es) (heads : List Entry) :
    (s.registry.toGraph s.symbol heads).Tabulates ((es.filterMap Expr.constant?).map (·.2)) := by
  refine .of_nodes h.nodes_constants ?_
  have hvalues : es.filterMap Expr.value? = (es.filterMap Expr.constant?).map (·.2) := by
    rw [List.map_filterMap]
    exact List.filterMap_congr fun x _ => x.value?_eq_map
  show s.registry.params = _
  rw [h.params, constantTable, hvalues]
  rfl

theorem registers (hids : Expr.Unambiguous nodes) (h : Emitted s es) (hes : ∀ x ∈ es, nodes x) :
    s.Registers nodes (es.filterMap Expr.constant?) := by
  have hmem : ∀ id value, (id, value) ∈ es.filterMap Expr.constant? ↔ .constant id value ∈ es := by
    intro id value
    rw [List.mem_filterMap]
    constructor
    · rintro ⟨x, hx, hconstant⟩
      rwa [← Expr.constant?_eq_some_iff.1 hconstant]
    · exact fun hx => ⟨_, hx, rfl⟩
  refine ⟨?_, fun id value => ?_, fun k id value hk => ?_⟩
  · refine List.pairwise_map.2 (List.pairwise_filterMap.2 ?_)
    refine (List.pairwise_map.1 h.ordered.nodup).imp fun {x y} hne => ?_
    rintro ⟨i, v⟩ hx ⟨j, u⟩ hy
    rw [Expr.constant?_eq_some_iff.1 hx, Expr.constant?_eq_some_iff.1 hy] at hne
    exact hne
  · rw [hmem]
    constructor
    · intro hx
      have hknown : s.registry.lookup id = _ := h.table.known _ hx
      rw [hknown]
      exact ⟨hes _ hx, Option.some_ne_none _⟩
    · rintro ⟨hx, hlookup⟩
      obtain ⟨entries, hentries⟩ := Option.ne_none_iff_exists'.1 hlookup
      exact mem_of_id_mem hids hes hx (h.table.mem_of_lookup hentries)
  · have hx : .constant id value ∈ es := (hmem id value).1 (List.mem_of_getElem? hk)
    obtain ⟨node, hnode, hemits⟩ := h.exists_node hx
    rw [eq_constant h.ordered.nodup hk hemits] at hnode
    exact ⟨_, h.table.known _ hx, hnode⟩

end Emitted

/-! ### Sessions -/

theorem Walked.exists_emitted {α : Type} {es visited : List Expr}
    {expected : List Expr → α → Prop} {out : Except LoweringError α × Lowering}
    (h : Walked nodes es expected out)
    (hds : ∀ ds a, expected ds a → (∀ x ∈ ds, nodes x) ∧ es <+: ds ∧ visited ⊆ ds) :
    ∃ ds, Emitted out.2 ds ∧ (∀ x ∈ ds, nodes x) ∧ es <+: ds ∧
      ∀ a, out.1 = .ok a → visited ⊆ ds := by
  cases h with
  | ok ht ha =>
      obtain ⟨hnodes, hprefix, hvisited⟩ := hds _ _ ha
      exact ⟨_, ht, hnodes, hprefix, fun _ _ => hvisited⟩
  | error ht hprefix hall => exact ⟨_, ht, hall, hprefix, nofun⟩

theorem exists_emitted_visit (hids : Expr.Unambiguous nodes) {e : Expr}
    (he : ∀ x, e.Reaches x → nodes x) {s : Lowering} {es : List Expr} (hs : Emitted s es)
    (hes : ∀ x ∈ es, nodes x) : ∃ ds, Emitted (visit e s).2 ds ∧ (∀ x ∈ ds, nodes x) ∧
      es <+: ds ∧ ∀ entries, (visit e s).1 = .ok entries → [e] ⊆ ds := by
  have hnodes : ∀ d ∈ [e], ∀ x ∈ lowering.postorder d, nodes x :=
    List.forall_mem_singleton.2 fun x hx => he x (Expr.reaches_of_mem_lowering hx)
  refine (visit_walked hids e s es hs hes (hnodes e List.mem_cons_self)).exists_emitted ?_
  rintro ds entries ⟨rfl, -⟩
  refine ⟨forall_mem_list hes hnodes, prefix_list es [e], fun x hx => ?_⟩
  exact (mem_list_iff hids hes hnodes).2 (.inr ⟨x, hx, mem_postorder_self lowering x⟩)

end Lowering

namespace Request

variable {nodes : Expr → Prop}

/-- The expressions that a request visits. -/
def visited : Request → List Expr
  | visit e | visitFirst e => [e]
  | lower family root =>
    match Pattern.ofCall family root with
    | .error _ => []
    | .ok p => (p.operands root).filterMap Operand.expr?

/-- A request does not fail. -/
def Succeeds (s : Lowering) : Request → Prop
  | visit e => ∃ entries, (Lowering.visit e s).1 = .ok entries
  | visitFirst e => ∃ entry, (Lowering.visitFirst e s).1 = .ok entry
  | lower family root => ∃ node, (Lowering.lower family root s).1 = .ok node

theorem exists_visit_of_visitFirst {e : Expr} {s : Lowering} {entry : Entry}
    (h : (Lowering.visitFirst e s).1 = .ok entry) :
    ∃ entries, (Lowering.visit e s).1 = .ok entries := by
  rw [Lowering.visitFirst] at h
  cases hvisit : (Lowering.visit e s).1 with
  | ok entries => exact ⟨entries, rfl⟩
  | error err =>
      have hout : Lowering.visit e s = (.error err, (Lowering.visit e s).2) := Prod.ext hvisit rfl
      rw [hout] at h
      cases h

/-- A call of a family that is matched has visited its operands if it becomes a node. -/
theorem exists_emitted_lower (hids : Expr.Unambiguous nodes) {family : Family} {root : Call}
    {p : Pattern} (hp : Pattern.ofCall family root = .ok p) {s : Lowering} {es : List Expr}
    (hs : Emitted s es) (hes : ∀ x ∈ es, nodes x)
    (hr : ∀ x, Expr.Among (lower family root).exprs x → nodes x) :
    ∃ ds, Emitted (Lowering.lower family root s).2 ds ∧ (∀ x ∈ ds, nodes x) ∧ es <+: ds ∧
      ∀ node, (Lowering.lower family root s).1 = .ok node → (lower family root).visited ⊆ ds := by
  have hnodes : ∀ o ∈ p.operands root, ∀ x, o.expr? = some x →
      ∀ y ∈ lowering.postorder x, nodes y := fun o ho x hx y hy =>
    hr y ((Pattern.among_of_mem_operands hp ho hx).trans (Expr.reaches_of_mem_lowering hy))
  have hwalked := walked_ofPattern hnodes (fun o ho x hx t ts ht hts =>
    visit_walked hids x t ts ht hts (hnodes o ho x hx)) hs hes
  have hlower : Lowering.lower family root s = ofPattern p root s := by
    rw [Lowering.lower, hp]
  rw [visited, hp, hlower]
  refine hwalked.exists_emitted ?_
  rintro ds node ⟨xs, copied, hxs, rfl, -⟩
  have hwalks : ∀ x ∈ xs, ∀ y ∈ lowering.postorder x, nodes y := fun x hx => by
    obtain ⟨o, ho, hox⟩ := List.mem_map.1 (hxs ▸ List.mem_map_of_mem hx)
    exact hnodes o ho x hox
  refine ⟨forall_mem_list hes hwalks, prefix_list es xs, fun x hx => ?_⟩
  obtain ⟨o, ho, hox⟩ := List.mem_filterMap.1 hx
  obtain ⟨y, hy, hsome⟩ := List.mem_map.1 (hxs ▸ List.mem_map_of_mem ho)
  obtain rfl : y = x := Option.some.inj (hsome.trans hox)
  exact (mem_list_iff hids hes hwalks).2 (.inr ⟨y, hy, mem_postorder_self lowering y⟩)

/-- A request adds nodes that it is about, also if it fails. If it succeeds, all that it visits has a
node. -/
theorem exists_emitted_answer (hids : Expr.Unambiguous nodes) {s : Lowering} {es : List Expr}
    (hs : Emitted s es) (hes : ∀ x ∈ es, nodes x) (r : Request)
    (hr : ∀ x, Expr.Among r.exprs x → nodes x) :
    ∃ ds, Emitted (r.answer s).2 ds ∧ (∀ x ∈ ds, nodes x) ∧ es <+: ds ∧
      (r.Succeeds s → r.visited ⊆ ds) := by
  cases r with
  | visit e =>
      obtain ⟨ds, hds, hnodes, hprefix, hvisited⟩ :=
        exists_emitted_visit hids (fun x hx => hr x ⟨e, List.mem_cons_self, hx⟩) hs hes
      refine ⟨ds, hds, hnodes, hprefix, ?_⟩
      rintro ⟨entries, h⟩
      exact hvisited entries h
  | visitFirst e =>
      obtain ⟨ds, hds, hnodes, hprefix, hvisited⟩ :=
        exists_emitted_visit hids (fun x hx => hr x ⟨e, List.mem_cons_self, hx⟩) hs hes
      rw [← visitFirst_snd] at hds
      refine ⟨ds, hds, hnodes, hprefix, ?_⟩
      rintro ⟨entry, h⟩
      obtain ⟨entries, hentries⟩ := exists_visit_of_visitFirst h
      exact hvisited entries hentries
  | lower family root =>
      cases hp : Pattern.ofCall family root with
      | error err =>
          have hstate : (Lowering.lower family root s).2 = s := by rw [Lowering.lower, hp]
          refine ⟨es, ?_, hes, List.prefix_refl es, fun _ => ?_⟩
          · exact hstate.symm ▸ hs
          · rw [visited, hp]
            exact List.nil_subset es
      | ok p =>
          obtain ⟨ds, hds, hnodes, hprefix, hvisited⟩ := exists_emitted_lower hids hp hs hes hr
          refine ⟨ds, hds, hnodes, hprefix, ?_⟩
          rintro ⟨node, h⟩
          exact hvisited node h

end Request

/-- A session has a request for an expression that succeeds. -/
def Session.Visits (symbol : String) (requests : List Request) (x : Expr) : Prop :=
  ∃ earlier r, earlier ++ [r] <+: requests ∧ r.Succeeds (run symbol earlier).lowering ∧
    x ∈ r.visited

/-- The expressions among some that have a node in a graph that is being built are those of a list. -/
structure Lowering.Knows (nodes : Expr → Prop) (s : Lowering) (es : List Expr) : Prop where
  among : ∀ x ∈ es, nodes x
  known : ∀ x, nodes x → (x ∈ es ↔ s.registry.lookup x.id ≠ none)
  closed : ∀ x ∈ es, lowering.postorder x ⊆ es

namespace Lowering

variable {nodes : Expr → Prop}

theorem Emitted.knows {s : Lowering} {es : List Expr} (h : Emitted s es)
    (hids : Expr.Unambiguous nodes) (hes : ∀ x ∈ es, nodes x) : s.Knows nodes es := by
  refine ⟨hes, fun x hx => ⟨fun hmem => ?_, fun hlookup => ?_⟩, fun x => h.ordered.postorder_subset⟩
  · rw [h.table.known x hmem]
    exact Option.some_ne_none _
  · obtain ⟨entries, hentries⟩ := Option.ne_none_iff_exists'.1 hlookup
    exact mem_of_id_mem hids hes hx (h.table.mem_of_lookup hentries)

/-- Every graph that a session leads to has the nodes of some expressions that it was about, among
them those that were visited. -/
theorem exists_emitted_run (hids : Expr.Unambiguous nodes) (symbol : String)
    {requests : List Request} (hnodes : ∀ x, Expr.Among (Session.exprs requests) x → nodes x) :
    ∃ es, Emitted (Session.run symbol requests).lowering es ∧ (∀ x ∈ es, nodes x) ∧
      ∀ x, Session.Visits symbol requests x → x ∈ es := by
  induction requests using List.reverseRecOn with
  | nil =>
      refine ⟨[], .start symbol, fun x hx => (by cases hx), ?_⟩
      rintro x ⟨earlier, r, hprefix, -⟩
      exact absurd (List.prefix_nil.1 hprefix) (by simp)
  | append_singleton requests r ih =>
      rw [Session.exprs_append] at hnodes
      obtain ⟨es, hs, hes, hearlier⟩ := ih fun x hx =>
        hnodes x (hx.mono (List.subset_append_left _ _))
      rw [Session.run_concat]
      obtain ⟨ds, hds, hall, hprefix, hvisited⟩ := Request.exists_emitted_answer hids hs hes r
        fun x hx => hnodes x (hx.mono (Session.exprs_singleton r ▸ List.subset_append_right _ _))
      refine ⟨ds, hds, hall, ?_⟩
      rintro x ⟨before, q, hq, hsucceeds, hx⟩
      rcases List.prefix_concat_iff.1 hq with hlast | hbefore
      · obtain ⟨rfl, hqr⟩ := List.append_inj' hlast rfl
        obtain rfl : q = r := List.singleton_inj.1 hqr
        exact hvisited hsucceeds hx
      · exact hprefix.subset (hearlier x ⟨before, q, hbefore, hsucceeds, hx⟩)

/-- The constants of a graph are consistent. Those of the graph of a function are the constants of
its order, all that is reached from the parameters and the body. Those of a graph that a session
leads to, whichever of its requests failed, are the constants among all that is known then: what
requests that succeeded have visited, and whatever is reached from anything known. -/
theorem constants_consistent (symbol : String) :
    (∀ (f : Function) (g : Graph) (t : Lowering),
      Expr.Unambiguous (Expr.Among (f.params ++ [f.body])) →
      serialize f (.start symbol) = (.ok g, t) → g.symbol = symbol ∧
        t.Knows (Expr.Among (f.params ++ [f.body])) f.order ∧
        t.Registers (Expr.Among (f.params ++ [f.body])) (f.order.filterMap Expr.constant?) ∧
          g.Tabulates ((f.order.filterMap Expr.constant?).map (·.2))) ∧
    ∀ requests, Expr.Unambiguous (Expr.Among (Session.exprs requests)) →
      (Session.run symbol requests).lowering.symbol = symbol ∧ ∃ es,
        (Session.run symbol requests).lowering.Knows (Expr.Among (Session.exprs requests)) es ∧
        (∀ x, Session.Visits symbol requests x → x ∈ es) ∧
        (Session.run symbol requests).lowering.Registers (Expr.Among (Session.exprs requests))
          (es.filterMap Expr.constant?) ∧
        ∀ heads, ((Session.run symbol requests).lowering.registry.toGraph symbol heads).Tabulates
          ((es.filterMap Expr.constant?).map (·.2)) := by
  constructor
  · intro f g t hids h
    obtain ⟨ht, rfl, rfl⟩ := serialize_emitted hids h
    exact ⟨rfl, ht.knows hids f.among_of_mem_order, ht.registers hids f.among_of_mem_order,
      ht.tabulates _⟩
  · intro requests hids
    obtain ⟨es, hs, hes, hvisits⟩ := exists_emitted_run hids symbol fun _ hx => hx
    have hsymbol : (Session.run symbol requests).lowering.symbol = symbol :=
      (Session.extends_run symbol [] requests).symbol
    refine ⟨hsymbol, es, hs.knows hids hes, hvisits, hs.registers hids hes, fun heads => ?_⟩
    have htable := hs.tabulates heads
    rwa [hsymbol] at htable

end Lowering

namespace Sigmoids

theorem visits_inner : Session.Visits "main" requests inner := by
  have hids : Expr.Unambiguous (Expr.Among (inner :: Session.exprs [])) :=
    unambiguous (by simp [nodes, Session.exprs])
  have htree : inner.tree = .ok (kernel (.input "data" none)) :=
    tree_call 8 (Expr.tree_var 7 "data" none)
  obtain ⟨entry, hvisit, -⟩ := ((visit_refines_tree "main" [] inner hids).1 _).1 htree
  exact ⟨[], .visit inner, ⟨[.visit fused], rfl⟩, ⟨_, hvisit⟩, List.mem_cons_self⟩

/-- Both calls share two constants, which are all that there are in the graph of the function. After
a request that succeeds and one that fails they are there, too, each of them once. -/
theorem constants_main : (∃ g t,
      serialize ⟨[data], outer, .empty⟩ (.start "main") = (.ok g, t) ∧
      t.Registers (Expr.Among ([data] ++ [outer])) [(0, .ofInt32 1), (1, .ofInt32 0)] ∧
      g.Tabulates [.ofInt32 1, .ofInt32 0]) ∧
    ∃ constants, constants.Perm [(0, .ofInt32 1), (1, .ofInt32 0)] ∧
      (Session.run "main" requests).lowering.Registers (Expr.Among (Session.exprs requests))
        constants ∧
      ((Session.run "main" requests).lowering.registry.toGraph "main" []).Tabulates
        (constants.map (·.2)) := by
  obtain ⟨hserialize, hsession⟩ := constants_consistent "main"
  constructor
  · obtain ⟨g, t, h⟩ := serialize_isOk
    obtain ⟨-, -, hregisters, htable⟩ := hserialize _ g t main_unambiguous h
    rw [main_order] at hregisters htable
    exact ⟨g, t, h, hregisters, htable⟩
  · have hsubset : Session.exprs requests ⊆ nodes := by
      simp [nodes, requests, Session.exprs, Request.exprs]
    obtain ⟨-, es, hknows, hvisits, hregisters, htable⟩ := hsession requests (unambiguous hsubset)
    refine ⟨_, ?_, hregisters, htable []⟩
    have hdistinct := List.Nodup.of_map _ hregisters.distinct
    refine (List.perm_ext_iff_of_nodup hdistinct (by decide)).2 fun c => ?_
    obtain ⟨id, value⟩ := c
    have hclosed := hknows.closed inner (hvisits inner visits_inner)
    rw [postorder_inner] at hclosed
    constructor
    · intro h
      obtain ⟨⟨d, hd, hx⟩, -⟩ := (hregisters.known id value).1 h
      have hmem := Expr.mem_of_reaches children_subset_nodes (hsubset hd) hx
      have hconstants : nodes.filterMap Expr.constant? =
          [(0, .ofInt32 1), (1, .ofInt32 0)] := rfl
      exact hconstants ▸ List.mem_filterMap.2 ⟨_, hmem, rfl⟩
    · intro h
      refine List.mem_filterMap.2 ?_
      rcases List.mem_pair.1 h with heq | heq <;> cases heq
      · exact ⟨scale, hclosed (by simp), rfl⟩
      · exact ⟨zeroPoint, hclosed (by simp), rfl⟩

end Sigmoids

end KernelGraph
