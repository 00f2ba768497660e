import KernelGraph.Proofs.ChainEnd
import KernelGraph.Proofs.Matching

/-!
The attributes of the nodes that lowering adds. A kernel of a fused call has those of the call that
computes, in their order; a pad that was taken writes the padding, in its place if there is one and
at the end if there is none (`Attributes.Framed`). Nothing else that stands around the call finds its
way into the node, whatever its attributes are named: not the other calls of the body, nor the
function, nor the call of it.

What a visit gives out is the node of the expression also if it was lowered before, so that the
statement is about every graph that a session leads to (`visit_attrs`).
-/

namespace KernelGraph

namespace Attributes

/-- The named values with one of them written over, in its place if the name is there and at the end
if it is not. -/
def overwritten (as : Attributes) (name : String) (value : AttrValue) :
    List (String × AttrValue) :=
  if name ∈ as.names then as.items.map fun item => if item.1 = name then (name, value) else item
  else as.items ++ [(name, value)]

theorem setItem_of_nodup {name : String} (value : AttrValue) {items : List (String × AttrValue)}
    (hnodup : (items.map (·.1)).Nodup) (h : name ∈ items.map (·.1)) :
    setItem name value items =
      items.map fun item => if item.1 = name then (name, value) else item := by
  induction items with
  | nil => cases h
  | cons item items ih =>
      obtain ⟨n, v⟩ := item
      rw [List.map_cons, List.nodup_cons] at hnodup
      rw [setItem, List.map_cons]
      by_cases hn : n = name
      · -- no later item has the name
        have hrest : items.map (fun item => if item.1 = name then (name, value) else item) =
            items.map id := by
          refine List.map_congr_left fun other hother => if_neg fun heq => hnodup.1 ?_
          exact List.mem_map.2 ⟨other, hother, heq.trans hn.symm⟩
        rw [if_pos hn, if_pos hn, hrest, List.map_id, hn]
      · have hmem : name ∈ items.map (·.1) :=
          (List.mem_cons.1 h).resolve_left fun heq => hn heq.symm
        rw [if_neg hn, if_neg hn, ih hnodup.2 hmem]

/-- Writing a value writes over the one that the name had, and leaves the others as they are. -/
theorem items_set {as : Attributes} (hnodup : as.names.Nodup) (name : String) (value : AttrValue) :
    (as.set name value).items = as.overwritten name value := by
  unfold overwritten
  by_cases h : name ∈ as.names
  · rw [if_pos h]
    exact setItem_of_nodup value hnodup h
  · rw [if_neg h]
    exact setItem_of_not_mem value h

/-- The attributes of a kernel: those of the call that computes, with the padding that a pad tells
written over. The rows of a pad are what it adds before and after, and the padding is top, left,
bottom and right. -/
def Framed (attrs : Attributes) (compute : Call) : Option Call → Prop
  | none => attrs = compute.attrs
  | some pad => ∃ a b c d top bottom left right,
    pad.attrs.get? padWidthName = some (.grid [[a, b], [c, d], [top, bottom], [left, right]]) ∧
      attrs.items = compute.attrs.overwritten paddingName
        (.texts ([top, left, bottom, right].map AttrValue.decimal))

end Attributes

theorem paddingOfWidth?_eq_some_iff {rows : List (List Int64)} {padding : List String} :
    paddingOfWidth? rows = some padding ↔ ∃ a b c d top bottom left right,
      rows = [[a, b], [c, d], [top, bottom], [left, right]] ∧
        padding = [top, left, bottom, right].map AttrValue.decimal := by
  constructor
  · intro h
    unfold paddingOfWidth? at h
    split at h
    · exact ⟨_, _, _, _, _, _, _, _, rfl, (Option.some.inj h).symm⟩
    · cases h
  · rintro ⟨a, b, c, d, top, bottom, left, right, rfl, rfl⟩
    rfl

/-- The padding of a pad is told by its rows. -/
theorem Call.exists_rows_of_padding {pad : Call} {padding : List String}
    (h : pad.padding = .ok padding) :
    ∃ rows, pad.attrs.get? padWidthName = some (.grid rows) ∧
      paddingOfWidth? rows = some padding := by
  unfold Call.padding at h
  split at h
  · cases h
  · rename_i rows hrows
    split at h
    · rename_i padding' hpadding
      cases h
      obtain ⟨value, hvalue, hgrid⟩ := Option.bind_eq_some_iff.1 hrows
      refine ⟨rows, ?_, hpadding⟩
      cases value <;> cases hgrid
      exact hvalue
    · cases h

namespace Pattern

/-- What is written into the attributes of a kernel is the padding of the pad that was taken. -/
theorem padding?_eq_ok {p : Pattern} {written : Option (List String)}
    (h : p.padding? = .ok written) :
    (p.pad? = none ∧ written = none) ∨
      ∃ pad padding, p.pad? = some pad ∧ pad.padding = .ok padding ∧ written = some padding := by
  have hsome : ∀ {pad : Call}, some <$> pad.padding = .ok written →
      ∃ padding, pad.padding = .ok padding ∧ written = some padding := by
    intro pad h
    cases hpadding : pad.padding with
    | error v =>
        rw [hpadding] at h
        cases h
    | ok padding =>
        rw [hpadding] at h
        cases h
        exact ⟨padding, rfl, rfl⟩
  rw [padding?_eq] at h
  cases hpad : p.pad? with
  | none =>
      rw [hpad] at h
      cases h
      exact .inl ⟨rfl, rfl⟩
  | some pad =>
      rw [hpad] at h
      dsimp only at h
      right
      split at h
      · obtain ⟨-, -, h⟩ := exists_of_bind_eq_ok h
        obtain ⟨padding, hpadding, rfl⟩ := hsome h
        exact ⟨pad, padding, rfl, hpadding, rfl⟩
      · obtain ⟨padding, hpadding, rfl⟩ := hsome h
        exact ⟨pad, padding, rfl, hpadding, rfl⟩

/-- The attributes of a kernel come from the call that computes and from the pad. -/
theorem framed_of_attrs {p : Pattern} {attrs : Attributes} (h : p.attrs = .ok attrs)
    (hnodup : p.compute.attrs.names.Nodup) : attrs.Framed p.compute p.pad? := by
  unfold Pattern.attrs at h
  rw [Attributes.empty_extend hnodup] at h
  obtain ⟨written, hwritten, h⟩ := exists_of_bind_eq_ok h
  rcases padding?_eq_ok hwritten with ⟨hpad, rfl⟩ | ⟨pad, padding, hpad, hpadding, rfl⟩
  · cases h
    rw [hpad]
    rfl
  · cases h
    obtain ⟨rows, hrows, hwidth⟩ := Call.exists_rows_of_padding hpadding
    obtain ⟨a, b, c, d, top, bottom, left, right, rfl, rfl⟩ := paddingOfWidth?_eq_some_iff.1 hwidth
    rw [hpad]
    exact ⟨a, b, c, d, top, bottom, left, right, hrows, Attributes.items_set hnodup _ _⟩

end Pattern

/-- A tree that is a kernel has these attributes. -/
def Tree.HasAttrs (tree : Tree) (attrs : Attributes) : Prop :=
  ∀ name inputs given, tree = .kernel name inputs given → attrs = given

/-- An entry that unfolds is of a node, which has the attributes of the tree. -/
theorem Registry.exists_node_of_unfold {r : Registry} {entry : Entry} {tree : Tree}
    (h : r.unfold entry = some tree) :
    ∃ node, r.nodes[entry.id]? = some node ∧ tree.HasAttrs node.attrs := by
  rw [unfold] at h
  split at h
  · cases h
  · rename_i node hnode
    refine ⟨node, hnode, ?_⟩
    rintro name inputs given rfl
    split at h
    · unfold Node.tree? at h
      split at h
      · cases h
      · obtain ⟨_, -, h⟩ := Option.map_eq_some_iff.1 h
        cases h
      · obtain ⟨_, -, h⟩ := Option.map_eq_some_iff.1 h
        cases h
        rfl
    · cases h

/-- The tree of a fused call has the attributes that its pattern makes. -/
theorem Expr.exists_pattern_of_tree {id : Nat} {callee : Expr} {args : List Expr}
    {attrs : Attributes} {tree : Tree} (h : (exprCall id callee args attrs).tree = .ok tree) :
    ∃ kind p inputs copied, callee.fusedKind = .ok kind ∧
      Pattern.ofKind kind ⟨.expr callee, args, attrs⟩ = .ok p ∧ p.attrs = .ok copied ∧
      tree = .kernel p.kernelName inputs copied := by
  rw [tree_exprCall] at h
  obtain ⟨kind, hkind, h⟩ := exists_of_bind_eq_ok h
  obtain ⟨p, hp, h⟩ := exists_of_bind_eq_ok h
  obtain ⟨-, -, h⟩ := exists_of_bind_eq_ok h
  obtain ⟨inputs, -, h⟩ := exists_of_bind_eq_ok h
  obtain ⟨copied, hcopied, h⟩ := exists_of_bind_eq_ok h
  cases h
  refine ⟨kind, p, inputs, copied, hkind, hp, ?_, rfl⟩
  cases hattrs : p.attrs with
  | error v =>
      rw [hattrs] at hcopied
      cases hcopied
  | ok copied' =>
      rw [hattrs] at hcopied
      cases hcopied
      rfl

theorem Expr.exists_inputs_of_tree {id : Nat} {op : String} {args : List Expr} {attrs : Attributes}
    {tree : Tree} (h : (opCall id op args attrs).tree = .ok tree) :
    ∃ inputs, tree = .kernel op inputs (Attributes.empty.extend attrs) := by
  rw [tree_opCall] at h
  obtain ⟨inputs, -, h⟩ := exists_of_bind_eq_ok h
  cases h
  exact ⟨inputs, rfl⟩

/-- Attributes are framed by the parts of a body, of which one computes. Attributes as a program can
hold them name nothing twice. -/
def Attributes.FramedBy (attrs : Attributes) (links : List (Part × Call)) : Prop :=
  ∃ compute, links.lookup .compute = some compute ∧
    (compute.attrs.names.Nodup → attrs.Framed compute (links.lookup .pad))

/-- What the attributes of the node of a call are. -/
def Expr.Attributed (attrs : Attributes) : Expr → Prop
  | opCall _ _ _ given => given.names.Nodup → attrs = given
  | exprCall _ callee _ _ => ∃ (f : Function) (kind : FusedKind) (links : List (Part × Call)),
    callee.function? = some f ∧ f.attrs.getText? compositeName = some kind.name ∧
      Follows kind.slots f.body.chain links ∧ attrs.FramedBy links
  | _ => True

theorem Pattern.framedBy_of_attrs {p : Pattern} {attrs : Attributes} (h : p.attrs = .ok attrs) :
    attrs.FramedBy p.links := by
  refine ⟨p.compute, p.lookup_compute, fun hnodup => ?_⟩
  rw [p.lookup_pad]
  exact framed_of_attrs h hnodup

/-- What has the attributes of the tree of a call has those that the call tells. -/
theorem Expr.attributed_of_tree {e : Expr} {tree : Tree} {attrs : Attributes}
    (h : e.tree = .ok tree) (hattrs : tree.HasAttrs attrs) : e.Attributed attrs := by
  cases e with
  | var | constant | function => trivial
  | opCall id op args given =>
      obtain ⟨inputs, rfl⟩ := exists_inputs_of_tree h
      intro hnodup
      rw [hattrs _ _ _ rfl, Attributes.empty_extend hnodup]
  | exprCall id callee args given =>
      obtain ⟨kind, p, inputs, copied, hkind, hp, hcopied, rfl⟩ := exists_pattern_of_tree h
      rw [← hattrs _ _ _ rfl] at hcopied
      obtain ⟨hcall, rfl⟩ := Pattern.ofCall_of_ofKind hp
      obtain ⟨chain, hchain, hwalk⟩ := exists_of_bind_eq_ok hcall
      obtain ⟨f, hf, -, rfl⟩ := Pattern.chainOf_eq_ok_iff.1 hchain
      refine ⟨f, p.kind, p.links, hf, ?_, Pattern.follows_of_chain hwalk,
        Pattern.framedBy_of_attrs hcopied⟩
      exact Attributes.getText?_eq_some_iff.2 ((fusedKind_eq_ok_iff hf).1 hkind)

namespace Lowering

/-- An expression that had no node is given one by its visit. -/
theorem exists_add_of_visit {e : Expr} {s t : Lowering} {entries : List Entry}
    (hnew : s.registry.lookup e.id = none) (h : visit e s = (.ok entries, t)) :
    ∃ node u, add e.id node u = (.ok entries, t) := by
  cases e with
  | var id name type =>
      have hnew : s.registry.lookup id = none := hnew
      rw [visit_var hnew] at h
      exact ⟨_, _, h⟩
  | constant id value =>
      have hnew : s.registry.lookup id = none := hnew
      rw [visit_constant hnew] at h
      exact ⟨_, _, h⟩
  | function id params body attrs =>
      have hnew : s.registry.lookup id = none := hnew
      rw [visit_function hnew] at h
      cases h
  | opCall id op args attrs =>
      have hnew : s.registry.lookup id = none := hnew
      rw [visit_opCall hnew] at h
      rcases hargs : Step.all (args.map visit) (noteOperator op s) with ⟨err | inputs, u⟩
      · rw [hargs] at h
        cases h
      · rw [hargs] at h
        exact ⟨_, _, h⟩
  | exprCall id callee args attrs =>
      obtain ⟨kind, p, node, u, -, -, -, hadd⟩ := (visit_exprCall_eq_ok_iff hnew).1 h
      exact ⟨node, _, hadd⟩

/-- The node that is added is the last one. -/
theorem length_of_add {id : Nat} {node : Node} {s t : Lowering} {entry : Entry}
    (h : add id node s = (.ok [entry], t)) : entry.id + 1 = t.registry.nodes.length := by
  have hentries : Registry.entries s.registry.nodes.length node.outputs = [entry] :=
    Except.ok.inj (congrArg Prod.fst h)
  have hplace := (Registry.mem_entries.1 (hentries ▸ List.mem_singleton_self entry)).1
  obtain rfl : (add id node s).2 = t := congrArg Prod.snd h
  show entry.id + 1 = (s.registry.nodes ++ [node]).length
  rw [hplace, List.length_append, List.length_singleton]

/-- In every graph that a session leads to, the node that a visit gives out has the attributes of
the call, and if the call had no node before, it is the one that was added last. A kernel that is
built but not added has its attributes in the same way. -/
theorem visit_attrs (symbol : String) (requests : List Request) :
    let s := (Session.run symbol requests).lowering
    (∀ e entries t, Expr.Unambiguous (Expr.Among (e :: Session.exprs requests)) →
      visit e s = (.ok entries, t) → ∃ entry node, entries = [entry] ∧
        t.registry.nodes[entry.id]? = some node ∧
        (s.registry.lookup e.id = none → entry.id + 1 = t.registry.nodes.length) ∧
        e.Attributed node.attrs) ∧
    ∀ family root node t, lower family root s = (.ok node, t) → ∃ f links,
      root.function? = some f ∧ Follows (family.slots (rescales f.body.chain)) f.body.chain links ∧
        node.attrs.FramedBy links := by
  intro s
  constructor
  · intro e entries t hids h
    have hs := (sound_run hids symbol fun x hx => hx.mono (List.subset_cons_self _ _)).1
    have hout := (visit_outcome hids e s hs fun x hx => .of_mem List.mem_cons_self hx).agrees
    rw [h] at hout
    generalize htree : e.tree = expected at hout
    cases hout with
    | ok hstands =>
        obtain ⟨entry, rfl, hunfold⟩ := hstands
        obtain ⟨node, hnode, hattrs⟩ := Registry.exists_node_of_unfold hunfold
        refine ⟨entry, node, rfl, hnode, fun hnew => ?_, Expr.attributed_of_tree htree hattrs⟩
        obtain ⟨_, _, hadd⟩ := exists_add_of_visit hnew h
        exact length_of_add hadd
  · intro family root node t h
    rw [lower] at h
    rcases hp : Pattern.ofCall family root with err | p
    · rw [hp] at h
      cases h
    · rw [hp] at h
      obtain ⟨-, inputs, attrs, -, hattrs, rfl⟩ := ofPattern_eq_ok_iff.1 h
      obtain ⟨chain, hchain, hwalk⟩ := exists_of_bind_eq_ok hp
      obtain ⟨f, hf, -, rfl⟩ := Pattern.chainOf_eq_ok_iff.1 hchain
      exact ⟨f, p.links, hf, Pattern.follows_slots hwalk, Pattern.framedBy_of_attrs hattrs⟩

/-! A padded pool, in which every call has a padding of its own, and the pool has one before its
strides. -/

namespace PaddedPool

def param : Expr := .var 0 "x" none

def pad : Expr := .opCall 1 "nn.pad" [param]
  ⟨[("padding", .text "reflect"), ("pad_width", .grid [[0, 0], [0, 0], [1, 2], [3, 4]])]⟩

def poolAttrs : Attributes :=
  ⟨[("layout", .text "NCHW"), ("padding", .texts ["0"]), ("strides", .ints [2, 2])]⟩

def pool : Expr := .opCall 2 "nn.max_pool2d" [pad] poolAttrs

def fused : Expr :=
  .function 3 [param] pool ⟨[("Composite", .text "vsi_npu.max_pool2d"), ("padding", .int 7)]⟩

def data : Expr := .var 4 "data" none

def callAttrs : Attributes := ⟨[("padding", .bool true), ("layout", .text "NHWC")]⟩

def call : Expr := .exprCall 5 fused [data] callAttrs

def padCall : Call := ⟨.op "nn.pad", [param],
  ⟨[("padding", .text "reflect"), ("pad_width", .grid [[0, 0], [0, 0], [1, 2], [3, 4]])]⟩⟩

def poolCall : Call := ⟨.op "nn.max_pool2d", [pad], poolAttrs⟩

/-- The attributes of the kernel. -/
def kernelAttrs : Attributes :=
  ⟨[("layout", .text "NCHW"), ("padding", .texts ["1", "3", "2", "4"]), ("strides", .ints [2, 2])]⟩

theorem unambiguous : Expr.Unambiguous (Expr.Among (call :: Session.exprs [.visit data])) := by
  refine Expr.unambiguous_of_nodup [param, pad, pool, fused, data, call] ?_ ?_ (by decide)
  · simp [Session.exprs, Request.exprs]
  · simp [Expr.children, param, pad, pool, fused, data, call]

theorem lowers_call : Lowers call (Session.run "main" [.visit data]).lowering := by
  have hs := (sound_run unambiguous "main" fun x hx => hx.mono (List.subset_cons_self _ _)).1
  refine (lowers_iff unambiguous hs fun x hx => .of_mem List.mem_cons_self hx).2
    ⟨.kernel "nn.max_pool2d" [.input "data" none] kernelAttrs, ?_⟩
  have hdata : data.tree = .ok (.input "data" none) := Expr.tree_var 4 "data" none
  have hp : Pattern.ofKind .maxPool2d ⟨.expr fused, [data], callAttrs⟩ =
    .ok (.pool .maximum (some padCall) poolCall) := rfl
  rw [call, Expr.tree_fused 5 rfl hp]
  show Pattern.tree _ [data.tree] = _
  rw [hdata]
  rfl

/-- The padding that the pad adds stands where that of the pool stood. -/
theorem call_attrs : Expr.Unambiguous (Expr.Among (call :: Session.exprs [.visit data])) ∧
    ∃ entry t node, visit call (Session.run "main" [.visit data]).lowering = (.ok [entry], t) ∧
      t.registry.nodes[entry.id]? = some node ∧ node.attrs = kernelAttrs := by
  obtain ⟨entries, t, h⟩ := lowers_call
  obtain ⟨entry, node, rfl, hnode, -, f, kind, links, hf, hkind, hfollows, compute, hcompute,
    hframed⟩ := (visit_attrs "main" [.visit data]).1 call entries t unambiguous h
  cases hf
  obtain rfl : FusedKind.maxPool2d = kind := FusedKind.name_injective (Option.some.inj hkind)
  have hlinks : Follows FusedKind.maxPool2d.slots pool.chain
      [(.compute, poolCall), (.pad, padCall)] :=
    .take ⟨.maxPool2d, by simp, rfl⟩ (.take ⟨.pad, by simp, rfl⟩ (.done _))
  obtain rfl := hfollows.unique hlinks
  cases hcompute
  obtain ⟨a, b, c, d, top, bottom, left, right, hrows, hitems⟩ := hframed (by decide)
  cases hrows
  exact ⟨unambiguous, entry, t, node, h, hnode, congrArg Attributes.mk hitems⟩

end PaddedPool

end Lowering

end KernelGraph
