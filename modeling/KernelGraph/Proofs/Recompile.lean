import KernelGraph.Lowering.Compiled
import KernelGraph.Proofs.Decoding
import KernelGraph.Proofs.Reload
import KernelGraph.Proofs.Sharing

/-!
What a saved expression compiles to. An expression that is written as a document and read back has
its attributes in normal form, so it compiles to what the expression in normal form compiles to.
That is what the expression itself compiles to if its attributes are settled (`Expr.Settled`): an
element type and an empty grid are not, which a kernel graph holds in another way than their normal
forms.
-/

namespace KernelGraph

open Lowering

/-! ### Attributes that are encoded alike -/

/-- Two sets of attributes give the same names the same rows in a kernel graph, and what lowering
reads of them is the same. Their order may differ. -/
structure Attributes.Alike (as bs : Attributes) : Prop where
  nodup : as.names.Nodup
  nodup_other : bs.names.Nodup
  encode : ∀ name, (bs.get? name).map AttrValue.encode = (as.get? name).map AttrValue.encode
  layout : ∀ name ∈ layoutNames,
    (bs.get? name).map AttrValue.layout = (as.get? name).map AttrValue.layout
  padWidth : (bs.get? padWidthName).bind AttrValue.grid? =
    (as.get? padWidthName).bind AttrValue.grid?

namespace Attributes

theorem Alike.refl {as : Attributes} (h : as.names.Nodup) : as.Alike as :=
  ⟨h, h, fun _ => rfl, fun _ _ => rfl, rfl⟩

theorem unnoticed_alike : Unnoticed Alike where
  layout h := h.layout
  padWidth h := h.padWidth
  copied h := by
    rw [empty_extend h.nodup, empty_extend h.nodup_other]
    exact h
  set {as bs} h name value := by
    have hsame : ∀ {β : Type} {f : Option AttrValue → β} (query : String),
        f (bs.get? query) = f (as.get? query) →
          f ((bs.set name value).get? query) = f ((as.set name value).get? query) := by
      intro β f query heq
      rw [get?_set, get?_set]
      by_cases hquery : query = name
      · rw [if_pos hquery, if_pos hquery]
      · rw [if_neg hquery, if_neg hquery, heq]
    exact {
      nodup := nodup_names_set h.nodup name value
      nodup_other := nodup_names_set h.nodup_other name value
      encode := fun query => hsame query (h.encode query)
      layout := fun query hquery => hsame query (h.layout query hquery)
      padWidth := hsame (f := fun found => found.bind AttrValue.grid?) padWidthName h.padWidth }

/-- The rows are sorted by name, whatever follows them. -/
theorem Alike.ofList_encodedFields {as bs : Attributes} (h : as.Alike bs)
    (rest : List (String × Json)) :
    SortedTable.ofList (bs.encodedFields ++ rest) =
      SortedTable.ofList (as.encodedFields ++ rest) := by
  refine (SortedTable.sorted_ofList _).ext (SortedTable.sorted_ofList _) fun query => ?_
  have hrows : (bs.get? query).map AttrValue.encodedJson =
      (as.get? query).map AttrValue.encodedJson := by
    have hencode := congrArg (Option.map fun rows => Json.list (rows.map Json.texts))
      (h.encode query)
    rwa [Option.map_map, Option.map_map] at hencode
  rw [SortedTable.lookup_ofList, SortedTable.lookup_ofList, List.reverse_append,
    List.reverse_append, List.lookup_append, List.lookup_append, lookup_encodedFields h.nodup,
    lookup_encodedFields h.nodup_other, hrows]

end Attributes

namespace Node.Alike

variable {symbol : String} {m n : Node}

/-- Nodes with attributes that are encoded alike have one encoded form. -/
theorem canonical_toJson (h : Alike Attributes.Alike symbol symbol m n) :
    n.toJson.canonical = m.toJson.canonical := by
  cases h with
  | input | constant => rfl
  | @kernel name inputs outputs as bs hattrs =>
      let counts : List (String × Json) :=
        [("num_inputs", .text (toString inputs.length)), ("num_outputs", .text (toString outputs))]
      have htoJson : ∀ cs : Attributes, Node.toJson ⟨.kernel, name, inputs, outputs, cs⟩ =
          .record [("op", .text "kernel"), ("name", .text name),
            ("inputs", .list (inputs.map Entry.toJson)),
            ("attrs", .record (cs.encodedFields ++ counts))] := by
        intro cs
        have hrows : Node.encodedAttrs ⟨.kernel, name, inputs, outputs, cs⟩ =
          cs.encodedFields ++ counts := rfl
        rw [Node.toJson, hrows, if_neg (by simp [counts])]
        rfl
      have hcanonical : (Json.record (bs.encodedFields ++ counts)).canonical =
          (Json.record (as.encodedFields ++ counts)).canonical := by
        simp only [Json.canonical, Json.canonicalFields_eq_map, SortedTable.ofList_map,
          hattrs.ofList_encodedFields]
      rw [htoJson, htoJson, Json.canonical, Json.canonical, Json.canonicalFields_eq_map,
        Json.canonicalFields_eq_map]
      simp only [List.map_cons, hcanonical]

end Node.Alike

namespace Graph.Alike

variable {g g' : Graph} (h : Graph.Alike Attributes.Alike g g') (hsymbol : g'.symbol = g.symbol)

include h

theorem rowPointers : g'.rowPointers = g.rowPointers := by
  have hoffsets : ∀ {ms ns : List Node} {symbol symbol' : String} (start : UInt64),
      List.Forall₂ (Node.Alike Attributes.Alike symbol symbol') ms ns →
        offsets start ns = offsets start ms := by
    intro ms ns symbol symbol' start hnodes
    induction hnodes generalizing start with
    | nil => rfl
    | cons hnode _ ih => rw [offsets, offsets, hnode.outputs, ih]
  exact hoffsets 0 h.nodes

include hsymbol

theorem toJson : g'.toJson = g.toJson := by
  have hnodes : (Json.list (g'.nodes.map Node.toJson)).canonical =
      (Json.list (g.nodes.map Node.toJson)).canonical := by
    have hall := h.nodes
    rw [hsymbol] at hall
    rw [Json.canonical, Json.canonical, Json.canonicalItems_eq_map, Json.canonicalItems_eq_map]
    congr 1
    rw [List.map_map, List.map_map, ← List.forall₂_eq_eq_eq, List.forall₂_map_left_iff,
      List.forall₂_map_right_iff]
    exact hall.flip.imp fun _ _ hnode => hnode.canonical_toJson
  rw [Graph.toJson, Graph.toJson, Json.canonical, Json.canonical, Json.canonicalFields_eq_map,
    Json.canonicalFields_eq_map]
  simp only [List.map_cons, hnodes, h.argNodes, h.heads, h.rowPointers]

theorem compiled : Compiled.ofGraph g' = Compiled.ofGraph g := by
  rw [Compiled.ofGraph, Compiled.ofGraph, h.toJson hsymbol, Graph.constNames, Graph.constNames,
    h.params_eq hsymbol, hsymbol]

end Graph.Alike

/-- A function that is known by a name compiles to its graph under that name. -/
theorem compile_of_symbol {e : Expr} {F : Function} {fallback : Option String} {symbol : String}
    (hF : e.function? = some F) (hsymbol : F.symbol? fallback = some symbol) :
    (compile e fallback).1 =
      (serialize F ((start symbol).note (.compiling symbol F.params.length))).1.map
        Compiled.ofGraph := by
  rw [compile, hF]
  dsimp only
  rw [hsymbol]
  dsimp only
  rcases serialize F _ with ⟨err | g, s⟩ <;> rfl

/-- An expression with other identities, and with attributes that are encoded alike, compiles to the
same. -/
theorem compile_map {e : Expr} {f : Nat → Nat} {g : Attributes → Attributes}
    (hf : Set.InjOn f e.ids)
    (hcalls : ∀ x, e.Reaches x → ∀ c, x.call? = some c → c.attrs.Alike (g c.attrs))
    (hnames : ∀ x, e.Reaches x → ∀ F, x.function? = some F →
      (g F.attrs).getText? compositeName = F.attrs.getText? compositeName)
    (hsymbol : ∀ F, e.function? = some F →
      (g F.attrs).getText? symbolName = F.attrs.getText? symbolName) (fallback : Option String) :
    (compile (e.map f g) fallback).1 = (compile e fallback).1 := by
  have hfunction := Expr.function?_map f g e
  cases hF : e.function? with
  | none =>
      rw [hF] at hfunction
      rw [compile, compile, hF, hfunction, Expr.typeKey_map]
      rfl
  | some F =>
      rw [hF, Option.map_some] at hfunction
      have hgiven : (F.map f g).symbol? fallback = F.symbol? fallback :=
        congrArg (· <|> fallback) (hsymbol F hF)
      cases hknown : F.symbol? fallback with
      | none =>
          rw [hknown] at hgiven
          rw [compile, compile, hF, hfunction]
          dsimp only
          rw [hknown, hgiven]
      | some symbol =>
          have hsame := serialize_map Attributes.unnoticed_alike hF hf hcalls hnames
            ((Mirrors.start symbol symbol).note (.compiling symbol F.params.length)
              (.compiling symbol (F.map f g).params.length)) rfl
          rw [compile_of_symbol hF hknown, compile_of_symbol hfunction (hgiven.trans hknown)]
          generalize (serialize F _).1 = result at hsame ⊢
          generalize (serialize (F.map f g) _).1 = result' at hsame ⊢
          cases hsame with
          | error err => rfl
          | ok halike => exact congrArg Except.ok (halike.1.compiled halike.2)

/-! ### Attributes in normal form -/

namespace AttrValue

/-- A value of a call's attribute that lowering takes for the same in its normal form. An element
type and an empty grid are encoded in another way, and an empty list that stands for a layout is of
another kind. -/
def Settled (name : String) : AttrValue → Prop
  | dtype _ | grid [] => False
  | floats [] | texts [] => name ∉ layoutNames
  | _ => True

variable {name : String} {v : AttrValue} (h : v.Settled name)

include h

/-- Only empty lists that stand for no layout change. -/
theorem Settled.normal_eq :
    v.normal = v ∨ name ∉ layoutNames ∧ (v = .floats [] ∨ v = .texts []) := by
  unfold normal
  split
  · exact h.elim
  · exact .inr ⟨h, .inl rfl⟩
  · exact .inr ⟨h, .inr rfl⟩
  · exact h.elim
  · exact .inl rfl

theorem encode_normal : v.normal.encode = v.encode := by
  rcases h.normal_eq with heq | ⟨-, rfl | rfl⟩
  · rw [heq]
  · rfl
  · rfl

theorem layout_normal (hname : name ∈ layoutNames) : v.normal.layout = v.layout := by
  rcases h.normal_eq with heq | ⟨hother, -⟩
  · rw [heq]
  · exact absurd hname hother

theorem grid?_normal : v.normal.grid? = v.grid? := by
  rcases h.normal_eq with heq | ⟨-, rfl | rfl⟩
  · rw [heq]
  · rfl
  · rfl

end AttrValue

theorem AttrValue.text?_normal {v : AttrValue} (h : ∀ t, v ≠ .dtype t) :
    v.normal.text? = v.text? := by
  unfold normal
  split
  · exact absurd rfl (h _)
  all_goals rfl

namespace Attributes

variable {as : Attributes} (h : as.names.Nodup)

theorem nodup_names_normal (as : Attributes) : as.normal.names.Nodup :=
  as.sorted_normal.nodup

include h

theorem get?_normal (name : String) :
    as.normal.get? name = (as.get? name).map AttrValue.normal := by
  rw [get?, lookup_eq_of_perm (perm_normal h) as.nodup_names_normal, lookup_map_snd]
  rfl

/-- The normal form of settled attributes is encoded alike. -/
theorem alike_normal (hsettled : ∀ item ∈ as.items, item.2.Settled item.1) :
    as.Alike as.normal := by
  have hvalue : ∀ {name v}, as.get? name = some v → v.Settled name := fun hv =>
    hsettled _ ((lookup_eq_some_iff_mem h).1 hv)
  refine ⟨h, as.nodup_names_normal, fun name => ?_, fun name hname => ?_, ?_⟩
  · rw [get?_normal h]
    cases hv : as.get? name with
    | none => rfl
    | some v => exact congrArg some (AttrValue.encode_normal (hvalue hv))
  · rw [get?_normal h]
    cases hv : as.get? name with
    | none => rfl
    | some v => exact congrArg some (AttrValue.layout_normal (hvalue hv) hname)
  · rw [get?_normal h]
    cases hv : as.get? padWidthName with
    | none => rfl
    | some v => exact AttrValue.grid?_normal (hvalue hv)

/-- A text stays a text, and nothing becomes one but an element type. -/
theorem getText?_normal {name : String} (hname : ∀ t, as.get? name ≠ some (.dtype t)) :
    as.normal.getText? name = as.getText? name := by
  rw [getText?, getText?, get?_normal h]
  cases hv : as.get? name with
  | none => rfl
  | some v => exact AttrValue.text?_normal fun t ht => hname t (ht ▸ hv)

end Attributes

namespace Expr

/-- Lowering takes an expression for the same with its attributes in normal form: those of calls are
settled, and no function has an element type for the name that it is known by. -/
structure Settled (e : Expr) : Prop where
  calls : ∀ x c, e.Reaches x → x.call? = some c → ∀ item ∈ c.attrs.items, item.2.Settled item.1
  composites : ∀ x F t, e.Reaches x → x.function? = some F →
    F.attrs.get? compositeName ≠ some (.dtype t)
  symbol : ∀ F t, e.function? = some F → F.attrs.get? symbolName ≠ some (.dtype t)

/-- The attributes of a node that can have some. -/
def attrs? : Expr → Option Attributes
  | var .. | constant .. => none
  | opCall _ _ _ attrs | exprCall _ _ _ attrs | function _ _ _ attrs => some attrs

/-- A node that can be saved and loaded: it can be read, and the text of each of its floating-point
numbers stands for it. -/
structure Reproduced (x : Expr) : Prop where
  readable : x.Readable
  names : ∀ as ∈ x.attrs?, as.names.Nodup
  attrs : ∀ as ∈ x.attrs?, as.Reproduced
  elements : ∀ id value, x = .constant id value → value.elements.Reproduced

/-- An expression that can be saved and loaded: each of its nodes can, and their places are
words. -/
structure Storable (e : Expr) : Prop where
  ids : Unambiguous e.Reaches
  nodes : ∀ x, e.Reaches x → x.Reproduced
  count : (Document.ofExpr e).records.length ≤ UInt64.size

theorem attrs?_of_call? {x : Expr} {c : Call} (h : x.call? = some c) : x.attrs? = some c.attrs := by
  cases x with
  | var | constant | function => cases h
  | opCall | exprCall =>
      cases h
      rfl

theorem attrs?_of_function? {x : Expr} {F : Function} (h : x.function? = some F) :
    x.attrs? = some F.attrs := by
  cases x with
  | var | constant | opCall | exprCall => cases h
  | function =>
      cases h
      rfl

theorem attrs_record (es : List Expr) (x : Expr) : (x.record es).attrs = x.attrs?.getD .empty := by
  cases x <;> rfl

namespace Storable

/-- An expression can be saved if its nodes can be listed and each of them can be saved. -/
theorem of_nodes {e : Expr} (nodes : List Expr) (he : e ∈ nodes)
    (hclosed : ∀ n ∈ nodes, n.children ⊆ nodes) (hids : (nodes.map id).Nodup)
    (hnodes : ∀ x ∈ nodes, x.Reproduced) (hcount : nodes.length ≤ UInt64.size) : e.Storable := by
  have hmem : ∀ x, e.Reaches x → x ∈ nodes := fun x hx => mem_of_reaches hclosed he hx
  have hunique : Unambiguous e.Reaches := fun x y hx hy hid =>
    List.inj_on_of_nodup_map hids (hmem x hx) (hmem y hy) hid
  have horder : e.order ⊆ nodes := fun x hx => hmem x ((mem_order_iff hunique).1 hx)
  have hlength := ((ordered_order hunique).nodup.of_map.subperm horder).length_le
  refine ⟨hunique, fun x hx => hnodes x (hmem x hx), ?_⟩
  rw [Document.ofExpr_eq hunique, List.length_map]
  exact hlength.trans hcount

variable {e : Expr} (h : e.Storable)

include h

theorem reproduced_ofExpr : (Document.ofExpr e).Reproduced := by
  have hcount := h.count
  rw [Document.ofExpr_eq h.ids, List.length_map] at hcount
  have hplace : ∀ x, e.Reaches x → x.placeIn e.order < UInt64.size := fun x hx =>
    have hmem := (mem_order_iff h.ids).2 hx
    (placeIn_lt (List.mem_map_of_mem hmem)).trans_le hcount
  rw [Document.ofExpr_eq h.ids]
  refine ⟨hplace e (.refl e), List.forall_mem_map.2 fun x hx => ?_⟩
  have hx : e.Reaches x := (mem_order_iff h.ids).1 hx
  refine ⟨fun place hmem => ?_, ?_, fun value hvalue => ?_⟩
  · rw [references_record] at hmem
    obtain ⟨a, ha, rfl⟩ := List.mem_map.1 hmem
    exact hplace a (hx.trans (.step ha (.refl a)))
  · rw [attrs_record]
    cases hattrs : x.attrs? with
    | none => exact List.forall_mem_nil _
    | some as => exact (h.nodes x hx).attrs as hattrs
  · cases x with
    | constant id value' =>
        cases hvalue
        exact (h.nodes _ hx).elements id value rfl
    | var | opCall | exprCall | function => cases hvalue

/-- A saved expression is loaded with its attributes in normal form. -/
theorem exists_loaded (indented : Bool) :
    ∃ d, Document.parse ((Document.ofExpr e).toJson.toText indented) = .ok d ∧
      d.build = .ok (e.map (placeOf e.order) Attributes.normal) := by
  refine ⟨_, Document.parse_eq_ok h.reproduced_ofExpr indented, ?_⟩
  rw [Document.build_normal, Document.build_ofExpr h.ids fun x hx => (h.nodes x hx).readable,
    rename_eq_map]
  exact congrArg Except.ok (map_map ..)

/-- The new identities make no difference to what is compiled. -/
theorem compile_map_normal (fallback : Option String) :
    (compile (e.map (placeOf e.order) Attributes.normal) fallback).1 =
      (compile e.normal fallback).1 := by
  have hrename : e.map (placeOf e.order) Attributes.normal =
      e.normal.map (placeOf e.order) fun as => as :=
    (map_map (fun id => id) (placeOf e.order) Attributes.normal (fun as => as) e).symm
  have hids : e.normal.ids ⊆ e.ids := by
    rintro i ⟨y, hy, rfl⟩
    obtain ⟨x, hx, rfl⟩ := exists_of_reaches_map _ _ hy
    exact ⟨x, hx, (id_map (fun id => id) Attributes.normal x).symm⟩
  rw [hrename]
  refine compile_map ((injOn_placeOf h.ids).mono hids) (fun y hy c hc => ?_) (fun _ _ _ _ => rfl)
    (fun _ _ => rfl) fallback
  obtain ⟨x, -, rfl⟩ := exists_of_reaches_map _ _ hy
  rw [call?_map] at hc
  obtain ⟨c, -, rfl⟩ := Option.map_eq_some_iff.1 hc
  exact .refl c.attrs.nodup_names_normal

theorem compile_normal (hsettled : e.Settled) (fallback : Option String) :
    (compile e.normal fallback).1 = (compile e fallback).1 := by
  refine compile_map (fun _ _ _ _ hid => hid) (fun x hx c hc => ?_) (fun x hx F hF => ?_)
    (fun F hF => ?_) fallback
  · exact Attributes.alike_normal ((h.nodes x hx).names _ (attrs?_of_call? hc))
      (hsettled.calls x c hx hc)
  · exact Attributes.getText?_normal ((h.nodes x hx).names _ (attrs?_of_function? hF)) fun t =>
      hsettled.composites x F t hx hF
  · have hnames := (h.nodes e (.refl e)).names _ (attrs?_of_function? hF)
    exact Attributes.getText?_normal hnames fun t => hsettled.symbol F t hF

end Storable

end Expr

namespace Cast

def input : Expr := .var 0 "x" none

def weight : Expr := .constant 3 (.ofInt32 1)

variable (attrs names : Attributes)

def cast : Expr := .opCall 1 "cast" [input] attrs

def main : Expr := .function 2 [input] (cast attrs) names

def graph (symbol : String) : Graph :=
  ⟨symbol, [.input "x" none, .kernel "cast" [⟨0, 0, 0⟩] 1 attrs], [0], [⟨1, 0, 0⟩], []⟩

def compute : Call := ⟨.op "nn.conv2d", [input, weight], attrs⟩

def conv : Expr := .opCall 4 "nn.conv2d" [input, weight] attrs

def declared : Attributes := ⟨[(compositeName, .text "vsi_npu.conv2d")]⟩

def fused : Expr := .function 5 [input] (conv attrs) names

def fusedCall : Expr := .exprCall 6 (fused attrs names) [input] .empty

def outer : Expr := .function 7 [input] (fusedCall attrs names) .empty

theorem normal_main : (main attrs names).normal = main attrs.normal names.normal := by
  have hinput : input.normal = input := by rw [input, Expr.normal, Expr.map]
  rw [main, Expr.normal_function, cast, Expr.normal_opCall]
  simp only [List.map_cons, List.map_nil, hinput]
  rfl

theorem normal_outer : (outer attrs names).normal = outer attrs.normal names.normal := by
  have hinput : input.normal = input := by rw [input, Expr.normal, Expr.map]
  have hweight : weight.normal = weight := by rw [weight, Expr.normal, Expr.map]
  rw [outer, Expr.normal_function, fusedCall, Expr.normal_exprCall, fused, Expr.normal_function,
    conv, Expr.normal_opCall]
  simp only [List.map_cons, List.map_nil, hinput, hweight]
  rfl

variable {attrs names}

theorem reproduced_input : input.Reproduced := ⟨trivial, nofun, nofun, nofun⟩

theorem reproduced_weight : weight.Reproduced := by
  refine ⟨⟨_, rfl⟩, nofun, nofun, ?_⟩
  rintro id value ⟨⟩
  exact List.forall_mem_nil _

theorem reproduced_of_attrs? {x : Expr} {as : Attributes} (hx : x.attrs? = some as)
    (hreadable : x.Readable) (has : as.names.Nodup ∧ as.Reproduced) : x.Reproduced := by
  refine ⟨hreadable, ?_, ?_, ?_⟩
  · rintro bs hbs
    cases hx.symm.trans hbs
    exact has.1
  · rintro bs hbs
    cases hx.symm.trans hbs
    exact has.2
  · rintro id value rfl
    cases hx

theorem reproduced_empty : Attributes.empty.names.Nodup ∧ Attributes.empty.Reproduced :=
  ⟨List.nodup_nil, List.forall_mem_nil _⟩

theorem children_subset : ∀ n ∈ [input, cast attrs, main attrs names],
    n.children ⊆ [input, cast attrs, main attrs names] := by
  simp [Expr.children, input, cast, main]

variable (hattrs : attrs.names.Nodup ∧ attrs.Reproduced)
  (hnames : names.names.Nodup ∧ names.Reproduced)

include hattrs hnames

theorem storable_main : (main attrs names).Storable := by
  have hparam : ∀ x ∈ [input], x.isVar := List.forall_mem_singleton.2 rfl
  refine .of_nodes [input, cast attrs, main attrs names] (by simp) children_subset
    (show [0, 1, 2].Nodup by decide) ?_ (show 3 ≤ UInt64.size by decide)
  refine List.forall_mem_cons.2 ⟨reproduced_input, List.forall_mem_cons.2 ⟨?_,
    List.forall_mem_singleton.2 ?_⟩⟩
  · exact reproduced_of_attrs? rfl trivial hattrs
  · exact reproduced_of_attrs? rfl hparam hnames

theorem storable_outer : (outer attrs names).Storable := by
  have hparam : ∀ x ∈ [input], x.isVar := List.forall_mem_singleton.2 rfl
  have hclosed : ∀ n ∈ [input, weight, conv attrs, fused attrs names, fusedCall attrs names,
      outer attrs names], n.children ⊆ [input, weight, conv attrs, fused attrs names,
        fusedCall attrs names, outer attrs names] := by
    simp [Expr.children, input, weight, conv, fused, fusedCall, outer]
  refine .of_nodes _ (by simp) hclosed (show [0, 3, 4, 5, 6, 7].Nodup by decide) ?_
    (show 6 ≤ UInt64.size by decide)
  refine List.forall_mem_cons.2 ⟨reproduced_input, List.forall_mem_cons.2 ⟨reproduced_weight,
    List.forall_mem_cons.2 ⟨?_, List.forall_mem_cons.2 ⟨?_, List.forall_mem_cons.2 ⟨?_,
      List.forall_mem_singleton.2 ?_⟩⟩⟩⟩⟩
  · exact reproduced_of_attrs? rfl trivial hattrs
  · exact reproduced_of_attrs? rfl hparam hnames
  · exact reproduced_of_attrs? rfl trivial reproduced_empty
  · exact reproduced_of_attrs? rfl hparam reproduced_empty

omit hattrs hnames

theorem visit_params (symbol : String) (e : Event) :
    Step.all ([input].map visit) ((start symbol).note e) =
      (.ok [[⟨0, 0, 0⟩]], (add 0 (.input "x" none) ((start symbol).note e)).2) :=
  Step.all_cons_eq_ok_iff.2 ⟨_, _, _, visit_var rfl, rfl, rfl⟩

theorem serialize_graph (symbol : String) (e : Event) :
    (serialize ⟨[input], cast attrs, names⟩ ((start symbol).note e)).1 =
      .ok (graph attrs symbol) := by
  rw [serialize, visit_params]
  dsimp only
  generalize ht : (add 0 (.input "x" none) ((start symbol).note e)).2 = t
  have hargs : Step.all ([input].map visit) t = (.ok [[⟨0, 0, 0⟩]], t) := by
    subst ht
    exact Step.all_cons_eq_ok_iff.2 ⟨_, _, _, visit_of_lookup rfl, rfl, rfl⟩
  have hknown : noteOperator "cast" t = t := if_pos rfl
  have hcast : visit (cast attrs) t = add 1 (.kernel "cast" [⟨0, 0, 0⟩] 1 attrs) t := by
    rw [cast, visit_opCall (by subst ht; rfl), hknown, hargs]
    rfl
  rw [hcast, ← ht]
  rfl

theorem compile_main {symbol : String}
    (h : Function.symbol? ⟨[input], cast attrs, names⟩ (some "main") = some symbol) :
    (compile (main attrs names) (some "main")).1 = .ok (.ofGraph (graph attrs symbol)) := by
  rw [compile_of_symbol rfl h]
  exact congrArg (Except.map Compiled.ofGraph) (serialize_graph symbol _)

theorem compile_outer {err : LoweringError}
    (h : ∀ s, s.registry.lookup 6 = none → (visit (fusedCall attrs names) s).1 = .error err) :
    (compile (outer attrs names) (some "main")).1 = .error err := by
  have hsymbol : Function.symbol? ⟨[input], fusedCall attrs names, .empty⟩ (some "main") =
      some "main" := rfl
  have herr := h (add 0 (.input "x" none)
    ((start "main").note (.compiling "main" [input].length))).2 rfl
  rw [compile_of_symbol rfl hsymbol, serialize, visit_params]
  dsimp only
  generalize visit (fusedCall attrs names) _ = out at herr ⊢
  obtain ⟨result, s⟩ := out
  cases herr
  rfl

theorem visit_undeclared {err : LoweringError} (h : (fused attrs names).fusedKind = .error err) :
    ∀ s, s.registry.lookup 6 = none → (visit (fusedCall attrs names) s).1 = .error err := by
  intro s hs
  rw [fusedCall, Lowering.visit_undeclared hs h]

theorem visit_layout {v : Violation} (h : (compute attrs).checkConvLayouts = .error v) :
    ∀ s, s.registry.lookup 6 = none →
      (visit (fusedCall attrs declared) s).1 = .error (.violation .convolution v) := by
  intro s hs
  have hkind : (fused attrs declared).fusedKind = .ok .conv2d := rfl
  have hp : Pattern.ofKind .conv2d ⟨.expr (fused attrs declared), [input], .empty⟩ =
      .ok (.convolution none (compute attrs) none none) := rfl
  have hcheck : Pattern.check (.convolution none (compute attrs) none none) = .error v := h
  rw [fusedCall, visit_fused hs hkind hp, ofPattern_eq, hcheck]
  rfl

/-- Expressions that are not settled, each for another reason. -/
def unsettled : List Expr :=
  [main ⟨[("dtype", .dtype .int8)]⟩ .empty, main ⟨[("axes", .grid [])]⟩ .empty,
    main .empty ⟨[(symbolName, .dtype .int8)]⟩, outer .empty ⟨[(compositeName, .dtype .int8)]⟩,
    outer ⟨[("data_layout", .floats [])]⟩ declared]

theorem storable_single {name : String} {v : AttrValue} (h : v.doubles = []) :
    (⟨[(name, v)]⟩ : Attributes).names.Nodup ∧ (⟨[(name, v)]⟩ : Attributes).Reproduced := by
  refine ⟨List.nodup_singleton name, List.forall_mem_singleton.2 ?_⟩
  show ∀ x ∈ v.doubles, _
  rw [h]
  exact List.forall_mem_nil _

theorem compile_main_ne {symbol symbol' : String}
    (h : Function.symbol? ⟨[input], cast attrs, names⟩ (some "main") = some symbol)
    (h' : Function.symbol? ⟨[input], cast attrs.normal, names.normal⟩ (some "main") = some symbol')
    (hne : Compiled.ofGraph (graph attrs.normal symbol') ≠ .ofGraph (graph attrs symbol)) :
    (compile (main attrs names).normal (some "main")).1 ≠
      (compile (main attrs names) (some "main")).1 := by
  rw [normal_main, compile_main h, compile_main h']
  exact fun heq => hne (Except.ok.inj heq)

/-- Each of them can be saved, and does not compile to what it compiles to in normal form. -/
theorem unsettled_ne : ∀ e ∈ unsettled, e.Storable ∧
    (compile e.normal (some "main")).1 ≠ (compile e (some "main")).1 := by
  refine List.forall_mem_cons.2 ⟨⟨?_, ?_⟩, List.forall_mem_cons.2 ⟨⟨?_, ?_⟩,
    List.forall_mem_cons.2 ⟨⟨?_, ?_⟩, List.forall_mem_cons.2 ⟨⟨?_, ?_⟩,
      List.forall_mem_singleton.2 ⟨?_, ?_⟩⟩⟩⟩⟩
  · exact storable_main (storable_single rfl) reproduced_empty
  · refine compile_main_ne rfl rfl fun heq => ?_
    exact absurd (congrArg Compiled.graphText heq) (by decide +kernel)
  · exact storable_main (storable_single rfl) reproduced_empty
  · refine compile_main_ne rfl rfl fun heq => ?_
    exact absurd (congrArg Compiled.graphText heq) (by decide +kernel)
  · exact storable_main reproduced_empty (storable_single rfl)
  · refine compile_main_ne rfl rfl fun heq => ?_
    exact absurd (congrArg Compiled.symbol heq) (by decide)
  · exact storable_outer reproduced_empty (storable_single rfl)
  · rw [normal_outer, compile_outer (visit_undeclared rfl), compile_outer (visit_undeclared rfl)]
    rintro ⟨⟩
  · exact storable_outer (storable_single rfl) (storable_single rfl)
  · have hattrs : Attributes.normal ⟨[("data_layout", .floats [])]⟩ =
        ⟨[("data_layout", .ints [])]⟩ := rfl
    have hdeclared : declared.normal = declared := rfl
    rw [normal_outer, hattrs, hdeclared, compile_outer (visit_layout rfl),
      compile_outer (visit_layout rfl)]
    simp [AttrValue.kindName]

theorem settled_main (h : ∀ item ∈ attrs.items, item.2.Settled item.1) :
    (main attrs .empty).Settled := by
  have hnodes : ∀ x, (main attrs .empty).Reaches x → x ∈ [input, cast attrs, main attrs .empty] :=
    fun x hx => Expr.mem_of_reaches children_subset (by simp) hx
  have hcalls : ∀ x ∈ [input, cast attrs, main attrs .empty], ∀ c, x.call? = some c →
      c.attrs = attrs := by
    simp [Expr.call?, input, cast, main]
  have hfunctions : ∀ x ∈ [input, cast attrs, main attrs .empty], ∀ F, x.function? = some F →
      F.attrs = .empty := by
    simp [Expr.function?, input, cast, main]
  refine ⟨fun x c hx hc => ?_, fun x F t hx hF => ?_, fun F t hF => ?_⟩
  · rw [hcalls x (hnodes x hx) c hc]
    exact h
  · rw [hfunctions x (hnodes x hx) F hF]
    rintro ⟨⟩
  · rw [hfunctions _ (hnodes _ (.refl _)) F hF]
    rintro ⟨⟩

end Cast

end KernelGraph
