import KernelGraph.Proofs.ConstantTable
import KernelGraph.Proofs.Decoding
import KernelGraph.Proofs.GraphText
import KernelGraph.Proofs.Loading
import KernelGraph.Proofs.Notation

/-!
What the table of constants keeps of a constant. A tensor is read back from its canonical form if its
elements are finite, whatever they are; JSON has no number that is not finite, so otherwise it is not
read at all (`Tensor.read_canonical`). So the constants that a compiled document has lost are those
with an element that its text had left without bounds (`constants_reread`).
-/

namespace KernelGraph

open Decimal Lowering

/-! ### Reading values that may not be there -/

namespace Draft

/-- A list is read if each of its items is, where all that are not fail alike. -/
theorem readList_ite {α : Type} {f : α → Json} {item : Draft → Read α} {good : α → Bool}
    {err : ReadError} (h : ∀ x, item (f x).draft = if good x then .ok x else .error err)
    (xs : List α) :
    (Json.list (xs.map f)).draft.readList item = if xs.all good then .ok xs else .error err := by
  have hall : (xs.map fun x => (f x).draft).mapM item =
      if xs.all good then .ok xs else .error err := by
    induction xs with
    | nil => rfl
    | cons x xs ih =>
        rw [List.map_cons, List.mapM_cons, h, ih, List.all_cons]
        cases hx : good x with
        | false => rfl
        | true =>
            rw [Bool.true_and]
            by_cases hxs : xs.all good = true
            · rw [if_pos hxs, if_pos hxs]
              rfl
            · rw [if_neg hxs, if_neg hxs]
              rfl
  rw [Json.draft, Json.itemDrafts_eq_map, List.map_map, readList]
  show (do let ys ← (xs.map fun x => (f x).draft).mapM item; _) = _
  rw [hall]
  split <;> rfl

end Draft

namespace Elements

/-- Every element is a number. -/
def isFinite (e : Elements) : Bool := e.singles.all Binary.isFinite

/-- Why elements are not read back: there is nothing in the place of one of them. -/
def missing : ReadError := .mismatch (.type .null "f32")

theorem canonical_float32 (values : List Single) : (float32 values).toJson.canonical =
    .record [("f32", .list (values.map fun x => Json.ofNumber (.single x)))] := by
  have hitems : (float32 values).toJson.canonical = .record [("f32",
      .list (Json.canonicalItems (values.map fun x => Json.number (.single x))))] := rfl
  rw [hitems, Json.canonicalItems_eq_map, List.map_map]
  rfl

/-- An element is read back where its text is read as a number that is narrowed to it. -/
theorem readSingle_ofNumber (x : Single) : (Json.ofNumber (.single x)).draft.readSingle =
    if x.isFinite then .ok x else .error missing := by
  rw [Json.ofNumber]
  by_cases h : x.isFinite = true
  · obtain ⟨m, y, hscan, hnumber, hnarrow⟩ := Number.exists_double_of_single h
    have hnumeral : Json.numeral (.double x.widen) = m := by
      rw [Json.numeral, hscan]
      rfl
    rw [if_pos h, if_pos h, Draft.readSingle, Json.draft, Draft.found, hnumeral, hnumber]
    exact congrArg Except.ok hnarrow
  · rw [if_neg h, if_neg h]
    rfl

theorem spelled_ofNumber (x : Single) : (Json.ofNumber (.single x)).Spelled 0 := by
  rw [Json.ofNumber]
  by_cases h : x.isFinite = true
  · rw [if_pos h]
    exact .number 0 (Number.spelled_double (Binary.isFinite_widen h))
  · rw [if_neg h]
    exact .null 0

theorem singles_eq_nil_or (e : Elements) : e.singles = [] ∨ ∃ values, e = float32 values := by
  cases e with
  | float32 values => exact .inr ⟨values, rfl⟩
  | int8 | uint8 | int32 | int64 => exact .inl rfl

theorem reproduced_of_singles {e : Elements} (h : e.singles = []) : e.Reproduced := fun x hx => by
  rw [h] at hx
  cases hx

/-- Elements are read back from their canonical form if they are finite. -/
theorem read_canonical (e : Elements) (pass : Pass) :
    read pass e.toJson.canonical.draft = if e.isFinite then .ok e else .error missing := by
  rcases e.singles_eq_nil_or with hsingles | ⟨values, rfl⟩
  · have hreproduced := reproduced_of_singles hsingles
    have hfinite : e.isFinite = true := by
      rw [isFinite, hsingles]
      rfl
    rw [if_pos hfinite, canonical_toJson hreproduced, read_numbers hreproduced]
  · have hread : readOf .float32 (Json.list (values.map fun x => Json.ofNumber (.single x))).draft =
        float32 <$> if values.all Binary.isFinite then .ok values else .error missing :=
      congrArg (float32 <$> ·) (Draft.readList_ite readSingle_ofNumber values)
    rw [canonical_float32]
    refine (read_of pass .float32 _).trans (hread.trans ?_)
    show _ = if values.all Binary.isFinite = true then Except.ok (float32 values) else _
    split <;> rfl

theorem spelled_canonical (e : Elements) : e.toJson.canonical.Spelled 2 := by
  rcases e.singles_eq_nil_or with hsingles | ⟨values, rfl⟩
  · have hreproduced := reproduced_of_singles hsingles
    rw [canonical_toJson hreproduced]
    refine .record (List.forall_mem_singleton.2 (.list (List.forall_mem_map.2 fun n hn => ?_)))
    exact .number 0 (reproduced_of_mem_numbers hreproduced n hn).spelled
  · rw [canonical_float32]
    exact .record (List.forall_mem_singleton.2 (.list (List.forall_mem_map.2 fun x _ =>
      spelled_ofNumber x)))

end Elements

namespace Tensor

/-- A tensor is read back from its canonical form if its elements are finite. -/
theorem read_canonical (t : Tensor) (pass : Pass) : read pass t.toJson.canonical.draft =
    if t.elements.isFinite then .ok t else .error Elements.missing := by
  rw [read, canonical_eq, Draft.read_record rfl]
  simp only [List.foldlM, readField, Draft.fill, Elements.read_canonical, Shape.read_toJson]
  split <;> rfl

theorem spelled_canonical (t : Tensor) : t.toJson.canonical.Spelled 3 := by
  rw [canonical_eq]
  refine .record fun field hfield => ?_
  rcases List.mem_pair.1 hfield with rfl | rfl
  · exact t.elements.spelled_canonical
  · exact t.shape.legible_toJson.spelled.mono (by decide)

end Tensor

/-! ### Compiled documents -/

/-- The function that is known by a name, the graph that it is lowered to, and what lowering
leaves. -/
def Expr.Leaves (root : Expr) (fallback : Option String) (f : Function) (g : Graph)
    (t : Lowering) : Prop :=
  root.function? = some f ∧ ∃ symbol, f.symbol? fallback = some symbol ∧
    serialize f ((start symbol).note (.compiling symbol f.params.length)) = (.ok g, t)

/-- A constant that has a node is in the table of constants under the name of its node. -/
theorem Lowering.Emitted.exists_param {t : Lowering} {es : List Expr} {nodes : Expr → Prop}
    (h : Emitted t es) (hids : Expr.Unambiguous nodes) (hes : ∀ x ∈ es, nodes x) {id : Nat}
    {value : Tensor} (hx : .constant id value ∈ es) (heads : List Entry) : ∃ place name,
      t.registry.lookup id = some [⟨place, 0, 0⟩] ∧
      t.registry.nodes[place]? = some (.constant name value) ∧
      (Graph.paramsToJson (t.registry.toGraph t.symbol heads).params).field? name =
        some value.toJson.canonical := by
  have hregisters := h.registers hids hes
  have htable := h.tabulates heads
  have hconstant : (id, value) ∈ es.filterMap Expr.constant? := List.mem_filterMap.2 ⟨_, hx, rfl⟩
  obtain ⟨k, hk⟩ := List.mem_iff_getElem?.1 hconstant
  obtain ⟨place, hplace, hnode⟩ := hregisters.named k id value hk
  have hvalue : ((es.filterMap Expr.constant?).map (·.2))[k]? = some value := by
    rw [List.getElem?_map, hk]
    rfl
  have hparam : (t.registry.toGraph t.symbol heads).param? (constantName t.symbol k) =
      some value := by
    refine (lookup_eq_some_iff_mem htable.distinct).2 ?_
    rw [htable.params]
    refine List.mem_of_getElem? (i := k) ?_
    rw [List.getElem?_mapIdx, hvalue]
    rfl
  obtain ⟨fields, hfields, -, hrecord⟩ := htable.record
  refine ⟨place, _, hplace, hnode, ?_⟩
  rw [hfields]
  exact (hrecord _).trans (by rw [hparam]; rfl)

/-- Every constant in the order of a compiled document stands in the table of constants under the
name of its node, in compact or indented text. If its elements are finite, it is read back from there
as it is, shape, type and elements alike. If one is not, nothing is read, as there is no number in
its place. -/
theorem constants_reread {d : Document} {root : Expr} {fallback : Option String}
    {compiled : Compiled} {log : List Event} (hbuild : d.build = .ok root)
    (hcompile : compile root fallback = (.ok compiled, log)) :
    ∃ f g t, root.Leaves fallback f g t ∧ compiled = .ofGraph g ∧ t.Knows root.Reaches f.order ∧
      ∀ id value, .constant id value ∈ f.order →
        ∃ place name j, t.registry.lookup id = some [⟨place, 0, 0⟩] ∧
          g.nodes[place]? = some (.constant name value) ∧
          compiled.paramsJson.field? name = some j ∧
          ∀ pass indented, Draft.readWhole (Tensor.read pass) (j.toText indented) =
            if value.elements.isFinite then .ok value else .error Elements.missing := by
  obtain ⟨g, ⟨f, symbol, t, hf, hsymbol, hserialize⟩, rfl⟩ := exists_yields_of_compile hcompile
  have hids : Expr.Unambiguous root.Reaches := Document.unambiguous_of_build hbuild
  have hamong : ∀ x, Expr.Among (f.params ++ [f.body]) x → root.Reaches x := fun _ =>
    Expr.reaches_of_function? hf
  have horder : ∀ x ∈ f.order, root.Reaches x := fun x hx => hamong x (f.among_of_mem_order x hx)
  have hstart := (Emitted.start symbol).note (.compiling symbol f.params.length)
  obtain ⟨ht, hsame, rfl⟩ := hstart.serialize (hids.imp hamong) hserialize
  refine ⟨f, _, t, ⟨hf, symbol, hsymbol, hserialize⟩, rfl, ht.knows hids horder,
    fun id value hx => ?_⟩
  obtain ⟨place, name, hplace, hnode, hfield⟩ := ht.exists_param hids horder hx
    [f.body.entryIn f.order]
  refine ⟨place, name, _, hplace, hnode, hfield, fun pass indented => ?_⟩
  rw [Draft.readWhole_toText value.spelled_canonical, Tensor.read_canonical]

/-! A sum with a constant of one element. -/

namespace Scalar

def data : Expr := .var 0 "x" none

variable (x : Single)

def scalar : Expr := .constant 1 (.ofSingle x)

def sum : Expr := .opCall 2 "add" [data, scalar x] .empty

def main : Expr := .function 3 [data] (sum x) .empty

def document : Document :=
  ⟨[.var "x" none, .constant (.ofSingle x), .call (some "add") none [0, 1] .empty,
    .function [0] 2 .empty], 3⟩

def registry : Registry :=
  ⟨[.input "x" none, .constant (constantName "main" 0) (.ofSingle x),
      .kernel "add" [⟨0, 0, 0⟩, ⟨1, 0, 0⟩] 1 .empty],
    [(2, [⟨2, 0, 0⟩]), (1, [⟨1, 0, 0⟩]), (0, [⟨0, 0, 0⟩])], [0, 1],
    [(constantName "main" 0, .ofSingle x)]⟩

theorem serialize_sum (e : Event) :
    serialize ⟨[data], sum x, .empty⟩ ((start "main").note e) =
      (.ok ((registry x).toGraph "main" [⟨2, 0, 0⟩]), ⟨"main", registry x, [e]⟩) := by
  generalize ht : (add 0 (.input "x" none) ((start "main").note e)).2 = t
  have hparams : Step.all ([data].map visit) ((start "main").note e) =
      (.ok [[⟨0, 0, 0⟩]], t) := by
    subst ht
    exact Step.all_cons_eq_ok_iff.2 ⟨_, _, _, visit_var rfl, rfl, rfl⟩
  have hargs : Step.all ([data, scalar x].map visit) t =
      (.ok [[⟨0, 0, 0⟩], [⟨1, 0, 0⟩]], (addConstant 1 (.ofSingle x) t).2) := by
    subst ht
    refine Step.all_cons_eq_ok_iff.2 ⟨_, _, _, visit_of_lookup rfl, ?_, rfl⟩
    exact Step.all_cons_eq_ok_iff.2 ⟨_, _, _, visit_constant rfl, rfl, rfl⟩
  have hknown : noteOperator "add" t = t := if_pos rfl
  have hsum : visit (sum x) t =
      add 2 (.kernel "add" [⟨0, 0, 0⟩, ⟨1, 0, 0⟩] 1 .empty) (addConstant 1 (.ofSingle x) t).2 := by
    rw [sum, visit_opCall (by subst ht; rfl), hknown, hargs]
    rfl
  rw [serialize, hparams]
  dsimp only
  rw [hsum, ← ht]
  rfl

theorem compile_main : ∃ log, compile (main x) (some "main") =
    (.ok (.ofGraph ((registry x).toGraph "main" [⟨2, 0, 0⟩])), log) := by
  refine ⟨(compile (main x) (some "main")).2, Prod.ext ?_ rfl⟩
  have hsymbol : Function.symbol? ⟨[data], sum x, .empty⟩ (some "main") = some "main" := rfl
  rw [compile_of_symbol rfl hsymbol, serialize_sum]
  rfl

/-- One half is read back from the table of constants. -/
theorem half_reread : (document (.ofRatio false 1 2)).build = .ok (main (.ofRatio false 1 2)) ∧
    ∃ compiled log name j, compile (main (.ofRatio false 1 2)) (some "main") =
      (.ok compiled, log) ∧ compiled.paramsJson.field? name = some j ∧
      Draft.readWhole (Tensor.read .streaming) (j.toText false) =
        .ok (.ofSingle (.ofRatio false 1 2)) := by
  have hbuild : (document (.ofRatio false 1 2)).build = .ok (main (.ofRatio false 1 2)) := rfl
  obtain ⟨log, hcompile⟩ := compile_main (.ofRatio false 1 2)
  obtain ⟨f, g, t, ⟨hf, symbol, hsymbol, hserialize⟩, -, hknows, hall⟩ :=
    constants_reread hbuild hcompile
  cases hf
  obtain rfl : "main" = symbol := Option.some.inj hsymbol
  have hreaches : (main (.ofRatio false 1 2)).Reaches (scalar (.ofRatio false 1 2)) :=
    .step (List.mem_append_right _ List.mem_cons_self)
      (.step (List.mem_cons_of_mem _ List.mem_cons_self) (.refl _))
  have hlookup : t.registry.lookup 1 ≠ none := by
    have ht := congrArg Prod.snd (hserialize.symm.trans (serialize_sum _ _))
    rw [show t = _ from ht]
    exact Option.some_ne_none _
  obtain ⟨place, name, j, -, -, hfield, hread⟩ := hall 1 _ ((hknows.known _ hreaches).2 hlookup)
  have hfinite : (Tensor.ofSingle (.ofRatio false 1 2)).elements.isFinite = true := by decide
  refine ⟨hbuild, _, log, name, j, hcompile, hfield, ?_⟩
  rw [hread, if_pos hfinite]

/-- A literal beyond the largest number of 32 bits. -/
def text : String :=
  "[[[\"var\",\"x\"],[\"constant\",[[],\x7b\"f32\":[1e39]\x7d]],[\"call\",\"add\",null,[0,1]]," ++
    "[\"function\",[0],2]],3]"

/-- It is loaded without bounds, and there is nothing in its place in the table of constants. -/
theorem infinite_not_reread : Document.parse text = .ok (document (.infinite false)) ∧
    (document (.infinite false)).build = .ok (main (.infinite false)) ∧
    ∃ compiled log j, compile (main (.infinite false)) (some "main") = (.ok compiled, log) ∧
      compiled.params = [("main_const_0", .ofSingle (.infinite false))] ∧
      compiled.paramsJson.field? "main_const_0" = some j ∧
      j = .record [("data", .record [("f32", .list [.null])]), ("shape", .list [])] ∧
      ∀ pass indented, Draft.readWhole (Tensor.read pass) (j.toText indented) =
        .error (.mismatch (.type .null "f32")) := by
  obtain ⟨log, hcompile⟩ := compile_main (.infinite false)
  have hspelled := (Tensor.ofSingle (.infinite false)).spelled_canonical
  refine ⟨by decide +kernel, rfl, _, log, _, hcompile, rfl, rfl, rfl, fun pass indented => ?_⟩
  rw [Draft.readWhole_toText hspelled, Tensor.read_canonical]
  rfl

end Scalar

end KernelGraph
