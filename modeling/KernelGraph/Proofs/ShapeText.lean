import KernelGraph.Proofs.ConstantTable
import KernelGraph.Proofs.Decoding
import KernelGraph.Proofs.Loading
import KernelGraph.Proofs.Reading

/-!
How the encoded form of a graph tells the shapes of variables and constants. An extent is written as
the signed integer of its bits, so a shape is told by its own extents, and can be read back, exactly
if none of them takes all 64 bits (`shapes_encoded`).
-/

namespace KernelGraph

open AttrValue Lowering

/-! ### The texts of a shape -/

namespace Shape

/-- The signed integer that has the bits of an extent. -/
def signed (extent : UInt64) : Int :=
  if extent.toNat < 2 ^ 63 then extent.toNat else extent.toNat - 2 ^ 64

/-- The extents in decimal. -/
def texts (shape : Shape) : List String := shape.map fun extent => toString extent.toNat

/-- The extents in decimal, taken for signed integers. -/
def signedTexts (shape : Shape) : List String := shape.map fun extent => toString (signed extent)

/-- No extent takes all 64 bits. -/
def FitsSigned (shape : Shape) : Prop := ∀ extent ∈ shape, extent.toNat < 2 ^ 63

instance (shape : Shape) : Decidable shape.FitsSigned := List.decidableBAll _ shape

/-- The shape that a row of texts tells, each of which is read as an extent of a document is. -/
def ofRows? : List (List String) → Option Shape
  | [row] => row.mapM fun text => (Draft.readWhole Draft.readSize text).toOption.map UInt64.ofNat
  | _ => none

theorem toInt_toInt64 (extent : UInt64) : extent.toInt64.toInt = signed extent := by
  have hbits : extent.toInt64.toInt = if 2 * extent.toNat < 2 ^ 64 then (extent.toNat : Int)
      else extent.toNat - 2 ^ 64 := BitVec.toInt_eq_toNat_cond extent.toBitVec
  rw [hbits, signed]
  split <;> split <;> omega

theorem signed_of_lt {extent : UInt64} (h : extent.toNat < 2 ^ 63) :
    signed extent = extent.toNat :=
  if_pos h

theorem signed_neg {extent : UInt64} (h : ¬extent.toNat < 2 ^ 63) : signed extent < 0 := by
  have hlt : extent.toNat < 2 ^ 64 := extent.toNat_lt
  rw [signed, if_neg h]
  omega

theorem isWord_signed (extent : UInt64) : isWord (signed extent) := by
  rw [← toInt_toInt64]
  exact Draft.isWord_of_le extent.toInt64.minValue_le_toInt extent.toInt64.toInt_le (by decide)
    (by decide)

/-- The decimal text of a word is read as a size if the word is no negative number. -/
theorem readSize_toString {n : Int} (hword : isWord n) :
    (Draft.readWhole Draft.readSize (toString n)).toOption =
      if 0 ≤ n then some n.toNat else none := by
  have htext : Draft.ofText (toString n) = ⟨(Json.whole n).draft, true⟩ := by
    have h := Draft.ofText_toText (.number 0 (Number.reproduced_whole hword).spelled) false
    exact (String.ofList_toList (s := toString n)) ▸ h
  rw [Draft.readWhole, htext]
  dsimp only
  by_cases hsign : 0 ≤ n
  · have hhigh : n ≤ UInt64.size - 1 := by
      have := (Draft.isWord_iff.1 hword).2
      omega
    rw [if_pos hsign, Draft.readSize, Draft.readInt_whole hword hsign hhigh]
    rfl
  · have hmismatch : (Json.whole n).draft.readInt "usize" 0 (UInt64.size - 1) =
        (Mismatch.value (.number (.whole n)) "usize").raise := by
      rw [Draft.readInt, Json.whole, Draft.found_number (Number.reproduced_whole hword)]
      exact if_neg fun h => hsign h.1
    rw [if_neg hsign, Draft.readSize, hmismatch]
    rfl

theorem signedTexts_eq_texts_iff {shape : Shape} :
    shape.signedTexts = shape.texts ↔ shape.FitsSigned := by
  unfold signedTexts texts FitsSigned
  rw [List.map_inj_left]
  refine forall₂_congr fun extent _ => ⟨fun htext => ?_, fun h => ?_⟩
  · by_contra h
    have hread := readSize_toString (isWord_signed extent)
    have hsize := readSize_toString (Draft.isWord_natCast extent.toNat_lt)
    have hneg := signed_neg h
    rw [if_neg (by omega), htext] at hread
    rw [if_pos (by omega)] at hsize
    exact Option.some_ne_none _ (hsize.symm.trans hread)
  · rw [signed_of_lt h]
    rfl

/-- A shape is read back from its extents as signed integers if these are the extents. -/
theorem ofRows?_signedTexts (shape : Shape) :
    ofRows? [shape.signedTexts] = if shape.FitsSigned then some shape else none := by
  show shape.signedTexts.mapM _ = _
  induction shape with
  | nil => rfl
  | cons extent shape ih =>
      have hread := readSize_toString (isWord_signed extent)
      have hcons : FitsSigned (extent :: shape) ↔ extent.toNat < 2 ^ 63 ∧ FitsSigned shape :=
        List.forall_mem_cons
      rw [signedTexts, List.map_cons, List.mapM_cons, hread]
      by_cases h : extent.toNat < 2 ^ 63
      · rw [signed_of_lt h, if_pos (Int.natCast_nonneg _), Int.toNat_natCast, Option.map_some,
          UInt64.ofNat_toNat]
        rw [signedTexts] at ih
        rw [Option.bind_eq_bind, Option.bind_some, ih]
        by_cases hrest : FitsSigned shape
        · rw [if_pos hrest, if_pos (hcons.2 ⟨h, hrest⟩)]
          rfl
        · rw [if_neg hrest, if_neg fun hall => hrest (hcons.1 hall).2]
          rfl
      · have hneg := signed_neg h
        rw [if_neg (by omega), if_neg fun hall => h (hcons.1 hall).1]
        rfl

theorem ofRows?_eq_some_iff {shape : Shape} :
    ofRows? [shape.signedTexts] = some shape ↔ shape.FitsSigned := by
  rw [ofRows?_signedTexts]
  by_cases h : shape.FitsSigned
  · rw [if_pos h]
    exact ⟨fun _ => h, fun _ => rfl⟩
  · rw [if_neg h]
    exact ⟨nofun, fun hfits => absurd hfits h⟩

end Shape

theorem AttrValue.encode_shapeAttr (shape : Shape) :
    (Node.shapeAttr shape).encode = [shape.signedTexts] := by
  rw [Node.shapeAttr, AttrValue.encode, List.map_map]
  refine congrArg (fun row => [row]) (List.map_congr_left fun extent _ => ?_)
  exact congrArg toString (Shape.toInt_toInt64 extent)

/-! ### Attributes in the encoded form -/

/-- The rows of texts that the encoded form of a graph has for an attribute of the node at a
place. -/
def Json.attrRows? (j : Json) (place : Nat) (name : String) : Option (List (List String)) := do
  let nodes ← listOf? some (← j.field? "nodes")
  let attrs ← (← nodes[place]?).field? "attrs"
  listOf? (listOf? textOf?) (← attrs.field? name)

theorem AttrValue.listOf?_encodedJson (v : AttrValue) :
    listOf? (listOf? textOf?) v.encodedJson = some v.encode :=
  listOf?_map _ (listOf?_map textOf? fun _ => rfl) v.encode

theorem Node.field?_attrs {n : Node} {name : String} {v : AttrValue} (hnames : n.attrs.names.Nodup)
    (hop : n.op ≠ .kernel) (h : n.attrs.get? name = some v) :
    (n.toJson.canonical.field? "attrs").bind (·.field? name) = some v.encodedJson := by
  have hrow : n.encodedAttrs.reverse.lookup name = some v.encodedJson := by
    rw [n.lookup_encodedAttrs hnames, if_neg fun hkernel => hop hkernel.1,
      if_neg fun hkernel => hop hkernel.1, h]
    rfl
  have hsome : n.encodedAttrs ≠ [] := by
    intro hnil
    rw [hnil] at hrow
    cases hrow
  rw [n.field?_toJson.2.2.2, if_neg (by rwa [List.isEmpty_iff]), Option.bind_some,
    Json.field?_canonical, hrow]
  exact congrArg some v.canonical_encodedJson

/-- An attribute of an input or a constant is told by the rows that it is encoded as. -/
theorem Graph.attrRows?_toJson {g : Graph} {place : Nat} {n : Node} {name : String} {v : AttrValue}
    (hn : g.nodes[place]? = some n) (hnames : n.attrs.names.Nodup) (hop : n.op ≠ .kernel)
    (h : n.attrs.get? name = some v) : g.toJson.attrRows? place name = some v.encode := by
  have hitems : listOf? some (.list (g.nodes.map fun n => n.toJson.canonical)) =
      some (g.nodes.map fun n => n.toJson.canonical) := by
    have hself := listOf?_map (f := fun j : Json => j) some (fun _ => rfl)
      (g.nodes.map fun n => n.toJson.canonical)
    rwa [List.map_id'] at hself
  have hplace : (g.nodes.map fun n => n.toJson.canonical)[place]? = some n.toJson.canonical := by
    rw [List.getElem?_map, hn]
    rfl
  obtain ⟨attrs, hattrs, hrow⟩ := Option.bind_eq_some_iff.1 (Node.field?_attrs hnames hop h)
  rw [Json.attrRows?, g.field?_toJson.1]
  simp only [Option.bind_eq_bind, Option.bind_some, hitems, hplace, hattrs, hrow,
    v.listOf?_encodedJson]

/-! ### Variables and constants -/

/-- The shape of a variable that has a type, or of a constant. -/
def Expr.shape? : Expr → Option Shape
  | .var _ _ type => type.map TensorType.shape
  | .constant _ value => some value.shape
  | _ => none

theorem Node.get?_typeAttrs (dtype : DType) (shape : Shape) :
    (typeAttrs dtype shape).get? "shape" = some (shapeAttr shape) := by
  rw [typeAttrs, Attributes.get?_set]
  exact if_pos rfl

theorem Node.nodup_typeAttrs (dtype : DType) (shape : Shape) :
    (typeAttrs dtype shape).names.Nodup := by
  have hempty : Attributes.empty.names.Nodup := List.nodup_nil
  exact Attributes.nodup_names_set (Attributes.nodup_names_set hempty _ _) _ _

/-- The node of what has a shape has the shape among its attributes. -/
theorem Emits.shape {symbol : String} {es : List Expr} {x : Expr} {n : Node} {shape : Shape}
    (h : Emits symbol es x n) (hshape : x.shape? = some shape) :
    n.op ≠ .kernel ∧ n.attrs.names.Nodup ∧ n.attrs.get? "shape" = some (Node.shapeAttr shape) := by
  cases h with
  | input id name type =>
      obtain ⟨t, rfl, rfl⟩ := Option.map_eq_some_iff.1 hshape
      exact ⟨nofun, Node.nodup_typeAttrs _ _, Node.get?_typeAttrs _ _⟩
  | constant id value =>
      cases hshape
      exact ⟨nofun, Node.nodup_typeAttrs _ _, Node.get?_typeAttrs _ _⟩
  | operator => cases hshape
  | fused => cases hshape

/-- Every one of `nodes` that has a shape, and that has a node in a graph that is being built, is
told by the encoded form of the graph with the extents of its shape as signed integers. These are
the extents themselves, and the shape can be read back, exactly if no extent takes all 64 bits. -/
def Lowering.TellsShapes (s : Lowering) (nodes : Expr → Prop) : Prop :=
  ∀ x shape entries, nodes x → x.shape? = some shape → s.registry.lookup x.id = some entries →
    ∃ place, entries = [⟨place, 0, 0⟩] ∧ ∀ symbol heads, ∃ rows,
      (s.registry.toGraph symbol heads).toJson.attrRows? place "shape" = some rows ∧
      rows = [shape.signedTexts] ∧ (rows = [shape.texts] ↔ shape.FitsSigned) ∧
      (Shape.ofRows? rows = some shape ↔ shape.FitsSigned)

theorem Lowering.Emitted.tellsShapes {s : Lowering} {es : List Expr} {nodes : Expr → Prop}
    (h : Emitted s es) (hids : Expr.Unambiguous nodes) (hes : ∀ x ∈ es, nodes x) :
    s.TellsShapes nodes := by
  intro x shape entries hx hshape hlookup
  have hmem : x ∈ es := Walk.mem_of_id_mem hids hes hx (h.table.mem_of_lookup hlookup)
  have hentries : s.registry.lookup x.id = some [⟨x.placeIn es, 0, 0⟩] := h.table.known x hmem
  obtain ⟨n, hn, hemits⟩ := h.exists_node hmem
  obtain ⟨hop, hnames, hattr⟩ := hemits.shape hshape
  rw [hlookup] at hentries
  refine ⟨x.placeIn es, Option.some.inj hentries, fun symbol heads => ⟨[shape.signedTexts], ?_, rfl,
    ?_, Shape.ofRows?_eq_some_iff⟩⟩
  · rw [Graph.attrRows?_toJson (g := s.registry.toGraph symbol heads) hn hnames hop hattr,
      AttrValue.encode_shapeAttr]
  · rw [List.singleton_inj, Shape.signedTexts_eq_texts_iff]

/-- In every graph that a session about the nodes of a document leads to, and in the graph that a
function of a document is lowered to, the shapes of typed variables and of constants are told by
their extents as signed integers, and so by the extents themselves, from which the shape is read
back, exactly if none of them takes all 64 bits. -/
theorem shapes_encoded (d : Document) (root : Expr) (h : d.build = .ok root) :
    (∀ symbol requests, (∀ e ∈ Session.exprs requests, root.Reaches e) →
      (Session.run symbol requests).lowering.TellsShapes root.Reaches) ∧
    ∀ f s g t, root.function? = some f → s.registry = .empty → serialize f s = (.ok g, t) →
      t.TellsShapes root.Reaches ∧ ∃ heads, g = t.registry.toGraph s.symbol heads := by
  have hids : Expr.Unambiguous root.Reaches := Document.unambiguous_of_build h
  constructor
  · intro symbol requests hrequests
    have hamong : ∀ x, Expr.Among (Session.exprs requests) x → root.Reaches x := by
      rintro x ⟨e, he, hx⟩
      exact (hrequests e he).trans hx
    obtain ⟨es, hs, hes, -⟩ := exists_emitted_run hids symbol hamong
    exact hs.tellsShapes hids hes
  · intro f s g t hf hs hserialize
    have hstart : Emitted s [] := by
      refine ⟨.nil, ?_, ⟨fun x hx => (by cases hx), fun id _ => ?_⟩, ?_⟩
      · rw [hs]
        exact .nil
      · rw [hs]
        rfl
      · rw [hs]
        rfl
    have hamong : ∀ x, Expr.Among (f.params ++ [f.body]) x → root.Reaches x := fun _ =>
      Expr.reaches_of_function? hf
    obtain ⟨ht, -, rfl⟩ := hstart.serialize (hids.imp hamong) hserialize
    exact ⟨ht.tellsShapes hids fun x hx => hamong x (f.among_of_mem_order x hx), _, rfl⟩

namespace Wide

/-- A matrix, and a constant of no elements that has the largest extent. -/
def document : Document :=
  ⟨[.var "x" (some ⟨.int8, [1, 3]⟩), .constant ⟨[18446744073709551615, 0], .int8 []⟩,
    .call (some "add") none [0, 1] .empty], 2⟩

def matrix : Expr := .var 0 "x" (some ⟨.int8, [1, 3]⟩)

def vacant : Expr := .constant 1 ⟨[18446744073709551615, 0], .int8 []⟩

def sum : Expr := .opCall 2 "add" [matrix, vacant] .empty

/-- The shape of the matrix is told by its extents and read back. -/
theorem matrix_told : document.build = .ok sum ∧
    (Session.run "main" [.visit matrix]).lowering.registry.lookup 0 = some [⟨0, 0, 0⟩] ∧
    ((Session.run "main" [.visit matrix]).lowering.registry.toGraph "main" []).toJson.attrRows? 0
      "shape" = some [["1", "3"]] ∧
    Shape.ofRows? [["1", "3"]] = some [1, 3] := by
  have hbuild : document.build = .ok sum := rfl
  have hreaches : ∀ e ∈ Session.exprs [.visit matrix], sum.Reaches e :=
    List.forall_mem_singleton.2 (.step List.mem_cons_self (.refl matrix))
  have hlookup : (Session.run "main" [.visit matrix]).lowering.registry.lookup 0 =
      some [⟨0, 0, 0⟩] := by
    show (visit matrix (start "main")).2.registry.lookup 0 = _
    rw [matrix, visit_var rfl]
    rfl
  obtain ⟨place, hplace, hrows⟩ := (shapes_encoded document sum hbuild).1 "main" [.visit matrix]
    hreaches matrix [1, 3] _ (hreaches matrix List.mem_cons_self) rfl hlookup
  obtain ⟨rfl⟩ : 0 = place := by
    cases hplace
    rfl
  obtain ⟨rows, hjson, rfl, -, hback⟩ := hrows "main" []
  exact ⟨hbuild, hlookup, hjson, hback.2 (by decide)⟩

/-- The largest extent is told as minus one, which is no extent. -/
theorem vacant_not_told : document.build = .ok sum ∧ sum.Reaches vacant ∧
    (Session.run "main" [.visit vacant]).lowering.registry.lookup 1 = some [⟨0, 0, 0⟩] ∧
    ((Session.run "main" [.visit vacant]).lowering.registry.toGraph "main" []).toJson.attrRows? 0
      "shape" = some [["-1", "0"]] ∧
    [["-1", "0"]] ≠ [Shape.texts [18446744073709551615, 0]] ∧
    Shape.ofRows? [["-1", "0"]] = none := by
  have hvisit : (Session.run "main" [.visit vacant]).lowering =
      (addConstant 1 ⟨[18446744073709551615, 0], .int8 []⟩ (start "main")).2 := by
    show (visit vacant (start "main")).2 = _
    rw [vacant, visit_constant rfl]
  have hreaches : sum.Reaches vacant :=
    .step (List.mem_cons_of_mem _ List.mem_cons_self) (.refl vacant)
  have hrole : (Node.constant "main_const_0" ⟨[18446744073709551615, 0], .int8 []⟩).op ≠ .kernel :=
    nofun
  rw [hvisit]
  refine ⟨rfl, hreaches, rfl, ?_, by decide, ?_⟩
  · exact Graph.attrRows?_toJson rfl (Node.nodup_typeAttrs _ _) hrole (Node.get?_typeAttrs _ _)
  · exact Shape.ofRows?_signedTexts [18446744073709551615, 0]

end Wide

end KernelGraph
