import KernelGraph.Document.Json
import KernelGraph.Proofs.Mapping
import KernelGraph.Proofs.Normal

/-!
Documents are read back from their text, compact or indented. What comes back has the attributes in
their normal form and is the same otherwise (`Document.normal`), so it is written as before, and it
stands for the same expression or is none for the same reason.
-/

namespace KernelGraph

open Decimal

namespace Record

/-- The record with attributes in normal form. -/
def normal : Record → Record
  | var name type => var name type
  | constant value => constant value
  | call op callee args attrs => call op callee args attrs.normal
  | function params body attrs => function params body attrs.normal

def attrs : Record → Attributes
  | var .. | constant .. => .empty
  | call _ _ _ attrs | function _ _ attrs => attrs

/-- Places are words, and the text of every floating-point number stands for it. -/
structure Reproduced (r : Record) : Prop where
  references : ∀ place ∈ r.references, place < UInt64.size
  attrs : r.attrs.Reproduced
  elements : ∀ value, r = .constant value → value.elements.Reproduced

/-! ### Canonical form -/

/-- The attributes of a record that are written. -/
def writtenAttrs (attrs : Attributes) : Option Attributes :=
  if attrs.isEmpty then none else some attrs

theorem attrsField_eq (attrs : Attributes) :
    attrsField attrs = optionalField "attrs" Attributes.toJson (writtenAttrs attrs) := by
  rw [attrsField, writtenAttrs]
  cases attrs.isEmpty <;> rfl

/-- The fields of a record, its kind apart, sorted by name: those before the kind and those after
it. -/
def sortedFields : Record → List (String × Json) × List (String × Json)
  | var name type => ([], ("name", .text name) :: optionalField "ty" TensorType.toJson type)
  | constant value => ([], [("tensor", value.canonicalJson)])
  | call op callee args attrs =>
    (("args", placesToJson args) :: optionalField "attrs" Attributes.toJson (writtenAttrs attrs)
      ++ optionalField "callee" (fun (n : Nat) => .whole n) callee, optionalField "op" .text op)
  | function params body attrs =>
    (optionalField "attrs" Attributes.toJson (writtenAttrs attrs) ++ [("body", .whole body)],
      [("params", placesToJson params)])

def kind : Record → Kind
  | var .. => .var
  | constant .. => .constant
  | call .. => .call
  | function .. => .function

def Kind.name : Kind → String
  | var => "var"
  | constant => "constant"
  | call => "call"
  | function => "function"

theorem canonical_placesToJson (places : List Nat) :
    (placesToJson places).canonical = placesToJson places :=
  AttrValue.canonical_list _ (List.forall_mem_map.2 fun _ _ => rfl)

theorem map_optionalField {α : Type} {name : String} {value : α → Json} {x : Option α}
    (h : ∀ y, x = some y → (value y).canonical = value y) :
    (optionalField name value x).map (fun (name, value) => (name, value.canonical)) =
      optionalField name value x := by
  cases x with
  | none => rfl
  | some y => exact congrArg (fun j => [(name, j)]) (h y rfl)

theorem ofList_var {α : Type} {kind name : Json} (value : α → Json) (type : Option α) :
    SortedTable.ofList (("kind", kind) :: ("name", name) :: optionalField "ty" value type) =
      ("kind", kind) :: ("name", name) :: optionalField "ty" value type := by
  cases type <;> rfl

theorem ofList_call {α β γ : Type} {kind args : Json} (f : α → Json) (g : β → Json)
    (h : γ → Json) (op : Option α) (callee : Option β) (attrs : Option γ) :
    SortedTable.ofList (("kind", kind) :: optionalField "op" f op ++ optionalField "callee" g callee
        ++ ("args", args) :: optionalField "attrs" h attrs) =
      ("args", args) :: optionalField "attrs" h attrs ++ optionalField "callee" g callee
        ++ ("kind", kind) :: optionalField "op" f op := by
  cases op <;> cases callee <;> cases attrs <;> rfl

theorem ofList_function {α : Type} {kind params body : Json} (value : α → Json)
    (attrs : Option α) :
    SortedTable.ofList (("kind", kind) :: ("params", params) :: ("body", body)
        :: optionalField "attrs" value attrs) =
      optionalField "attrs" value attrs
        ++ [("body", body), ("kind", kind), ("params", params)] := by
  cases attrs <;> rfl

theorem canonical_writtenAttrs {attrs : Attributes} (h : attrs.Reproduced) :
    ∀ as, writtenAttrs attrs = some as → as.toJson.canonical = as.toJson := by
  intro as has
  rw [writtenAttrs] at has
  split at has
  · cases has
  · cases has
    exact Attributes.canonical_toJson h

/-- The canonical form of a record. -/
def canonicalJson (r : Record) : Json :=
  .record (r.sortedFields.1 ++ ("kind", .text r.kind.name) :: r.sortedFields.2)

theorem canonical_toJson {r : Record} (h : r.Reproduced) :
    r.toJson.canonical = r.canonicalJson := by
  have hrecord : ∀ fields : List (String × Json), (Json.record fields).canonical =
      .record (SortedTable.ofList (fields.map fun (name, value) => (name, value.canonical))) :=
    fun fields => by rw [Json.canonical, Json.canonicalFields_eq_map]
  cases r with
  | var name type =>
      rw [toJson, hrecord, List.map_cons, List.map_cons,
        map_optionalField fun t _ => t.canonical_toJson]
      exact congrArg Json.record (ofList_var _ type)
  | constant value =>
      rw [toJson, hrecord, List.map_cons, List.map_cons]
      dsimp only
      rw [Tensor.canonical_toJson (h.elements value rfl)]
      rfl
  | call op callee args attrs =>
      have hattrs : attrs.Reproduced := h.attrs
      rw [toJson, hrecord, List.map_append, List.map_append, List.map_cons, List.map_cons,
        map_optionalField fun _ _ => rfl, map_optionalField fun _ _ => rfl, attrsField_eq,
        map_optionalField (canonical_writtenAttrs hattrs)]
      dsimp only
      rw [canonical_placesToJson]
      exact congrArg Json.record (ofList_call _ _ _ op callee (writtenAttrs attrs))
  | function params body attrs =>
      have hattrs : attrs.Reproduced := h.attrs
      rw [toJson, hrecord, List.map_cons, List.map_cons, List.map_cons, attrsField_eq,
        map_optionalField (canonical_writtenAttrs hattrs)]
      dsimp only
      rw [canonical_placesToJson]
      refine (congrArg Json.record (ofList_function _ (writtenAttrs attrs))).trans ?_
      rw [canonicalJson, sortedFields, List.append_assoc]
      rfl

theorem forall_mem_optionalField {α : Type} {P : String × Json → Prop} {name : String}
    {value : α → Json} {x : Option α} (h : ∀ y, x = some y → P (name, value y)) :
    ∀ field ∈ optionalField name value x, P field := by
  cases x with
  | none => exact fun _ hmem => by cases hmem
  | some y => exact List.forall_mem_singleton.2 (h y rfl)

theorem legible_placesToJson {places : List Nat} (h : ∀ place ∈ places, place < UInt64.size) :
    (placesToJson places).Legible 1 :=
  .list (List.forall_mem_map.2 fun place hplace =>
    .number 0 (Number.reproduced_whole (Draft.isWord_natCast (h place hplace))))

theorem legible_whole {place : Nat} (h : place < UInt64.size) (depth : Nat) :
    (Json.whole place).Legible depth :=
  .number depth (Number.reproduced_whole (Draft.isWord_natCast h))

theorem legible_writtenAttrs {attrs : Attributes} (h : attrs.Reproduced) :
    ∀ as, writtenAttrs attrs = some as → as.toJson.Legible 3 := by
  intro as has
  rw [writtenAttrs] at has
  split at has
  · cases has
  · cases has
    exact Attributes.legible_toJson h

/-- A field that is not the kind, and that can be read. -/
def IsPlain (field : String × Json) : Prop := field.1 ≠ "kind" ∧ field.2.Legible 3

theorem IsPlain.mk {name : String} {j : Json} (hname : name ≠ "kind") (h : j.Legible 3) :
    IsPlain (name, j) := ⟨hname, h⟩

theorem isPlain_sortedFields {r : Record} (h : r.Reproduced) :
    (∀ field ∈ r.sortedFields.1, IsPlain field) ∧ ∀ field ∈ r.sortedFields.2, IsPlain field := by
  cases r with
  | var name type =>
      constructor
      · exact fun _ hmem => by cases hmem
      · exact List.forall_mem_cons.2 ⟨.mk (by decide) (.text 3 name),
          forall_mem_optionalField fun t _ => .mk (by decide) (t.legible_toJson.mono (by decide))⟩
  | constant value =>
      constructor
      · exact fun _ hmem => by cases hmem
      · exact List.forall_mem_singleton.2
          (.mk (by decide) (Tensor.legible_canonicalJson (h.elements value rfl)))
  | call op callee args attrs =>
      obtain ⟨hcallee, hargs⟩ := List.forall_mem_append.1 h.references
      have hattrs : ∀ field ∈ optionalField "attrs" Attributes.toJson (writtenAttrs attrs),
          IsPlain field := forall_mem_optionalField fun as has =>
        .mk (by decide) (legible_writtenAttrs h.attrs as has)
      constructor
      · refine List.forall_mem_append.2 ⟨List.forall_mem_cons.2 ⟨?_, hattrs⟩, ?_⟩
        · exact .mk (by decide) ((legible_placesToJson hargs).mono (by decide))
        · exact forall_mem_optionalField fun place hplace =>
            .mk (by decide) (legible_whole (hcallee place (Option.mem_toList.2 hplace)) 3)
      · exact forall_mem_optionalField fun s _ => .mk (by decide) (.text 3 s)
  | function params body attrs =>
      obtain ⟨hparams, hbody⟩ := List.forall_mem_append.1 h.references
      have hattrs : ∀ field ∈ optionalField "attrs" Attributes.toJson (writtenAttrs attrs),
          IsPlain field := forall_mem_optionalField fun as has =>
        .mk (by decide) (legible_writtenAttrs h.attrs as has)
      constructor
      · refine List.forall_mem_append.2 ⟨hattrs, List.forall_mem_singleton.2 ?_⟩
        exact .mk (by decide) (legible_whole (hbody body List.mem_cons_self) 3)
      · exact List.forall_mem_singleton.2
          (.mk (by decide) ((legible_placesToJson hparams).mono (by decide)))

/-! ### Reading -/

theorem fieldDrafts_append (fields others : List (String × Json)) :
    Json.fieldDrafts (fields ++ others) = Json.fieldDrafts fields ++ Json.fieldDrafts others := by
  rw [Json.fieldDrafts_eq_map, Json.fieldDrafts_eq_map, Json.fieldDrafts_eq_map, List.map_append]

/-- Fields that are not the kind are taken in as they are. -/
theorem takeInFields_append {depth : Nat} (hdepth : 3 ≤ depth) {fields : List (String × Json)}
    (h : ∀ field ∈ fields, IsPlain field) (kind : Option Kind) (rest : List (Draft × Draft)) :
    takeInFields depth kind (Json.fieldDrafts fields ++ rest) = (do
      let (kind, rest) ← takeInFields depth kind rest
      .ok (kind, Json.fieldDrafts fields ++ rest)) := by
  induction fields with
  | nil => exact (bind_pure _).symm
  | cons field fields ih =>
      obtain ⟨name, j⟩ := field
      obtain ⟨⟨hname, hj⟩, hfields⟩ := List.forall_mem_cons.1 h
      have htaken : takeIn depth j.draft = .ok () := by
        rw [takeIn, Json.Legible.toJson?_draft (hj.mono hdepth)]
        rfl
      calc takeInFields depth kind ((.text (some name), j.draft) ::
            (Json.fieldDrafts fields ++ rest))
          = (if name = "kind" then do
              takeInFields depth (← Draft.fill "kind" kind (Kind.read j.draft))
                (Json.fieldDrafts fields ++ rest)
            else do
              takeIn depth j.draft
              let (kind, rest) ← takeInFields depth kind (Json.fieldDrafts fields ++ rest)
              .ok (kind, (.text (some name), j.draft) :: rest)) := by
            rw [takeInFields]
            rfl
        _ = (do
              let (kind, rest) ← takeInFields depth kind (Json.fieldDrafts fields ++ rest)
              .ok (kind, (.text (some name), j.draft) :: rest)) := by
            rw [if_neg hname, htaken]
            rfl
        _ = _ := by
            rw [ih hfields]
            cases takeInFields depth kind rest <;> rfl

theorem read_kind (k : Kind) : Kind.read (.text (some k.name)) = .ok k := by
  cases k <;> rfl

/-- A record is read by its kind, wherever the kind stands. -/
theorem read_record {depth : Nat} (hdepth : 3 ≤ depth) {before rest : List (String × Json)}
    (hbefore : ∀ field ∈ before, IsPlain field) (hrest : ∀ field ∈ rest, IsPlain field)
    (k : Kind) :
    read depth (Json.record (before ++ ("kind", .text k.name) :: rest)).draft =
      readFields depth k (Json.record (before ++ rest)).draft := by
  have hlast : takeInFields depth (some k) (Json.fieldDrafts rest) =
      .ok (some k, Json.fieldDrafts rest) := by
    have happend := takeInFields_append hdepth hrest (some k) []
    rw [List.append_nil] at happend
    rw [happend, takeInFields]
    show Except.ok (some k, Json.fieldDrafts rest ++ []) = _
    rw [List.append_nil]
  have hkind : takeInFields depth none
      ((.text (some "kind"), .text (some k.name)) :: Json.fieldDrafts rest) =
        .ok (some k, Json.fieldDrafts rest) := by
    calc takeInFields depth none
          ((.text (some "kind"), .text (some k.name)) :: Json.fieldDrafts rest)
        = (do
            let k ← some <$> Kind.read (.text (some k.name))
            takeInFields depth k (Json.fieldDrafts rest)) := by
          rw [takeInFields]
          rfl
      _ = .ok (some k, Json.fieldDrafts rest) := by
          rw [read_kind]
          exact hlast
  rw [Json.draft, fieldDrafts_append, Json.fieldDrafts, Json.draft, read,
    takeInFields_append hdepth hbefore, hkind, Json.draft, fieldDrafts_append]
  rfl

theorem readPlaces_placesToJson {places : List Nat}
    (h : ∀ place ∈ places, place < UInt64.size) :
    readPlaces (placesToJson places).draft = .ok places :=
  Draft.readList_self Draft.readSize fun place hplace => Draft.readSize_whole (h place hplace)

theorem normal_of_isEmpty {attrs : Attributes} (h : attrs.isEmpty) : attrs.normal = .empty := by
  have hitems : attrs.items = [] := List.isEmpty_iff.1 h
  rw [Attributes.normal, hitems]
  rfl

/-- What is read of the attributes that are written. -/
theorem getD_writtenAttrs (attrs : Attributes) :
    ((writtenAttrs attrs).map Attributes.normal).getD .empty = attrs.normal := by
  rw [writtenAttrs]
  split
  · rename_i hempty
    exact (normal_of_isEmpty hempty).symm
  · rfl

theorem read_writtenAttrs {attrs : Attributes} (h : attrs.Reproduced) {depth : Nat}
    (hdepth : 2 ≤ depth) : ∀ as, writtenAttrs attrs = some as →
      Attributes.read depth as.toJson.draft = .ok as.normal := by
  intro as has
  rw [writtenAttrs] at has
  split at has
  · cases has
  · cases has
    exact Attributes.read_toJson h hdepth

theorem readOptional_of_ne {α : Type} {item : Draft → Read α} {d : Draft} {x : α}
    (hd : d ≠ .null) (h : item d = .ok x) : d.readOptional item = .ok (some x) := by
  unfold Draft.readOptional
  split
  · exact absurd rfl hd
  · rw [h]
    rfl

/-- The fields of a record are read back. -/
theorem readFields_sortedFields {r : Record} (h : r.Reproduced) {depth : Nat} (hdepth : 3 ≤ depth) :
    readFields depth r.kind (Json.record (r.sortedFields.1 ++ r.sortedFields.2)).draft =
      .ok r.normal := by
  cases r with
  | var name type =>
      cases type with
      | none => rfl
      | some t =>
          have htype : t.toJson.draft.readOptional (TensorType.read .buffered) = .ok (some t) :=
            readOptional_of_ne (by rintro ⟨⟩) (t.read_toJson .buffered)
          rw [readFields, sortedFields, optionalField, List.nil_append, Draft.read_record rfl]
          simp only [List.foldlM, readField, Draft.fill, htype]
          rfl
  | constant value =>
      have hvalue := Tensor.read_canonicalJson (h.elements value rfl) .buffered
      rw [readFields, sortedFields, List.nil_append, Draft.read_record rfl]
      simp only [List.foldlM, readField, Draft.fill, hvalue]
      rfl
  | call op callee args attrs =>
      obtain ⟨hcallee, hargs⟩ := List.forall_mem_append.1 h.references
      have hreadArgs := readPlaces_placesToJson hargs
      have hattrs : attrs.Reproduced := h.attrs
      have hreadAttrs := read_writtenAttrs hattrs (show 2 ≤ depth - 1 by omega)
      have hreadCallee : ∀ place, callee = some place →
          Draft.readOptional Draft.readSize (Json.whole place).draft = .ok (some place) :=
        fun place hplace => readOptional_of_ne (by rintro ⟨⟩)
          (Draft.readSize_whole (hcallee place (Option.mem_toList.2 hplace)))
      rw [normal, ← getD_writtenAttrs attrs, readFields, sortedFields]
      generalize writtenAttrs attrs = attrs at hreadAttrs
      cases op <;> cases callee <;> cases attrs
      all_goals
        simp only [optionalField, List.cons_append, List.nil_append]
        rw [Draft.read_record rfl]
        simp only [List.foldlM, readField, Draft.fill, hreadArgs, hreadAttrs, hreadCallee]
        rfl
  | function params body attrs =>
      obtain ⟨hparams, hbody⟩ := List.forall_mem_append.1 h.references
      have hreadParams := readPlaces_placesToJson hparams
      have hreadBody := Draft.readSize_whole (hbody body List.mem_cons_self)
      have hattrs : attrs.Reproduced := h.attrs
      have hreadAttrs := read_writtenAttrs hattrs (show 2 ≤ depth - 1 by omega)
      rw [normal, ← getD_writtenAttrs attrs, readFields, sortedFields]
      generalize writtenAttrs attrs = attrs at hreadAttrs
      cases attrs
      all_goals
        simp only [optionalField, List.cons_append, List.nil_append]
        rw [Draft.read_record rfl]
        simp only [List.foldlM, readField, Draft.fill, hreadParams, hreadBody, hreadAttrs]
        rfl

theorem legible_canonicalJson {r : Record} (h : r.Reproduced) : r.canonicalJson.Legible 4 := by
  obtain ⟨hbefore, hrest⟩ := isPlain_sortedFields h
  refine .record (List.forall_mem_append.2 ⟨fun field hfield => (hbefore field hfield).2, ?_⟩)
  exact List.forall_mem_cons.2 ⟨.text 3 _, fun field hfield => (hrest field hfield).2⟩

/-- A record is read back from its canonical form. -/
theorem read_canonicalJson {r : Record} (h : r.Reproduced) {depth : Nat} (hdepth : 3 ≤ depth) :
    read depth r.canonicalJson.draft = .ok r.normal := by
  obtain ⟨hbefore, hrest⟩ := isPlain_sortedFields h
  rw [canonicalJson, read_record hdepth hbefore hrest, readFields_sortedFields h hdepth]

theorem toJson_normal (r : Record) : r.normal.toJson = r.toJson := by
  have hattrs : ∀ attrs : Attributes, attrsField attrs.normal = attrsField attrs := fun attrs => by
    rw [attrsField, attrsField, attrs.isEmpty_normal, attrs.toJson_normal]
  cases r with
  | var | constant => rfl
  | call op callee args attrs => rw [normal, toJson, toJson, hattrs]
  | function params body attrs => rw [normal, toJson, toJson, hattrs]

end Record

/-- The expression with attributes in normal form. -/
def Expr.normal (e : Expr) : Expr := e.map (fun id => id) Attributes.normal

namespace Expr

theorem normal_opCall (id : Nat) (op : String) (args : List Expr) (attrs : Attributes) :
    (opCall id op args attrs).normal = .opCall id op (args.map normal) attrs.normal := by
  rw [normal, map]
  rfl

theorem normal_exprCall (id : Nat) (callee : Expr) (args : List Expr) (attrs : Attributes) :
    (exprCall id callee args attrs).normal =
      .exprCall id callee.normal (args.map normal) attrs.normal := by
  conv_lhs => rw [normal, map]
  rfl

theorem normal_function (id : Nat) (params : List Expr) (body : Expr) (attrs : Attributes) :
    (function id params body attrs).normal =
      .function id (params.map normal) body.normal attrs.normal := by
  conv_lhs => rw [normal, map]
  rfl

end Expr

/-! ### What a document stands for -/

theorem Record.resolve_normal (built : List Expr) (child : Nat) :
    resolve (built.map Expr.normal) child = (resolve built child).map Expr.normal := by
  rw [resolve, resolve, List.getElem?_map, List.length_map]
  cases built[child]? <;> rfl

theorem Record.mapM_resolve_normal (built : List Expr) (children : List Nat) :
    children.mapM (resolve (built.map Expr.normal)) =
      (children.mapM (resolve built)).map (List.map Expr.normal) := by
  induction children with
  | nil => rfl
  | cons child children ih =>
      rw [List.mapM_cons, List.mapM_cons, ih, resolve_normal]
      cases resolve built child with
      | error err => rfl
      | ok e => cases children.mapM (resolve built) <;> rfl

theorem Record.checkParams_normal (place : Nat) (params : List Expr) :
    checkParams place (params.map Expr.normal) = checkParams place params := by
  induction params with
  | nil => rfl
  | cons p ps ih =>
      rw [List.map_cons, checkParams, checkParams, ih, Expr.normal, Expr.isVar_map,
        Expr.typeKey_map]

/-- Attributes make no difference to what a record stands for but for themselves. -/
theorem Record.build_normal (built : List Expr) (r : Record) :
    r.normal.build (built.map Expr.normal) = (r.build built).map Expr.normal := by
  cases r with
  | var name type =>
      simp only [normal, build, List.length_map, Except.map, Expr.normal, Expr.map]
  | constant value =>
      rw [normal, build, build, List.length_map]
      cases Tensor.make value.shape value.elements with
      | ok t => simp only [Except.map, Expr.normal, Expr.map]
      | error e => rfl
  | call op callee args attrs =>
      rcases op with _ | op <;> rcases callee with _ | callee
      · simp only [normal, build, List.length_map, Except.map]
      · simp only [normal, build, mapM_resolve_normal, resolve_normal, List.length_map]
        cases resolve built callee with
        | error err => rfl
        | ok callee =>
            cases args.mapM (resolve built) with
            | error err => rfl
            | ok args =>
                exact congrArg Except.ok (Expr.normal_exprCall _ _ _ _).symm
      · simp only [normal, build, mapM_resolve_normal, List.length_map]
        cases args.mapM (resolve built) with
        | error err => rfl
        | ok args =>
            exact congrArg Except.ok (Expr.normal_opCall _ _ _ _).symm
      · simp only [normal, build, List.length_map, Except.map]
  | function params body attrs =>
      simp only [normal, build, mapM_resolve_normal, resolve_normal, List.length_map]
      cases params.mapM (resolve built) with
      | error err => rfl
      | ok params =>
          show (checkParams built.length (params.map Expr.normal) >>= fun _ => _) =
            Except.map _ (checkParams built.length params >>= fun _ => _)
          rw [checkParams_normal]
          cases checkParams built.length params with
          | error err => rfl
          | ok _ =>
              cases resolve built body with
              | error err => rfl
              | ok body =>
                  exact congrArg Except.ok (Expr.normal_function _ _ _ _).symm

namespace Document

/-- The document with attributes in normal form. -/
def normal (d : Document) : Document := ⟨d.records.map Record.normal, d.root⟩

/-- Every record can be read back, and the root is a word. -/
structure Reproduced (d : Document) : Prop where
  root : d.root < UInt64.size
  records : ∀ r ∈ d.records, r.Reproduced

theorem toJson_eq {d : Document} (h : d.Reproduced) : d.toJson =
    .record [("nodes", .list (d.records.map Record.canonicalJson)), ("root", .whole d.root)] := by
  have hsorted : d.toJson = .record [("nodes", .list
      (Json.canonicalItems (d.records.map Record.toJson))), ("root", .whole d.root)] := rfl
  have hrecords : d.records.map (Json.canonical ∘ Record.toJson) =
      d.records.map Record.canonicalJson :=
    List.map_congr_left fun r hr => Record.canonical_toJson (h.records r hr)
  rw [hsorted, Json.canonicalItems_eq_map, List.map_map, hrecords]

theorem legible_toJson {d : Document} (h : d.Reproduced) : d.toJson.Legible 6 := by
  rw [toJson_eq h]
  refine .record (List.forall_mem_cons.2 ⟨.list (List.forall_mem_map.2 fun r hr => ?_), ?_⟩)
  · exact Record.legible_canonicalJson (h.records r hr)
  · exact List.forall_mem_singleton.2 (Record.legible_whole h.root 5)

/-- A document is read back. -/
theorem read_toJson {d : Document} (h : d.Reproduced) : read d.toJson.draft = .ok d.normal := by
  have hrecords : (Json.list (d.records.map Record.canonicalJson)).draft.readList
      (Record.read (maxDepth - 3)) = .ok (d.records.map Record.normal) :=
    Draft.readList_map fun r hr => Record.read_canonicalJson (h.records r hr) (by decide)
  have hroot := Draft.readSize_whole h.root
  rw [toJson_eq h, read, Draft.read_record rfl]
  simp only [List.foldlM, readField, Draft.fill, hrecords, hroot]
  rfl

theorem toJson_normal (d : Document) : d.normal.toJson = d.toJson := by
  have hrecords : d.normal.records.map Record.toJson = d.records.map Record.toJson := by
    rw [normal, List.map_map]
    exact List.map_congr_left fun r _ => r.toJson_normal
  rw [toJson, toJson, hrecords]
  rfl

theorem buildAll_normal (built : List Expr) (rs : List Record) :
    buildAll (built.map Expr.normal) (rs.map Record.normal) =
      (buildAll built rs).map (List.map Expr.normal) := by
  induction rs generalizing built with
  | nil => rfl
  | cons r rs ih =>
      rw [List.map_cons, buildAll, buildAll, Record.build_normal]
      cases r.build built with
      | error err => rfl
      | ok e =>
          have hnext : (built ++ [e]).map Expr.normal = built.map Expr.normal ++ [e.normal] :=
            List.map_append
          show buildAll (built.map Expr.normal ++ [e.normal]) _ = (buildAll (built ++ [e]) rs).map _
          rw [← hnext, ih]

/-- The document stands for the expression in normal form, or is none for the same reason. -/
theorem build_normal (d : Document) : d.normal.build = d.build.map Expr.normal := by
  have hall := buildAll_normal [] d.records
  rw [List.map_nil] at hall
  rw [build, build, normal, hall]
  cases buildAll [] d.records with
  | error err => rfl
  | ok built =>
      simp only [Except.map, bind, Except.bind, List.getElem?_map]
      cases built[d.root]? <;> rfl

theorem parse_eq_ok {d : Document} (h : d.Reproduced) (indented : Bool) :
    parse (d.toJson.toText indented) = .ok d.normal := by
  rw [parse, Draft.readWhole, Draft.ofText_toText (legible_toJson h).spelled]
  dsimp only
  rw [read_toJson h]
  rfl

end Document

/-! A call whose attributes are not in normal form, and a constant of 32 bits. -/

namespace Clip

def half {fmt : Format} : Binary fmt := .ofRatio false 1 2

def document : Document :=
  ⟨[.var "x" none, .constant (.ofSingle half),
    .call (some "clip") none [0, 1]
      ⟨[("out_dtype", .dtype .int8), ("axes", .floats []), ("a_max", .float half)]⟩], 2⟩

def reloaded : Document :=
  ⟨[.var "x" none, .constant (.ofSingle half),
    .call (some "clip") none [0, 1]
      ⟨[("a_max", .float half), ("axes", .ints []), ("out_dtype", .text "i8")]⟩], 2⟩

theorem half_reproduced : (Number.double half).Reproduced :=
  ⟨⟨false, ['0'], ['5'], none⟩, by decide +kernel, by decide +kernel⟩

theorem widen_half : (half : Single).widen = half := by decide +kernel

theorem document_reproduced : document.Reproduced := by
  refine ⟨by decide, List.forall_mem_cons.2 ⟨⟨nofun, nofun, nofun⟩,
    List.forall_mem_cons.2 ⟨⟨nofun, nofun, ?_⟩, List.forall_mem_singleton.2 ⟨?_, ?_, nofun⟩⟩⟩⟩
  · rintro value ⟨⟩
    refine List.forall_mem_singleton.2 ⟨by decide +kernel, ?_⟩
    rw [widen_half]
    exact half_reproduced
  · decide
  · exact List.forall_mem_cons.2 ⟨nofun, List.forall_mem_cons.2 ⟨nofun,
      List.forall_mem_singleton.2 (List.forall_mem_singleton.2 half_reproduced)⟩⟩

end Clip

end KernelGraph
