import KernelGraph.Attribute.Json
import KernelGraph.Proofs.Reading

/-!
Attributes that were written and read back. A value is written without its kind, so it may be read
as another one that is written alike (`AttrValue.normal`): an element type as the text of its name,
and an empty list of any kind as one of integers. A set comes back sorted by name
(`Attributes.normal`). What is read back is written as before, and is read back as it is.
-/

namespace KernelGraph

open Decimal

namespace AttrValue

/-- The value that is read back where this one was written. -/
def normal : AttrValue → AttrValue
  | dtype t => text t.shortName
  | floats [] | texts [] | grid [] => ints []
  | v => v

/-- The floating-point numbers in a value. -/
def doubles : AttrValue → List Double
  | float x => [x]
  | floats xs => xs
  | _ => []

/-- The text of every floating-point number stands for it. -/
def Reproduced (v : AttrValue) : Prop := ∀ x ∈ v.doubles, (Number.double x).Reproduced

theorem toJson_normal (v : AttrValue) : v.normal.toJson = v.toJson := by
  unfold normal
  split <;> rfl

theorem normal_normal (v : AttrValue) : v.normal.normal = v.normal := by
  cases v with
  | floats xs => cases xs <;> rfl
  | texts ss => cases ss <;> rfl
  | grid rows => cases rows <;> rfl
  | _ => rfl

end AttrValue

/-- A number whose text stands for it is finite. -/
theorem Number.Reproduced.isFinite {x : Double} (h : (Number.double x).Reproduced) :
    x.isFinite := by
  obtain ⟨n, -, hn⟩ := h
  unfold Numeral.toNumber? at hn
  split at hn
  · cases hn
  · dsimp only at hn
    split at hn
    · rename_i hfinite
      cases hn
      exact hfinite
    · cases hn

namespace AttrValue

/-! ### Text -/

theorem legible_ints (ns : List Int64) :
    (Json.list (ns.map fun n => .whole n.toInt)).Legible 1 :=
  .list (List.forall_mem_map.2 fun n _ => .number 0 (Number.reproduced_whole
    (Draft.isWord_of_le n.minValue_le_toInt n.toInt_le (by decide) (by decide))))

theorem legible_toJson {v : AttrValue} (h : v.Reproduced) : v.toJson.Legible 2 := by
  cases v with
  | bool b => exact .bool 2 b
  | int n =>
      exact .number 2 (Number.reproduced_whole
        (Draft.isWord_of_le n.minValue_le_toInt n.toInt_le (by decide) (by decide)))
  | float x => exact .number 2 (h x List.mem_cons_self)
  | text s => exact .text 2 s
  | ints ns => exact (legible_ints ns).mono (by decide)
  | floats xs => exact .list (List.forall_mem_map.2 fun x hx => .number 1 (h x hx))
  | texts ss => exact .list (List.forall_mem_map.2 fun s _ => .text 1 s)
  | grid rows => exact .list (List.forall_mem_map.2 fun row _ => legible_ints row)
  | dtype t => exact .text 2 t.shortName

theorem canonical_list (items : List Json) (h : ∀ item ∈ items, item.canonical = item) :
    (Json.list items).canonical = .list items := by
  rw [Json.canonical, Json.canonicalItems_eq_map, List.map_congr_left h, List.map_id'']
  exact fun _ => rfl

/-- A value is written in canonical form. -/
theorem canonical_toJson {v : AttrValue} (h : v.Reproduced) : v.toJson.canonical = v.toJson := by
  have hdouble : ∀ x ∈ v.doubles, (Json.number (.double x)).canonical = .number (.double x) :=
    fun x hx => if_pos (h x hx).isFinite
  cases v with
  | bool | int | text | dtype => rfl
  | float x => exact hdouble x List.mem_cons_self
  | ints ns => exact canonical_list _ (List.forall_mem_map.2 fun _ _ => rfl)
  | floats xs => exact canonical_list _ (List.forall_mem_map.2 fun x hx => hdouble x hx)
  | texts ss => exact canonical_list _ (List.forall_mem_map.2 fun _ _ => rfl)
  | grid rows =>
      exact canonical_list _ (List.forall_mem_map.2 fun row _ =>
        canonical_list _ (List.forall_mem_map.2 fun _ _ => rfl))

/-! ### Reading -/

theorem intOf?_whole (n : Int64) : intOf? (.whole n.toInt) = some n := by
  have hrange := And.intro n.minValue_le_toInt n.toInt_le
  calc intOf? (.whole n.toInt) = some (.ofInt n.toInt) := if_pos hrange
    _ = some n := by rw [Int64.ofInt_toInt]

theorem listOf?_map {α : Type} {f : α → Json} (item : Json → Option α)
    (h : ∀ x, item (f x) = some x) (xs : List α) :
    listOf? item (.list (xs.map f)) = some xs := by
  show (xs.map f).mapM item = some xs
  induction xs with
  | nil => rfl
  | cons x xs ih =>
      rw [List.map_cons, List.mapM_cons, h, ih]
      rfl

/-- A list is not read as one of items whose first item is none of them. -/
theorem listOf?_cons {α : Type} {item : Json → Option α} {j : Json} (h : item j = none)
    (js : List Json) : listOf? item (.list (j :: js)) = none := by
  show (j :: js).mapM item = none
  rw [List.mapM_cons, h]
  rfl

theorem ofJson?_list (items : List Json) : ofJson? (.list items) =
    (ints <$> listOf? intOf? (.list items) <|> floats <$> listOf? floatOf? (.list items) <|>
      texts <$> listOf? textOf? (.list items) <|>
      grid <$> listOf? (listOf? intOf?) (.list items)) := rfl

/-- A value is read back as its normal form: as the first kind that fits what was written. -/
theorem ofJson?_toJson (v : AttrValue) : ofJson? v.toJson = some v.normal := by
  cases v with
  | bool | text | dtype | float => rfl
  | int n =>
      show (int <$> intOf? (.whole n.toInt) <|> _) = _
      rw [intOf?_whole]
      rfl
  | ints ns =>
      rw [toJson, ofJson?_list, listOf?_map intOf? intOf?_whole]
      rfl
  | floats xs =>
      cases xs with
      | nil => rfl
      | cons x xs =>
          have hfloats := listOf?_map (f := fun x => .number (.double x)) floatOf? (fun _ => rfl)
            (x :: xs)
          rw [List.map_cons] at hfloats
          rw [toJson, List.map_cons, ofJson?_list, listOf?_cons rfl, hfloats]
          rfl
  | texts ss =>
      cases ss with
      | nil => rfl
      | cons s ss =>
          have htexts := listOf?_map (f := .text) textOf? (fun _ => rfl) (s :: ss)
          rw [List.map_cons] at htexts
          rw [toJson, Json.texts, List.map_cons, ofJson?_list, listOf?_cons rfl, listOf?_cons rfl,
            htexts]
          rfl
  | grid rows =>
      cases rows with
      | nil => rfl
      | cons row rows =>
          have hrows := listOf?_map (listOf? intOf?)
            (fun row : List Int64 => listOf?_map intOf? intOf?_whole row) (row :: rows)
          rw [List.map_cons] at hrows
          rw [toJson, List.map_cons, ofJson?_list, listOf?_cons rfl, listOf?_cons rfl,
            listOf?_cons rfl, hrows]
          rfl

theorem read_toJson {v : AttrValue} (h : v.Reproduced) {depth : Nat} (hdepth : 2 ≤ depth) :
    read depth v.toJson.draft = .ok v.normal := by
  rw [read, Json.Legible.toJson?_draft ((legible_toJson h).mono hdepth)]
  dsimp only
  rw [ofJson?_toJson]

end AttrValue

namespace Attributes

/-- The set that is read back where this one was written. -/
def normal (as : Attributes) : Attributes :=
  ⟨SortedTable.ofList (as.items.map fun (name, value) => (name, value.normal))⟩

/-- The text of every floating-point number stands for it. -/
def Reproduced (as : Attributes) : Prop := ∀ item ∈ as.items, item.2.Reproduced

/-- The fields of the record that is written. -/
def jsonFields (as : Attributes) : List (String × Json) :=
  (SortedTable.ofList as.items).map fun (name, value) => (name, value.toJson)

theorem toJson_eq (as : Attributes) : as.toJson = .record as.jsonFields := by
  rw [toJson, SortedTable.ofList_map, jsonFields]

theorem sorted_jsonFields (as : Attributes) : SortedTable.Sorted as.jsonFields := by
  rw [jsonFields, ← SortedTable.ofList_map]
  exact SortedTable.sorted_ofList _

theorem forall_mem_jsonFields {as : Attributes} (h : as.Reproduced) {P : Json → Prop}
    (hvalue : ∀ {v : AttrValue}, v.Reproduced → P v.toJson) :
    ∀ field ∈ as.jsonFields, P field.2 :=
  List.forall_mem_map.2 fun item hitem =>
    hvalue (h item (SortedTable.mem_of_mem_ofList hitem))

theorem normal_eq (as : Attributes) : as.normal.items =
    (SortedTable.ofList as.items).map fun (name, value) => (name, value.normal) :=
  SortedTable.ofList_map AttrValue.normal as.items

theorem sorted_normal (as : Attributes) : SortedTable.Sorted as.normal.items :=
  SortedTable.sorted_ofList _

/-- What is read back is written as before. -/
theorem toJson_normal (as : Attributes) : as.normal.toJson = as.toJson := by
  rw [toJson_eq, toJson_eq, jsonFields, jsonFields, SortedTable.ofList_eq_self as.sorted_normal,
    normal_eq, List.map_map]
  congr 1
  apply List.map_congr_left
  rintro ⟨name, value⟩ _
  exact congrArg (name, ·) value.toJson_normal

/-- What is read back is read back as it is. -/
theorem normal_normal (as : Attributes) : as.normal.normal = as.normal := by
  have hvalues : ∀ item ∈ as.normal.items, item.2.normal = item.2 := by
    rw [normal_eq]
    exact List.forall_mem_map.2 fun item _ => item.2.normal_normal
  rw [normal, map_snd_eq_self hvalues, SortedTable.ofList_eq_self as.sorted_normal]

/-- The set is sorted by name, and has what it had before. -/
theorem perm_normal {as : Attributes} (h : as.names.Nodup) :
    as.normal.items.Perm (as.items.map fun (name, value) => (name, value.normal)) := by
  apply SortedTable.perm_ofList
  rw [List.map_map]
  exact h

theorem isEmpty_normal (as : Attributes) : as.normal.isEmpty = as.isEmpty := by
  rw [Bool.eq_iff_iff, isEmpty, isEmpty, List.isEmpty_iff, List.isEmpty_iff, normal,
    SortedTable.ofList_eq_nil_iff, List.map_eq_nil_iff]

theorem legible_toJson {as : Attributes} (h : as.Reproduced) : as.toJson.Legible 3 := by
  rw [toJson_eq]
  exact .record (forall_mem_jsonFields h AttrValue.legible_toJson)

theorem canonical_toJson {as : Attributes} (h : as.Reproduced) :
    as.toJson.canonical = as.toJson := by
  have hvalues : ∀ field ∈ as.jsonFields, field.2.canonical = field.2 :=
    forall_mem_jsonFields (P := fun j => j.canonical = j) h AttrValue.canonical_toJson
  rw [toJson_eq, Json.canonical, Json.canonicalFields_eq_map, map_snd_eq_self hvalues,
    SortedTable.ofList_eq_self as.sorted_jsonFields]

theorem mapM_fieldDrafts {items : List (String × AttrValue)}
    (h : ∀ item ∈ items, item.2.Reproduced) {depth : Nat} (hdepth : 2 ≤ depth) :
    (Json.fieldDrafts (items.map fun (name, value) => (name, value.toJson))).mapM
      (fun (name, d) => do
        let name ← name.fieldName
        let value ← AttrValue.read depth d
        .ok (name, value)) =
      (.ok (items.map fun (name, value) => (name, value.normal)) : Read _) := by
  induction items with
  | nil => rfl
  | cons item items ih =>
      obtain ⟨hitem, hrest⟩ := List.forall_mem_cons.1 h
      rw [List.map_cons, Json.fieldDrafts, List.mapM_cons, ih hrest]
      dsimp only [Draft.fieldName]
      rw [AttrValue.read_toJson hitem hdepth]
      rfl

theorem read_toJson {as : Attributes} (h : as.Reproduced) {depth : Nat} (hdepth : 2 ≤ depth) :
    read depth as.toJson.draft = .ok as.normal := by
  have hsorted : ∀ item ∈ SortedTable.ofList as.items, item.2.Reproduced := fun item hitem =>
    h item (SortedTable.mem_of_mem_ofList hitem)
  have hall := mapM_fieldDrafts hsorted hdepth
  rw [toJson_eq, jsonFields, Json.draft, read, hall, ← normal_eq]
  show (.ok ⟨SortedTable.ofList as.normal.items⟩ : Read Attributes) = _
  rw [SortedTable.ofList_eq_self as.sorted_normal]

end Attributes

end KernelGraph
