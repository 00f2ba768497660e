import KernelGraph.Proofs.JsonText
import KernelGraph.Proofs.Rounding
import KernelGraph.Tensor.Json

/-!
Values are read back from what their text says: integers of a kind, lists, the fields of a record,
and from these the types and the values of tensors.
-/

namespace KernelGraph

open Decimal

namespace Draft

/-! ### Numbers, lists and fields -/

theorem found_number {n : Number} (h : n.Reproduced) :
    (Json.number n).draft.found = .ok (.number n) := by
  rw [Json.draft, found, h.toNumber?]

theorem readInt_whole {n low high : Int} (hn : isWord n) (hlow : low ≤ n) (hhigh : n ≤ high)
    (kind : String) : (Json.whole n).draft.readInt kind low high = .ok n := by
  rw [readInt, Json.whole, found_number (Number.reproduced_whole hn)]
  exact if_pos ⟨hlow, hhigh⟩

theorem isWord_iff {n : Int} : isWord n ↔ Int64.minValue.toInt ≤ n ∧ n < UInt64.size := by
  rw [isWord, Bool.and_eq_true, decide_eq_true_eq, decide_eq_true_eq]

theorem isWord_of_le {n low high : Int} (hlow : low ≤ n) (hhigh : n ≤ high)
    (hmin : Int64.minValue.toInt ≤ low) (hmax : high < UInt64.size) : isWord n :=
  isWord_iff.2 ⟨hmin.trans hlow, hhigh.trans_lt hmax⟩

theorem isWord_natCast {n : Nat} (h : n < UInt64.size) : isWord n := by
  have hmin : Int64.minValue.toInt ≤ 0 := by decide
  exact isWord_iff.2 ⟨by omega, Int.ofNat_lt.2 h⟩

theorem readSize_whole {n : Nat} (h : n < UInt64.size) : (Json.whole n).draft.readSize = .ok n := by
  have hhigh : (n : Int) ≤ UInt64.size - 1 := by omega
  rw [readSize, readInt_whole (isWord_natCast h) (Int.natCast_nonneg n) hhigh]
  rfl

theorem readSingle_double {x : Double} (h : (Number.double x).Reproduced) :
    (Json.number (.double x)).draft.readSingle = .ok x.narrow := by
  rw [readSingle, found_number h]
  rfl

/-- A list is read item by item. -/
theorem readList_map {α β : Type} {f : α → Json} {item : Draft → Read β} {g : α → β} {xs : List α}
    (h : ∀ x ∈ xs, item (f x).draft = .ok (g x)) :
    (Json.list (xs.map f)).draft.readList item = .ok (xs.map g) := by
  have hall : (xs.map fun x => (f x).draft).mapM item = .ok (xs.map g) := by
    induction xs with
    | nil => rfl
    | cons x xs ih =>
        obtain ⟨hx, hxs⟩ := List.forall_mem_cons.1 h
        rw [List.map_cons, List.mapM_cons, hx, ih hxs]
        rfl
  rw [Json.draft, Json.itemDrafts_eq_map, List.map_map, readList]
  show (do let ys ← (xs.map fun x => (f x).draft).mapM item; _) = _
  rw [hall]
  rfl

theorem readList_self {α : Type} {f : α → Json} (item : Draft → Read α) {xs : List α}
    (h : ∀ x ∈ xs, item (f x).draft = .ok x) :
    (Json.list (xs.map f)).draft.readList item = .ok xs := by
  have hread := readList_map (g := fun x => x) h
  rwa [List.map_id'' fun _ => rfl] at hread

/-- The integers of a kind are read back, if all of the kind are words. -/
theorem readList_whole {α : Type} (toInt : α → Int) (ofInt : Int → α) {low high : Int}
    (hmin : Int64.minValue.toInt ≤ low) (hmax : high < UInt64.size) (hlow : ∀ v, low ≤ toInt v)
    (hhigh : ∀ v, toInt v ≤ high) (hback : ∀ v, ofInt (toInt v) = v) (kind : String)
    (vs : List α) :
    (Json.list (vs.map fun v => .whole (toInt v))).draft.readList
      (fun d => ofInt <$> d.readInt kind low high) = .ok vs := by
  refine readList_self _ fun v _ => ?_
  have hword := isWord_of_le (hlow v) (hhigh v) hmin hmax
  rw [readInt_whole hword (hlow v) (hhigh v)]
  exact congrArg Except.ok (hback v)

/-- The fields of a record are taken one after the other, if all of them are known. -/
theorem read_record {σ : Type} {f : Fields} {fields : List (String × Json)}
    (h : (fields.map (·.1)).all fun name => f.entries.any (·.1 == name)) (pass : Pass)
    (step : σ → String → Draft → Read σ) (start : σ) :
    f.read pass step start (Json.record fields).draft =
      fields.foldlM (fun acc (name, j) => step acc name j.draft) start := by
  have hfields : f.ofFields pass step start (Json.fieldDrafts fields) =
      fields.foldlM (fun acc (name, j) => step acc name j.draft) start := by
    induction fields generalizing start with
    | nil => rfl
    | cons field fields ih =>
        obtain ⟨name, j⟩ := field
        obtain ⟨hname, hfields⟩ := Bool.and_eq_true_iff.1 h
        calc f.ofFields pass step start (Json.fieldDrafts ((name, j) :: fields))
            = (if f.entries.any (·.1 == name) then step start name j.draft
                else do
                  ensure (pass == .buffered || j.draft.isWellFormed)
                  .ok start) >>= fun acc =>
                f.ofFields pass step acc (Json.fieldDrafts fields) := rfl
          _ = step start name j.draft >>= fun acc =>
                f.ofFields pass step acc (Json.fieldDrafts fields) := by rw [if_pos hname]
          _ = _ := bind_congr fun acc => ih hfields acc
  rw [Json.draft, Fields.read, hfields]
  exact bind_pure _

end Draft

namespace DType

theorem read_toJson (pass : Pass) (t : DType) : read pass t.toJson.draft = .ok t := by
  cases pass <;> cases t <;> rfl

end DType

namespace Shape

theorem read_toJson (shape : Shape) : read shape.toJson.draft = .ok shape := by
  refine Draft.readList_self (fun d => do .ok (UInt64.ofNat (← d.readSize))) fun d _ => ?_
  rw [Draft.readSize_whole d.toNat_lt]
  exact congrArg Except.ok UInt64.ofNat_toNat

end Shape

namespace TensorType

theorem read_toJson (pass : Pass) (t : TensorType) : read pass t.toJson.draft = .ok t := by
  rw [read, toJson, Draft.read_record rfl]
  simp only [List.foldlM, readField, Draft.fill, DType.read_toJson, Shape.read_toJson]
  rfl

end TensorType

namespace Elements

/-- The elements as numbers of 64 bits. -/
def numbers : Elements → List Number
  | int8 values => values.map fun v => .whole v.toInt
  | uint8 values => values.map fun v => .whole v.toNat
  | int32 values => values.map fun v => .whole v.toInt
  | int64 values => values.map fun v => .whole v.toInt
  | float32 values => values.map fun v => .double v.widen

/-- The elements that are floating-point numbers. -/
def singles : Elements → List Single
  | float32 values => values
  | _ => []

/-- Floating-point elements are finite, and their text stands for them. -/
def Reproduced (e : Elements) : Prop :=
  ∀ x ∈ e.singles, x.isFinite ∧ (Number.double x.widen).Reproduced

theorem canonical_toJson {e : Elements} (h : e.Reproduced) :
    e.toJson.canonical = .record [(e.dtype.shortName, .list (e.numbers.map .number))] := by
  have hitems : ∀ name (items : List Json), (Json.record [(name, .list items)]).canonical =
      .record [(name, .list (items.map Json.canonical))] := fun name items => by
    rw [← Json.canonicalItems_eq_map]
    rfl
  cases e with
  | int8 values | uint8 values | int32 values | int64 values =>
      refine (hitems _ _).trans ?_
      rw [numbers, List.map_map, List.map_map]
      rfl
  | float32 values =>
      refine (hitems _ _).trans ?_
      rw [numbers, List.map_map, List.map_map]
      congr 4
      apply List.map_congr_left
      intro x hx
      exact if_pos (h x hx).1

theorem toNat_le (v : UInt8) : (v.toNat : Int) ≤ UInt8.size - 1 := by
  have hlt : v.toNat < UInt8.size := v.toNat_lt
  omega

theorem readOf_numbers {e : Elements} (h : e.Reproduced) :
    readOf e.dtype (Json.list (e.numbers.map .number)).draft = .ok e := by
  cases e with
  | int8 values =>
      rw [numbers, List.map_map]
      exact congrArg (int8 <$> ·) (Draft.readList_whole Int8.toInt Int8.ofInt (by decide)
        (by decide) Int8.minValue_le_toInt Int8.toInt_le Int8.ofInt_toInt "i8" values)
  | uint8 values =>
      rw [numbers, List.map_map]
      exact congrArg (uint8 <$> ·) (Draft.readList_whole (fun v : UInt8 => v.toNat)
        (fun n => UInt8.ofNat n.toNat) (by decide) (by decide) (fun v => Int.natCast_nonneg _)
        toNat_le (fun v => UInt8.ofNat_toNat) "u8" values)
  | int32 values =>
      rw [numbers, List.map_map]
      exact congrArg (int32 <$> ·) (Draft.readList_whole Int32.toInt Int32.ofInt (by decide)
        (by decide) Int32.minValue_le_toInt Int32.toInt_le Int32.ofInt_toInt "i32" values)
  | int64 values =>
      rw [numbers, List.map_map]
      exact congrArg (int64 <$> ·) (Draft.readList_whole Int64.toInt Int64.ofInt (by decide)
        (by decide) Int64.minValue_le_toInt Int64.toInt_le Int64.ofInt_toInt "i64" values)
  | float32 values =>
      rw [numbers, List.map_map]
      refine congrArg (float32 <$> ·) (Draft.readList_self Draft.readSingle fun x hx => ?_)
      exact (Draft.readSingle_double (h x hx).2).trans
        (congrArg Except.ok (Binary.narrow_widen (h x hx).1))

/-- Elements are read off what stands under the name of their type. -/
theorem read_of (pass : Pass) (t : DType) (j : Json) :
    read pass (Json.record [(t.shortName, j)]).draft = readOf t j.draft := by
  have hname : Draft.readName DType.variants t.shortName = .ok t := by cases t <;> rfl
  cases pass with
  | buffered =>
      calc read .buffered (Json.record [(t.shortName, j)]).draft
          = (do
              let t ← Draft.readName DType.variants t.shortName
              readOf t j.draft) := rfl
        _ = readOf t j.draft := by
            rw [hname]
            rfl
  | streaming =>
      calc read .streaming (Json.record [(t.shortName, j)]).draft
          = (do
              let t ← Draft.readName DType.variants t.shortName
              let x ← readOf t j.draft
              Draft.ensure true
              .ok x) := rfl
        _ = readOf t j.draft := by
            rw [hname]
            show (do
              let x ← readOf t j.draft
              Draft.ensure true
              .ok x) = _
            cases readOf t j.draft <;> rfl

theorem read_numbers {e : Elements} (h : e.Reproduced) (pass : Pass) :
    read pass (Json.record [(e.dtype.shortName, .list (e.numbers.map .number))]).draft =
      .ok e := by
  rw [read_of]
  exact readOf_numbers h

/-- The numbers of elements are read back, one by one. -/
theorem reproduced_of_mem_numbers {e : Elements} (h : e.Reproduced) :
    ∀ n ∈ e.numbers, n.Reproduced := by
  cases e with
  | int8 values =>
      exact List.forall_mem_map.2 fun v _ => Number.reproduced_whole
        (Draft.isWord_of_le v.minValue_le_toInt v.toInt_le (by decide) (by decide))
  | uint8 values =>
      exact List.forall_mem_map.2 fun v _ => Number.reproduced_whole
        (Draft.isWord_of_le (Int.natCast_nonneg _) (toNat_le v) (by decide) (by decide))
  | int32 values =>
      exact List.forall_mem_map.2 fun v _ => Number.reproduced_whole
        (Draft.isWord_of_le v.minValue_le_toInt v.toInt_le (by decide) (by decide))
  | int64 values =>
      exact List.forall_mem_map.2 fun v _ => Number.reproduced_whole
        (Draft.isWord_of_le v.minValue_le_toInt v.toInt_le (by decide) (by decide))
  | float32 values => exact List.forall_mem_map.2 fun x hx => (h x hx).2

end Elements

namespace Shape

theorem legible_toJson (shape : Shape) : shape.toJson.Legible 1 :=
  .list (List.forall_mem_map.2 fun d _ =>
    .number 0 (Number.reproduced_whole (Draft.isWord_natCast d.toNat_lt)))

theorem canonical_toJson (shape : Shape) : shape.toJson.canonical = shape.toJson := by
  rw [toJson, Json.canonical, Json.canonicalItems_eq_map, List.map_map]
  rfl

end Shape

namespace TensorType

theorem legible_toJson (t : TensorType) : t.toJson.Legible 2 := by
  refine .record fun field hfield => ?_
  rcases List.mem_pair.1 hfield with rfl | rfl
  · exact .text 1 _
  · exact t.shape.legible_toJson

theorem canonical_toJson (t : TensorType) : t.toJson.canonical = t.toJson := by
  have hsorted : t.toJson.canonical =
      .record [("dtype", t.dtype.toJson), ("shape", t.shape.toJson.canonical)] := rfl
  rw [hsorted, Shape.canonical_toJson]
  rfl

end TensorType

namespace Tensor

/-- The canonical form of a tensor. -/
def canonicalJson (t : Tensor) : Json :=
  .record [("data", .record [(t.dtype.shortName, .list (t.elements.numbers.map .number))]),
    ("shape", t.shape.toJson)]

theorem canonical_eq (t : Tensor) : t.toJson.canonical =
    .record [("data", t.elements.toJson.canonical), ("shape", t.shape.toJson)] := by
  have hsorted : t.toJson.canonical =
      .record [("data", t.elements.toJson.canonical), ("shape", t.shape.toJson.canonical)] := rfl
  rw [hsorted, Shape.canonical_toJson]

theorem canonical_toJson {t : Tensor} (h : t.elements.Reproduced) :
    t.toJson.canonical = t.canonicalJson := by
  rw [canonical_eq, Elements.canonical_toJson h]
  rfl

theorem legible_canonicalJson {t : Tensor} (h : t.elements.Reproduced) :
    t.canonicalJson.Legible 3 := by
  refine .record fun field hfield => ?_
  rcases List.mem_pair.1 hfield with rfl | rfl
  · refine .record (List.forall_mem_singleton.2 (.list (List.forall_mem_map.2 fun n hn => ?_)))
    exact .number 0 (Elements.reproduced_of_mem_numbers h n hn)
  · exact t.shape.legible_toJson.mono (by decide)

/-- A tensor is read back from its canonical form. -/
theorem read_canonicalJson {t : Tensor} (h : t.elements.Reproduced) (pass : Pass) :
    read pass t.canonicalJson.draft = .ok t := by
  have helements : Elements.read pass (Json.record
      [(t.dtype.shortName, .list (t.elements.numbers.map .number))]).draft = .ok t.elements :=
    Elements.read_numbers h pass
  rw [read, canonicalJson, Draft.read_record rfl]
  simp only [List.foldlM, readField, Draft.fill, helements, Shape.read_toJson]
  rfl

end Tensor

end KernelGraph
