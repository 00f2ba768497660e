import KernelGraph.Proofs.Insertion
import KernelGraph.Proofs.Normal

/-!
The text of a set of attributes. If its floating-point numbers are those that their texts stand for,
the set is read back in its normal form, whatever was done to it before. No value of a normal form is
an element type; a value that is read as one is a record with nothing under the name of the type
(`AttrValue.read_eq_dtype_iff`), which is never written.
-/

namespace KernelGraph

theorem DType.lookup_variants_eq_some_iff {name : String} {t : DType} :
    DType.variants.lookup name = some t ↔ name = t.shortName := by
  have hnodup : (DType.variants.map (·.1)).Nodup := by decide
  rw [lookup_eq_some_iff_mem hnodup, DType.variants, List.mem_map]
  constructor
  · rintro ⟨t', -, heq⟩
    cases heq
    rfl
  · rintro rfl
    exact ⟨t, by cases t <;> decide, rfl⟩

namespace Draft

theorem toJson?_eq_null_iff {depth : Nat} {d : Draft} :
    d.toJson? depth = some .null ↔ d = .null := by
  constructor
  · intro h
    cases d with
    | null => rfl
    | bool | broken => cases h
    | number n =>
        obtain ⟨x, -, hx⟩ := Option.map_eq_some_iff.1 h
        cases hx
    | text t =>
        obtain ⟨s, -, hs⟩ := Option.map_eq_some_iff.1 h
        cases hs
    | list items closed =>
        rw [toJson?] at h
        split at h
        · obtain ⟨js, -, hjs⟩ := Option.map_eq_some_iff.1 h
          cases hjs
        · cases h
    | record fields closed =>
        rw [toJson?] at h
        split at h
        · obtain ⟨js, -, hjs⟩ := Option.map_eq_some_iff.1 h
          cases hjs
        · cases h
  · rintro rfl
    rfl

/-- Fields are values if each of them is a value under a name. -/
theorem fieldsToJson?_cons_eq_some_iff {depth : Nat} {name d : Draft}
    {fields : List (Draft × Draft)} {js : List (String × Json)} :
    fieldsToJson? depth ((name, d) :: fields) = some js ↔
      ∃ n j rest, name = .text (some n) ∧ d.toJson? depth = some j ∧
        fieldsToJson? depth fields = some rest ∧ js = (n, j) :: rest := by
  constructor
  · intro h
    cases name with
    | text t =>
        rw [fieldsToJson?] at h
        obtain ⟨n, ht, h⟩ := Option.bind_eq_some_iff.1 h
        obtain ⟨j, hj, h⟩ := Option.bind_eq_some_iff.1 h
        obtain ⟨rest, hrest, h⟩ := Option.bind_eq_some_iff.1 h
        exact ⟨n, j, rest, congrArg Draft.text ht, hj, hrest, (Option.some.inj h).symm⟩
    | null | bool | number | list | record | broken => cases h
  · rintro ⟨n, j, rest, rfl, hj, hrest, rfl⟩
    rw [fieldsToJson?, hj, hrest]
    rfl

theorem fieldsToJson?_eq_null_iff {depth : Nat} {fields : List (Draft × Draft)} {name : String} :
    fieldsToJson? depth fields = some [(name, .null)] ↔ fields = [(.text (some name), .null)] := by
  constructor
  · intro h
    cases fields with
    | nil => cases h
    | cons field rest =>
        obtain ⟨n, j, js, hname, hj, hjs, heq⟩ := fieldsToJson?_cons_eq_some_iff.1 h
        cases heq
        have hrest : rest = [] := by
          cases rest with
          | nil => rfl
          | cons other rest =>
              obtain ⟨_, _, _, -, -, -, heq⟩ := fieldsToJson?_cons_eq_some_iff.1 hjs
              cases heq
        rw [← toJson?_eq_null_iff.1 hj, ← hname, hrest]
  · rintro rfl
    rfl

/-- A record with one name and nothing under it is written in one way only. -/
theorem toJson?_eq_record_null_iff {depth : Nat} (hdepth : 0 < depth) {d : Draft} {name : String} :
    d.toJson? depth = some (.record [(name, .null)]) ↔
      d = .record [(.text (some name), .null)] true := by
  constructor
  · intro h
    cases d with
    | null | bool | broken => cases h
    | number n =>
        obtain ⟨x, -, hx⟩ := Option.map_eq_some_iff.1 h
        cases hx
    | text t =>
        obtain ⟨s, -, hs⟩ := Option.map_eq_some_iff.1 h
        cases hs
    | list items closed =>
        rw [toJson?] at h
        split at h
        · obtain ⟨js, -, hjs⟩ := Option.map_eq_some_iff.1 h
          cases hjs
        · cases h
    | record fields closed =>
        rw [toJson?] at h
        split at h
        · rename_i hclosed
          obtain ⟨js, hjs, heq⟩ := Option.map_eq_some_iff.1 h
          cases heq
          rw [Bool.and_eq_true] at hclosed
          rw [fieldsToJson?_eq_null_iff.1 hjs, hclosed.1]
        · cases h
  · rintro rfl
    rw [toJson?, fieldsToJson?_eq_null_iff.2 rfl, if_pos (by simpa using hdepth)]
    rfl

end Draft

namespace AttrValue

/-- A kind that is looked for is not taken for an element type. -/
theorem map_ne_dtype {α : Type} {kind : α → AttrValue} {t : DType} (h : ∀ x, kind x ≠ .dtype t)
    (read : Option α) : kind <$> read ≠ some (.dtype t) := by
  cases read with
  | none => nofun
  | some x => exact fun heq => h x (Option.some.inj heq)

theorem orElse_ne_dtype {first second : Option AttrValue} {t : DType}
    (hfirst : first ≠ some (.dtype t)) (hsecond : second ≠ some (.dtype t)) :
    (first <|> second) ≠ some (.dtype t) := by
  cases first with
  | none => exact hsecond
  | some v => exact hfirst

theorem ofJson?_eq_dtype_iff {j : Json} {t : DType} :
    ofJson? j = some (.dtype t) ↔ j = .record [(t.shortName, .null)] := by
  constructor
  · intro h
    cases j with
    | null | bool | text => cases h
    | number n =>
        exact absurd h (orElse_ne_dtype (map_ne_dtype nofun _) (map_ne_dtype nofun _))
    | list items =>
        rw [ofJson?_list] at h
        exact absurd h (orElse_ne_dtype (map_ne_dtype nofun _) (orElse_ne_dtype
          (map_ne_dtype nofun _) (orElse_ne_dtype (map_ne_dtype nofun _) (map_ne_dtype nofun _))))
    | record fields =>
        obtain ⟨t', hfields, heq⟩ := Option.map_eq_some_iff.1 h
        cases heq
        unfold dtypeOf? at hfields
        split at hfields
        · rename_i name heq
          cases heq
          rw [DType.lookup_variants_eq_some_iff.1 hfields]
        · cases hfields
  · rintro rfl
    show dtype <$> DType.variants.lookup t.shortName = _
    rw [DType.lookup_variants_eq_some_iff.2 rfl]
    rfl

/-- What is read as an element type is a record with nothing under the name of the type. -/
theorem read_eq_dtype_iff {depth : Nat} (hdepth : 0 < depth) {d : Draft} {t : DType} :
    read depth d = .ok (.dtype t) ↔ d = .record [(.text (some t.shortName), .null)] true := by
  rw [← Draft.toJson?_eq_record_null_iff hdepth, read]
  cases d.toJson? depth with
  | none =>
      constructor
      · intro h
        cases h
      · intro h
        cases h
  | some j =>
      rw [Option.some.injEq, ← ofJson?_eq_dtype_iff]
      dsimp only
      cases ofJson? j with
      | none =>
          constructor
          · intro h
            cases h
          · intro h
            cases h
      | some v => rw [Except.ok.injEq, Option.some.injEq]

theorem ofText_eq_dtype_iff {text : String} {t : DType} :
    ofText text = .ok (.dtype t) ↔
      Draft.ofText text = ⟨.record [(.text (some t.shortName), .null)] true, true⟩ := by
  rw [ofText, Draft.readWhole_eq_ok_iff, read_eq_dtype_iff (by decide)]
  constructor
  · rintro ⟨hdraft, halone⟩
    rw [← hdraft, ← halone]
  · intro h
    rw [h]
    exact ⟨rfl, rfl⟩

/-- Some text is read as an element type, alone or in a set. -/
theorem ofText_dtype_record :
    ofText "\x7b\"i8\":null\x7d" = .ok (.dtype .int8) ∧
    Attributes.ofText "\x7b\"out\":\x7b\"i8\":null\x7d\x7d" = .ok ⟨[("out", .dtype .int8)]⟩ ∧
    ¬ ∀ text t, ofText text ≠ .ok (.dtype t) := by
  have hvalue : (Json.record [("i8", .null)]).Legible 1 :=
    .record (List.forall_mem_singleton.2 (.null 0))
  have hset : (Json.record [("out", .record [("i8", .null)])]).Legible 2 :=
    .record (List.forall_mem_singleton.2 hvalue)
  have hread : ofText "\x7b\"i8\":null\x7d" = .ok (.dtype .int8) :=
    Draft.readWhole_toText hvalue.spelled _ false
  exact ⟨hread, Draft.readWhole_toText hset.spelled _ false, fun h => h _ _ hread⟩

theorem normal_ne_dtype (v : AttrValue) (t : DType) : v.normal ≠ .dtype t := by
  cases v with
  | floats xs => cases xs <;> simp [normal]
  | texts ss => cases ss <;> simp [normal]
  | grid rows => cases rows <;> simp [normal]
  | _ => simp [normal]

end AttrValue

namespace Attributes

theorem ofText_toText {as : Attributes} (h : as.Reproduced) (indented : Bool) :
    ofText (as.toJson.toText indented) = .ok as.normal := by
  rw [ofText, Draft.readWhole_toText (legible_toJson h).spelled, read_toJson h (by decide)]

theorem toText_normal (as : Attributes) : as.normal.toText = as.toText :=
  congrArg Json.compact as.toJson_normal

/-- The text of a set is read back, whatever was done to the set, if the text of every floating-point
number in it stands for the number, which is then finite. What is read is the set sorted by name, in
which an element type has become the text of its name and an empty list one of integers; it is read
back as it is, and its text is that of the set. No element type is ever read there: to be read as
one, a value must be a record of one field with nothing in it, under the name of an element type. -/
theorem reread_normal (changes : List Change) (h : (run changes).Reproduced) :
    (∀ indented, ofText ((run changes).toJson.toText indented) = .ok (run changes).normal) ∧
    run (changes ++ [.load (run changes).toText]) = (run changes).normal ∧
    SortedTable.Sorted (run changes).normal.items ∧
    (run changes).normal.items.Perm
      ((run changes).items.map fun (name, value) => (name, value.normal)) ∧
    ofText (run changes).normal.toText = .ok (run changes).normal ∧
    (run changes).normal.toText = (run changes).toText ∧
    (∀ item ∈ (run changes).normal.items, ∀ t, item.2 ≠ .dtype t) ∧
    (∀ depth d t, 0 < depth → (AttrValue.read depth d = .ok (.dtype t) ↔
      d = .record [(.text (some t.shortName), .null)] true)) ∧
    ∀ text t, AttrValue.ofText text = .ok (.dtype t) ↔
      Draft.ofText text = ⟨.record [(.text (some t.shortName), .null)] true, true⟩ := by
  have hread : ofText (run changes).toText = .ok (run changes).normal := ofText_toText h false
  refine ⟨ofText_toText h, ?_, sorted_normal _, perm_normal (nodup_names_run changes), ?_,
    toText_normal _, ?_, fun depth d t hdepth => AttrValue.read_eq_dtype_iff hdepth,
    fun text t => AttrValue.ofText_eq_dtype_iff⟩
  · rw [run_concat, change, hread]
    rfl
  · rw [toText_normal, hread]
  · rw [normal_eq]
    exact List.forall_mem_map.2 fun item _ => item.2.normal_ne_dtype

namespace Rescale

def built : List Change :=
  [.set "scale" (.floats [.ofInt 1]), .set "out" (.dtype .int8), .set "axes" (.grid [])]

theorem reproduced_one : (Number.double (.ofInt 1)).Reproduced :=
  ⟨⟨false, ['1'], ['0'], none⟩, by decide +kernel, by decide +kernel⟩

theorem reproduced_built : (run built).Reproduced := by
  refine List.forall_mem_cons.2 ⟨List.forall_mem_singleton.2 reproduced_one, ?_⟩
  exact List.forall_mem_cons.2 ⟨nofun, List.forall_mem_singleton.2 nofun⟩

/-- A list of whole numbers stays one of floating-point numbers. -/
theorem built_reread : ofText (run built).toText =
    .ok ⟨[("axes", .ints []), ("out", .text "i8"), ("scale", .floats [.ofInt 1])]⟩ :=
  (reread_normal built reproduced_built).1 false

end Rescale

end Attributes

end KernelGraph
