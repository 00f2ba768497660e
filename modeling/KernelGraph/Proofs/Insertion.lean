import KernelGraph.Attribute.Json
import KernelGraph.Fusion.Pattern
import KernelGraph.Proofs.JsonText
import Mathlib.Data.List.Basic
import Mathlib.Data.List.Induction
import Mathlib.Data.List.Nodup

/-!
Sets of attributes are maps that keep the order of insertion. Whatever was done to a set, it has the
names that were written since it was last loaded, each once, in the order in which each was first
written, and under each the value that was written last (`Attributes.Tells`). A set is known by its
names and what is looked up in it (`Attributes.ext_of_nodup`), so the laws of copying one set into
another follow from what copying does to these two.
-/

namespace KernelGraph

theorem eraseDups_concat {α : Type} [DecidableEq α] (l : List α) (a : α) :
    (l ++ [a]).eraseDups = if a ∈ l then l.eraseDups else l.eraseDups ++ [a] := by
  rw [List.eraseDups_append, List.removeAll, List.filter_singleton]
  by_cases h : a ∈ l <;> simp [h, List.eraseDups_cons]

theorem eraseDups_of_nodup {α : Type} [DecidableEq α] {l : List α} (h : l.Nodup) :
    l.eraseDups = l := by
  induction l with
  | nil => rfl
  | cons a l ih =>
      obtain ⟨hnew, hrest⟩ := List.nodup_cons.1 h
      have hfilter : l.filter (fun b => !b == a) = l := by
        refine List.filter_eq_self.2 fun b hb => ?_
        have hne : b ≠ a := fun heq => hnew (heq ▸ hb)
        simp [hne]
      rw [List.eraseDups_cons, hfilter, ih hrest]

namespace Attributes

/-! ### What copying does -/

/-- A set is known by its names and what is looked up in it. -/
theorem ext_of_nodup {as other : Attributes} (hnodup : as.names.Nodup)
    (hnames : as.names = other.names) (hget : ∀ name, as.get? name = other.get? name) :
    as = other := by
  obtain ⟨items⟩ := as
  obtain ⟨others⟩ := other
  suffices h : items = others from congrArg Attributes.mk h
  change (items.map (·.1)).Nodup at hnodup
  change items.map (·.1) = others.map (·.1) at hnames
  change ∀ name, items.lookup name = others.lookup name at hget
  induction items generalizing others with
  | nil => exact (List.map_eq_nil_iff.1 hnames.symm).symm
  | cons item items ih =>
      obtain ⟨name, value⟩ := item
      cases others with
      | nil => cases hnames
      | cons other others =>
          obtain ⟨name', value'⟩ := other
          obtain ⟨rfl, htail⟩ := List.cons.inj hnames
          obtain ⟨hnew, hrest⟩ := List.nodup_cons.1 hnodup
          have hvalue := hget name
          rw [lookup_cons_ite, lookup_cons_ite, if_pos rfl, if_pos rfl] at hvalue
          have hlookup : ∀ query, items.lookup query = others.lookup query := by
            intro query
            by_cases h : query = name
            · subst h
              -- the name of the first item is no other's
              have hnone : ∀ {l : List (String × AttrValue)}, query ∉ l.map (·.1) →
                  l.lookup query = none := by
                intro l hl
                refine List.lookup_eq_none_iff.2 fun pair hpair => bne_iff_ne.2 ?_
                rintro rfl
                exact hl (List.mem_map_of_mem hpair)
              rw [hnone hnew, hnone (htail ▸ hnew)]
            · have hquery := hget query
              rwa [lookup_cons_ite, lookup_cons_ite, if_neg h, if_neg h] at hquery
          rw [Option.some.inj hvalue, ih others hrest htail hlookup]

theorem get?_extend_of_nodup (as : Attributes) {other : Attributes} (h : other.names.Nodup)
    (name : String) : (as.extend other).get? name = (other.get? name).or (as.get? name) := by
  rw [get?_extend, lookup_reverse h]
  rfl

/-- The names that are new follow those that were there, in their order. -/
theorem names_extend (as : Attributes) {other : Attributes} (h : other.names.Nodup) :
    (as.extend other).names = as.names ++ other.names.filter (· ∉ as.names) := by
  obtain ⟨items⟩ := other
  change (items.map (·.1)).Nodup at h
  change (items.foldl (fun as item => as.set item.1 item.2) as).names =
    as.names ++ (items.map (·.1)).filter (· ∉ as.names)
  induction items generalizing as with
  | nil => simp
  | cons item items ih =>
      obtain ⟨name, value⟩ := item
      obtain ⟨hnew, hrest⟩ := List.nodup_cons.1 h
      rw [List.foldl_cons, ih _ hrest, names_set, List.map_cons]
      by_cases hname : name ∈ as.names
      · rw [if_pos hname, List.filter_cons_of_neg (by simpa using hname)]
      · have hfilter : (items.map (·.1)).filter (· ∉ as.names ++ [name]) =
            (items.map (·.1)).filter (· ∉ as.names) := by
          refine List.filter_congr fun other hother => ?_
          have hne : other ≠ name := fun heq => hnew (heq ▸ hother)
          simp [hne]
        rw [if_neg hname, List.filter_cons_of_pos (by simpa using hname), hfilter,
          List.append_assoc, List.singleton_append]

theorem nodup_names_extend {as : Attributes} (h : as.names.Nodup) (other : Attributes) :
    (as.extend other).names.Nodup := by
  unfold extend
  induction other.items generalizing as with
  | nil => exact h
  | cons item items ih => exact ih (nodup_names_set h item.1 item.2)

/-- It does not matter which two of three sets are put together first. -/
theorem extend_assoc {as other more : Attributes} (has : as.names.Nodup)
    (hother : other.names.Nodup) (hmore : more.names.Nodup) :
    (as.extend other).extend more = as.extend (other.extend more) := by
  have hboth : (other.extend more).names.Nodup := nodup_names_extend hother more
  refine ext_of_nodup (nodup_names_extend (nodup_names_extend has other) more) ?_ fun name => ?_
  · have hfilter : more.names.filter (· ∉ as.names ++ other.names.filter (· ∉ as.names)) =
        (more.names.filter (· ∉ other.names)).filter (· ∉ as.names) := by
      rw [List.filter_filter]
      refine List.filter_congr fun name _ => ?_
      by_cases h : name ∈ as.names <;> simp [h]
    rw [names_extend _ hmore, names_extend _ hother, names_extend _ hboth, names_extend _ hmore,
      List.filter_append, List.append_assoc, hfilter]
  · rw [get?_extend_of_nodup _ hmore, get?_extend_of_nodup _ hother, get?_extend_of_nodup _ hboth,
      get?_extend_of_nodup _ hmore, Option.or_assoc]

/-- What was copied once is not changed by copying it again. -/
theorem extend_extend_self {as other : Attributes} (has : as.names.Nodup)
    (hother : other.names.Nodup) : (as.extend other).extend other = as.extend other := by
  refine ext_of_nodup (nodup_names_extend (nodup_names_extend has other) other) ?_ fun name => ?_
  · have hfilter : other.names.filter (· ∉ (as.extend other).names) = [] := by
      refine List.filter_eq_nil_iff.2 fun name hname => ?_
      rw [names_extend _ hother]
      by_cases h : name ∈ as.names <;> simp [h, hname]
    rw [names_extend _ hother, hfilter, List.append_nil]
  · rw [get?_extend_of_nodup _ hother, get?_extend_of_nodup _ hother, ← Option.or_assoc,
      Option.or_self]

/-! ### What a text holds -/

/-- A field of a text names a value. -/
def FieldTells (field : Draft × Draft) (item : String × AttrValue) : Prop :=
  field.1.fieldName = .ok item.1 ∧ AttrValue.read (maxDepth - 1) field.2 = .ok item.2

theorem forall₂_of_mapM {fields : List (Draft × Draft)} {items : List (String × AttrValue)}
    (h : (fields.mapM fun (name, d) => do
      let name ← name.fieldName
      let value ← AttrValue.read (maxDepth - 1) d
      .ok (name, value)) = (.ok items : Read _)) : List.Forall₂ FieldTells fields items := by
  induction fields generalizing items with
  | nil =>
      cases h
      exact .nil
  | cons field fields ih =>
      obtain ⟨name, d⟩ := field
      rw [List.mapM_cons] at h
      obtain ⟨item, hitem, h⟩ := exists_of_bind_eq_ok h
      obtain ⟨rest, hrest, h⟩ := exists_of_bind_eq_ok h
      obtain ⟨name', hname, hitem⟩ := exists_of_bind_eq_ok hitem
      obtain ⟨value, hvalue, hitem⟩ := exists_of_bind_eq_ok hitem
      cases hitem
      cases h
      exact .cons ⟨hname, hvalue⟩ (ih hrest)

/-- The set of a text has what its fields tell, sorted by name; the last value of a name counts. -/
theorem exists_fields_of_ofText {text : String} {as : Attributes} (h : ofText text = .ok as) :
    ∃ fields items, Draft.ofText text = ⟨.record fields true, true⟩ ∧
      List.Forall₂ FieldTells fields items ∧ as.items = SortedTable.ofList items := by
  obtain ⟨hread, halone⟩ := Draft.readWhole_eq_ok_iff.1 h
  suffices hwhole : ∃ fields items, (Draft.ofText text).draft = .record fields true ∧
      List.Forall₂ FieldTells fields items ∧ as.items = SortedTable.ofList items by
    obtain ⟨fields, items, hdraft, hfields, hitems⟩ := hwhole
    refine ⟨fields, items, ?_, hfields, hitems⟩
    rw [← hdraft, ← halone]
  unfold read at hread
  split at hread
  · rename_i fields closed hdraft
    obtain ⟨items, hitems, hread⟩ := exists_of_bind_eq_ok hread
    obtain ⟨_, hclosed, hread⟩ := exists_of_bind_eq_ok hread
    cases hread
    cases closed with
    | false => cases hclosed
    | true => exact ⟨fields, items, hdraft, forall₂_of_mapM hitems, rfl⟩
  · obtain ⟨found, -, hread⟩ := exists_of_bind_eq_ok hread
    cases hread

/-! ### Runs -/

/-- What can be done to a set. -/
inductive Change where
  | set (name : String) (value : AttrValue)
  | extend (other : Attributes)
  | load (text : String)

/-- The set after a change. A text that cannot be read leaves it as it is. -/
def change (as : Attributes) : Change → Attributes
  | .set name value => as.set name value
  | .extend other => as.extend other
  | .load text => (ofText text).toOption.getD as

/-- The set that some changes lead to from an empty one. -/
def run (changes : List Change) : Attributes := changes.foldl change empty

namespace Change

/-- What counts as written after a change. A load begins anew, with what it reads in the order of
the names. -/
def write (written : List (String × AttrValue)) : Change → List (String × AttrValue)
  | set name value => written ++ [(name, value)]
  | extend other => written ++ other.items
  | load text => ((ofText text).toOption.map items).getD written

/-- What some changes wrote, in the order in which they did. -/
def written (changes : List Change) : List (String × AttrValue) := changes.foldl write []

/-- The change puts another set in place of the one that there is. -/
def Loads : Change → Prop
  | load text => ∃ loaded, ofText text = .ok loaded
  | _ => False

theorem foldl_write_append (written : List (String × AttrValue)) {changes : List Change}
    (h : ∀ c ∈ changes, ¬ c.Loads) :
    changes.foldl write written = written ++ changes.foldl write [] := by
  induction changes using List.reverseRecOn with
  | nil => exact (List.append_nil _).symm
  | append_singleton changes c ih =>
      have hchanges := ih fun c' hc' => h c' (List.mem_append_left _ hc')
      have hc := h c (List.mem_append_right _ List.mem_cons_self)
      rw [List.foldl_append, List.foldl_append, hchanges]
      cases c with
      | set name value => exact List.append_assoc ..
      | extend other => exact List.append_assoc ..
      | load text =>
          have herror : (ofText text).toOption = none := by
            cases hread : ofText text with
            | error e => rfl
            | ok loaded => exact absurd ⟨loaded, hread⟩ hc
          simp only [List.foldl_cons, List.foldl_nil, write, herror]
          rfl

end Change

/-- The set has the names that were written, each in the place where it was written first, and under
each the value that was written last. -/
structure Tells (as : Attributes) (written : List (String × AttrValue)) : Prop where
  names : as.names = (written.map (·.1)).eraseDups
  values : ∀ name, as.get? name = written.reverse.lookup name

namespace Tells

variable {as : Attributes} {written : List (String × AttrValue)}

theorem of_nodup (h : as.names.Nodup) : as.Tells as.items :=
  ⟨(eraseDups_of_nodup h).symm, fun name => (lookup_reverse h name).symm⟩

theorem mem_names_iff (h : as.Tells written) {name : String} :
    name ∈ as.names ↔ name ∈ written.map (·.1) := by
  rw [h.names, List.mem_eraseDups]

theorem set (h : as.Tells written) (name : String) (value : AttrValue) :
    (as.set name value).Tells (written ++ [(name, value)]) where
  names := by
    rw [names_set, List.map_append, List.map_singleton, eraseDups_concat, ← h.names]
    exact if_congr h.mem_names_iff rfl rfl
  values query := by
    rw [get?_set, List.reverse_append, List.reverse_singleton, List.singleton_append,
      lookup_cons_ite, h.values]

theorem extend (h : as.Tells written) (other : Attributes) :
    (as.extend other).Tells (written ++ other.items) := by
  unfold Attributes.extend
  induction other.items generalizing as written with
  | nil => rwa [List.append_nil]
  | cons item items ih =>
      have hrest := ih (h.set item.1 item.2)
      rwa [List.append_assoc, List.singleton_append] at hrest

/-- A name is looked up in vain if it was not written. -/
theorem get?_eq_none_iff (h : as.Tells written) {name : String} :
    as.get? name = none ↔ name ∉ written.map (·.1) := by
  rw [h.values, List.lookup_eq_none_iff, List.mem_map]
  constructor
  · rintro hnone ⟨pair, hpair, rfl⟩
    exact absurd (hnone pair (List.mem_reverse.2 hpair)) (by simp)
  · intro hnone pair hpair
    refine bne_iff_ne.2 fun heq => hnone ⟨pair, List.mem_reverse.1 hpair, heq.symm⟩

end Tells

theorem nodup_names_of_ofText {text : String} {as : Attributes} (h : ofText text = .ok as) :
    as.names.Nodup := by
  obtain ⟨_, items, -, -, hitems⟩ := exists_fields_of_ofText h
  unfold names
  rw [hitems]
  exact (SortedTable.sorted_ofList items).nodup

theorem run_concat (changes : List Change) (c : Change) :
    run (changes ++ [c]) = (run changes).change c := List.foldl_concat ..

theorem nodup_names_run (changes : List Change) : (run changes).names.Nodup := by
  induction changes using List.reverseRecOn with
  | nil => exact List.nodup_nil
  | append_singleton changes c ih =>
      rw [run_concat]
      cases c with
      | set name value => exact nodup_names_set ih name value
      | extend other => exact nodup_names_extend ih other
      | load text =>
          show ((ofText text).toOption.getD (run changes)).names.Nodup
          cases h : ofText text with
          | error e => exact ih
          | ok loaded => exact nodup_names_of_ofText h

theorem tells_run (changes : List Change) : (run changes).Tells (Change.written changes) := by
  induction changes using List.reverseRecOn with
  | nil => exact ⟨rfl, fun _ => rfl⟩
  | append_singleton changes c ih =>
      rw [run_concat, Change.written, List.foldl_concat]
      cases c with
      | set name value => exact ih.set name value
      | extend other => exact ih.extend other
      | load text =>
          show ((ofText text).toOption.getD (run changes)).Tells
            (((ofText text).toOption.map items).getD (Change.written changes))
          cases h : ofText text with
          | error e => exact ih
          | ok loaded => exact .of_nodup (nodup_names_of_ofText h)

/-- What is done before the first load of another set is done to the names that were there. -/
theorem names_run_append (changes : List Change) {more : List Change}
    (h : ∀ c ∈ more, ¬ c.Loads) :
    (run (changes ++ more)).names = (run changes).names ++
      (((Change.written more).map (·.1)).filter (· ∉ (run changes).names)).eraseDups := by
  have hwritten : Change.written (changes ++ more) =
      Change.written changes ++ Change.written more := by
    rw [Change.written, List.foldl_append]
    exact Change.foldl_write_append _ h
  have hfilter : ((Change.written more).map (·.1)).removeAll ((Change.written changes).map (·.1)) =
      ((Change.written more).map (·.1)).filter (· ∉ (run changes).names) := by
    refine List.filter_congr fun name _ => ?_
    simp [(tells_run changes).mem_names_iff]
  rw [(tells_run _).names, hwritten, List.map_append, List.eraseDups_append, hfilter,
    (tells_run changes).names]

/-- Copying a set is writing its items one by one. -/
theorem run_extend (changes : List Change) (other : Attributes) :
    run (changes ++ [.extend other]) =
      run (changes ++ other.items.map fun (name, value) => .set name value) := by
  rw [run_concat, run, run, List.foldl_append, List.foldl_map]
  rfl

/-- A set of attributes is a map in the order of insertion. Whatever was done to it from the empty
set on, no two names are alike, each name gives what was written last under it and nothing if
nothing was, and the names stand in the order in which they were first written; a load puts in place
of all that the fields of its text, sorted by name. What follows leaves the names where they are and
adds new ones at the end. Copying another set is writing its items in their order, so the values of
the other count, and its new names follow; it is associative, has the empty set as its unit, and
does nothing the second time. -/
theorem insertion_ordered (changes : List Change) :
    (run changes).names.Nodup ∧
    (∀ name, (run changes).get? name = (Change.written changes).reverse.lookup name) ∧
    (∀ name, (run changes).get? name = none ↔ name ∉ (Change.written changes).map (·.1)) ∧
    (run changes).names = ((Change.written changes).map (·.1)).eraseDups ∧
    (∀ text loaded, ofText text = .ok loaded →
      run (changes ++ [.load text]) = loaded ∧ SortedTable.Sorted loaded.items ∧
      ∃ fields items, Draft.ofText text = ⟨.record fields true, true⟩ ∧
        List.Forall₂ FieldTells fields items ∧ loaded.items = SortedTable.ofList items) ∧
    (∀ text e, ofText text = .error e → run (changes ++ [.load text]) = run changes) ∧
    (∀ more, (∀ c ∈ more, ¬ c.Loads) → (run (changes ++ more)).names = (run changes).names ++
      (((Change.written more).map (·.1)).filter (· ∉ (run changes).names)).eraseDups) ∧
    (run changes).extend empty = run changes ∧ empty.extend (run changes) = run changes ∧
    ∀ others,
      run (changes ++ [.extend (run others)]) =
        run (changes ++ (run others).items.map fun (name, value) => .set name value) ∧
      (∀ name, ((run changes).extend (run others)).get? name =
        ((run others).get? name).or ((run changes).get? name)) ∧
      ((run changes).extend (run others)).names =
        (run changes).names ++ (run others).names.filter (· ∉ (run changes).names) ∧
      ((run changes).extend (run others)).extend (run others) =
        (run changes).extend (run others) ∧
      ∀ more, ((run changes).extend (run others)).extend (run more) =
        (run changes).extend ((run others).extend (run more)) := by
  have hnodup := nodup_names_run changes
  have htells := tells_run changes
  refine ⟨hnodup, htells.values, fun name => htells.get?_eq_none_iff, htells.names, ?_, ?_,
    fun more => names_run_append changes, rfl, empty_extend hnodup, fun others => ?_⟩
  · intro text loaded hload
    obtain ⟨fields, items, htext, hfields, hitems⟩ := exists_fields_of_ofText hload
    refine ⟨?_, hitems ▸ SortedTable.sorted_ofList items, fields, items, htext, hfields, hitems⟩
    rw [run_concat, change, hload]
    rfl
  · intro text e hload
    rw [run_concat, change, hload]
    rfl
  · have hothers := nodup_names_run others
    exact ⟨run_extend changes _, get?_extend_of_nodup _ hothers, names_extend _ hothers,
      extend_extend_self hnodup hothers,
      fun more => extend_assoc hnodup hothers (nodup_names_run more)⟩

namespace Window

def drawn : List Change := [.set "strides" (.ints [1, 1]), .set "padding" (.ints [0, 0])]

def text : String := "\x7b\"strides\":[2,2],\"layout\":\"NCHW\"\x7d"

def saved : Attributes := ⟨[("layout", .text "NCHW"), ("strides", .ints [2, 2])]⟩

def later : List Change := [.extend saved, .set "groups" (.int 1)]

theorem ofText_text : ofText text = .ok saved := by
  have hnumber : (Json.whole 2).Legible 0 := .number 0 (Number.reproduced_whole rfl)
  have hlegible : (Json.record [("strides", .list [.whole 2, .whole 2]),
      ("layout", .text "NCHW")]).Legible 2 :=
    .record (List.forall_mem_cons.2 ⟨.list (List.forall_mem_cons.2
      ⟨hnumber, List.forall_mem_singleton.2 hnumber⟩), List.forall_mem_singleton.2 (.text 1 _)⟩)
  exact Draft.readWhole_toText hlegible.spelled _ false

theorem ofText_list : ofText "[]" = .error (.mismatch (.type .list "a map")) := by
  have hlegible : (Json.list []).Legible 1 := .list (List.forall_mem_nil _)
  exact Draft.readWhole_toText hlegible.spelled _ false

theorem not_loads_later : ∀ c ∈ later, ¬ c.Loads :=
  List.forall_mem_cons.2 ⟨id, List.forall_mem_singleton.2 id⟩

/-- A load puts the names in order, and a text that is no record does nothing; a copy leaves them in
their places and adds its own at the end. -/
theorem drawn_changed : run (drawn ++ [.load text]) = saved ∧
    run (drawn ++ [.load "[]"]) = run drawn ∧
    (run (drawn ++ later)).names = ["strides", "padding", "layout", "groups"] := by
  obtain ⟨-, -, -, -, hload, hfail, hnames, -⟩ := insertion_ordered drawn
  refine ⟨(hload text saved ofText_text).1, hfail "[]" _ ofText_list, ?_⟩
  rw [hnames later not_loads_later]
  decide

end Window

end Attributes

end KernelGraph
