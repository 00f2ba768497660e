import KernelGraph.SortedTable
import KernelGraph.Tensor.Basic

/-!
Attributes of calls and functions: named values in the order in which the names were first written,
each name once. A value that is written again keeps its place.

Writing a value changes what its name gives and nothing else (`get?_set`), and the names stay as they
are or gain one at the end (`names_set`).
-/

namespace KernelGraph

open Decimal

inductive AttrValue where
  | bool (b : Bool)
  | int (n : Int64)
  | float (x : Double)
  | text (s : String)
  | ints (ns : List Int64)
  | floats (xs : List Double)
  | texts (ss : List String)
  | grid (rows : List (List Int64))
  | dtype (t : DType)
deriving DecidableEq

namespace AttrValue

/-- The kind of a value, as messages name it. -/
def kindName : AttrValue → String
  | bool _ => "bool"
  | int _ => "int"
  | float _ => "float"
  | text _ => "string"
  | ints _ => "int list"
  | floats _ => "float list"
  | texts _ => "string list"
  | grid _ => "int grid"
  | dtype _ => "dtype"

def text? : AttrValue → Option String
  | text s => some s
  | _ => none

def grid? : AttrValue → Option (List (List Int64))
  | grid rows => some rows
  | _ => none

def decimal (n : Int64) : String := toString n.toInt

/-- The value as a kernel graph holds it: rows of plain texts. A value that is no grid is one row,
and a single one is alone in its row. -/
def encode : AttrValue → List (List String)
  | bool b => [[if b then "1" else "0"]]
  | int n => [[decimal n]]
  | float x => [[x.plain]]
  | text s => [[s]]
  | ints ns => [ns.map decimal]
  | floats xs => [xs.map Binary.plain]
  | texts ss => [ss]
  | grid rows => rows.map (·.map decimal)
  | dtype t => [[t.name]]

end AttrValue

structure Attributes where
  items : List (String × AttrValue)
deriving DecidableEq

namespace Attributes

def empty : Attributes := ⟨[]⟩

def isEmpty (as : Attributes) : Bool := as.items.isEmpty

def length (as : Attributes) : Nat := as.items.length

def names (as : Attributes) : List String := as.items.map (·.1)

def get? (as : Attributes) (name : String) : Option AttrValue := as.items.lookup name

/-- The value of a name, if it is a text. -/
def getText? (as : Attributes) (name : String) : Option String := (as.get? name).bind AttrValue.text?

theorem getText?_eq_some_iff {as : Attributes} {name text : String} :
    as.getText? name = some text ↔ as.get? name = some (.text text) := by
  unfold getText?
  cases as.get? name with
  | none => simp
  | some given => cases given <;> simp [AttrValue.text?]

theorem getText?_eq_none_iff {as : Attributes} {name : String} :
    as.getText? name = none ↔ ∀ text, as.get? name ≠ some (.text text) := by
  rw [Option.eq_none_iff_forall_ne_some]
  exact forall_congr' fun text => not_congr getText?_eq_some_iff

/-- Writes a value in its place in the list, or at the end if the name is new. -/
def setItem (name : String) (value : AttrValue) : List (String × AttrValue) → List (String × AttrValue)
  | [] => [(name, value)]
  | (n, v) :: items => if n = name then (n, value) :: items else (n, v) :: setItem name value items

def set (as : Attributes) (name : String) (value : AttrValue) : Attributes :=
  ⟨setItem name value as.items⟩

/-- Writes every value of `other`, in its order. -/
def extend (as other : Attributes) : Attributes :=
  other.items.foldl (fun as (name, value) => as.set name value) as

theorem lookup_setItem (name query : String) (value : AttrValue)
    (items : List (String × AttrValue)) :
    (setItem name value items).lookup query =
      if query = name then some value else items.lookup query := by
  induction items with
  | nil => simp [setItem, lookup_cons_ite]
  | cons item items ih =>
    rw [setItem]
    split <;> grind [lookup_cons_ite]

theorem get?_set (as : Attributes) (name query : String) (value : AttrValue) :
    (as.set name value).get? query = if query = name then some value else as.get? query :=
  lookup_setItem name query value as.items

theorem map_fst_setItem (name : String) (value : AttrValue) (items : List (String × AttrValue)) :
    (setItem name value items).map (·.1) =
      if name ∈ items.map (·.1) then items.map (·.1) else items.map (·.1) ++ [name] := by
  induction items with
  | nil => simp [setItem]
  | cons item items ih =>
    rw [setItem]
    split <;> grind

theorem names_set (as : Attributes) (name : String) (value : AttrValue) :
    (as.set name value).names = if name ∈ as.names then as.names else as.names ++ [name] :=
  map_fst_setItem name value as.items

theorem nodup_names_set {as : Attributes} (h : as.names.Nodup) (name : String)
    (value : AttrValue) : (as.set name value).names.Nodup := by
  rw [names_set]
  by_cases hname : name ∈ as.names
  · rwa [if_pos hname]
  · rw [if_neg hname]
    refine List.nodup_append.2 ⟨h, List.nodup_cons.2 ⟨List.not_mem_nil, List.nodup_nil⟩, ?_⟩
    rintro other hother _ hmem rfl
    exact hname (List.mem_singleton.1 hmem ▸ hother)

theorem setItem_of_not_mem {name : String} (value : AttrValue) {items : List (String × AttrValue)}
    (h : name ∉ items.map (·.1)) : setItem name value items = items ++ [(name, value)] := by
  induction items with
  | nil => rfl
  | cons item items ih =>
    rw [List.map_cons, List.mem_cons, not_or] at h
    rw [setItem, if_neg (Ne.symm h.1), ih h.2, List.cons_append]

theorem foldl_set_of_nodup {items : List (String × AttrValue)} {as : Attributes}
    (h : (as.names ++ items.map (·.1)).Nodup) :
    items.foldl (fun as (name, value) => as.set name value) as = ⟨as.items ++ items⟩ := by
  induction items generalizing as with
  | nil => rw [List.append_nil, List.foldl_nil]
  | cons item items ih =>
    obtain ⟨name, value⟩ := item
    have hnew : name ∉ as.names := fun hmem =>
      (List.nodup_append.1 h).2.2 name hmem name List.mem_cons_self rfl
    have hset : as.set name value = ⟨as.items ++ [(name, value)]⟩ :=
      congrArg Attributes.mk (setItem_of_not_mem value hnew)
    have hnames : (⟨as.items ++ [(name, value)]⟩ : Attributes).names = as.names ++ [name] :=
      List.map_append
    rw [List.foldl_cons]
    dsimp only
    rw [hset, ih, List.append_assoc, List.singleton_append]
    rw [hnames, List.append_assoc]
    exact h

/-- A copy of attributes of which no two have one name is the same. -/
theorem empty_extend {as : Attributes} (h : as.names.Nodup) : empty.extend as = as :=
  foldl_set_of_nodup h

theorem get?_foldl_set (items : List (String × AttrValue)) (as : Attributes) (query : String) :
    (items.foldl (fun as (name, value) => as.set name value) as).get? query =
      (items.reverse.lookup query).or (as.get? query) := by
  induction items generalizing as with
  | nil => simp
  | cons item items ih =>
    obtain ⟨name, value⟩ := item
    rw [List.foldl_cons, ih, get?_set, List.reverse_cons, List.lookup_append, Option.or_assoc,
      lookup_cons_ite]
    split <;> simp

/-- What `other` writes last for a name is what the name gives. -/
theorem get?_extend (as other : Attributes) (query : String) :
    (as.extend other).get? query = (other.items.reverse.lookup query).or (as.get? query) :=
  get?_foldl_set other.items as query

end Attributes

end KernelGraph
