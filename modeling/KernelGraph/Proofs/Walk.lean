import KernelGraph.Proofs.Identity
import Mathlib.Data.List.Basic

/-!
Walks over the nodes of expressions. A walk goes on from a node to smaller ones and is finished with
the node after all of them. Its nodes can be listed in that order with none twice, and the list can
be made on the way: what is listed is left alone (`list_of_mem`), and anything else is listed after
what the walk goes on to from it (`list_of_not_mem`). That is right where identities are
unambiguous.
-/

namespace KernelGraph

/-- The nodes of a list, each where its identity occurs first. -/
def Expr.distinct (es : List Expr) : List Expr := es.eraseDupsBy fun x y => x.id == y.id

/-- The place of a node in a list, by its identity. -/
def Expr.placeIn (e : Expr) (es : List Expr) : Nat := (es.map Expr.id).idxOf e.id

theorem Expr.placeIn_lt {e : Expr} {es : List Expr} (h : e.id ∈ es.map Expr.id) :
    e.placeIn es < es.length := by
  have hlength : (es.map Expr.id).length = es.length := List.length_map _
  rw [← hlength]
  exact List.idxOf_lt_length_iff.2 h

theorem Expr.placeIn_of_getElem? {e : Expr} {es : List Expr} (hids : (es.map Expr.id).Nodup)
    {i : Nat} (he : es[i]? = some e) : e.placeIn es = i := by
  obtain ⟨hi, rfl⟩ := List.getElem?_eq_some_iff.1 he
  have hi' : i < (es.map Expr.id).length := by rwa [List.length_map]
  have hmap : es[i].id = (es.map Expr.id)[i] := by rw [List.getElem_map]
  rw [placeIn, hmap, hids.idxOf_getElem]

theorem Expr.getElem?_placeIn {e : Expr} {es : List Expr} (hids : (es.map Expr.id).Nodup)
    (he : e ∈ es) : es[e.placeIn es]? = some e := by
  obtain ⟨i, hi⟩ := List.mem_iff_getElem?.1 he
  rw [placeIn_of_getElem? hids hi, hi]

/-- Nodes that are listed keep their places. -/
theorem Expr.placeIn_of_isPrefix {e : Expr} {es ds : List Expr} (h : es <+: ds)
    (he : e.id ∈ es.map Expr.id) : e.placeIn ds = e.placeIn es := by
  obtain ⟨rest, rfl⟩ := h
  rw [placeIn, List.map_append, List.idxOf_append_of_mem he, placeIn]

/-- A node that is new comes last. -/
theorem Expr.placeIn_concat {e : Expr} {es : List Expr} (h : e.id ∉ es.map Expr.id) :
    e.placeIn (es ++ [e]) = es.length := by
  rw [placeIn, List.map_append, List.idxOf_append_of_notMem h, List.length_map, List.map_singleton,
    List.idxOf_cons_self, Nat.add_zero]

/-- A table knows the nodes of a list and no others, each by what stands for its place. -/
structure Expr.Tabled {α : Type} (value : Nat → α) (lookup : Nat → Option α) (es : List Expr) :
    Prop where
  known : ∀ x ∈ es, lookup x.id = some (value (x.placeIn es))
  unknown : ∀ id, id ∉ es.map Expr.id → lookup id = none

namespace Expr.Tabled

variable {α : Type} {value : Nat → α} {lookup : Nat → Option α} {es : List Expr}

theorem mem_of_lookup (h : Tabled value lookup es) {id : Nat} {a : α} (hid : lookup id = some a) :
    id ∈ es.map Expr.id := by
  by_contra hnew
  rw [h.unknown id hnew] at hid
  cases hid

theorem not_mem_of_lookup (h : Tabled value lookup es) {id : Nat} (hid : lookup id = none) :
    id ∉ es.map Expr.id := by
  intro hmem
  obtain ⟨x, hx, rfl⟩ := List.mem_map.1 hmem
  rw [h.known x hx] at hid
  cases hid

/-- A node that is new takes the next place. -/
theorem concat (h : Tabled value lookup es) {x : Expr} (hx : x.id ∉ es.map Expr.id)
    {lookup' : Nat → Option α}
    (hlookup : ∀ id, lookup' id = if id = x.id then some (value es.length) else lookup id) :
    Tabled value lookup' (es ++ [x]) := by
  refine ⟨fun y hy => ?_, fun id hid => ?_⟩
  · rw [hlookup]
    by_cases hid : y.id = x.id
    · have heq : y = x := by
        rcases List.mem_append.1 hy with hy | hy
        · exact absurd (hid ▸ List.mem_map_of_mem hy) hx
        · exact List.mem_singleton.1 hy
      rw [if_pos hid, heq, placeIn_concat hx]
    · have hmem : y ∈ es := by
        rcases List.mem_append.1 hy with hy | hy
        · exact hy
        · exact absurd (congrArg Expr.id (List.mem_singleton.1 hy)) hid
      rw [if_neg hid, placeIn_of_isPrefix (List.prefix_append es [x]) (List.mem_map_of_mem hmem)]
      exact h.known y hmem
  · rw [List.map_append, List.mem_append, not_or, List.map_singleton, List.mem_singleton] at hid
    rw [hlookup, if_neg hid.2]
    exact h.unknown id hid.1

end Expr.Tabled

/-- Where a walk goes on from a node. -/
structure Walk where
  next : Expr → List Expr
  size_lt : ∀ {e a : Expr}, a ∈ next e → a.size < e.size

namespace Walk

/-- The nodes in the order in which the walk is finished with them, each as often as it is reached.
-/
def postorder (w : Walk) (e : Expr) : List Expr :=
  ((w.next e).attach.flatMap fun a => w.postorder a.1) ++ [e]
termination_by e.size
decreasing_by exact w.size_lt a.2

/-- Nodes of which each comes once, and after those that the walk goes on to from it. -/
inductive Ordered (w : Walk) : List Expr → Prop
  | nil : Ordered w []
  | concat {es : List Expr} {x : Expr} : Ordered w es → x.id ∉ es.map Expr.id →
      w.next x ⊆ es → Ordered w (es ++ [x])

/-- Lists the nodes of `es` after those that are listed already, unless their identities are. -/
def enlist (listed es : List Expr) : List Expr :=
  es.foldl (fun listed x => if x.id ∈ listed.map Expr.id then listed else listed ++ [x]) listed

/-- Lists the nodes of the walks from `es`. -/
def list (w : Walk) (listed es : List Expr) : List Expr := enlist listed (es.flatMap w.postorder)

/-! ### Listing nodes -/

theorem enlist_append (listed es ds : List Expr) :
    enlist listed (es ++ ds) = enlist (enlist listed es) ds := List.foldl_append

theorem enlist_singleton (listed : List Expr) (x : Expr) :
    enlist listed [x] = if x.id ∈ listed.map Expr.id then listed else listed ++ [x] := rfl

theorem enlist_cons (listed : List Expr) (x : Expr) (es : List Expr) :
    enlist listed (x :: es) = enlist (enlist listed [x]) es := rfl

theorem prefix_enlist (listed es : List Expr) : listed <+: enlist listed es := by
  induction es generalizing listed with
  | nil => exact List.prefix_refl listed
  | cons x es ih =>
      have hx : listed <+: enlist listed [x] := by
        rw [enlist_singleton]
        split
        · exact List.prefix_refl listed
        · exact List.prefix_append listed [x]
      rw [enlist_cons]
      exact hx.trans (ih _)

/-- Nothing is listed twice. -/
theorem enlist_of_subset {listed es : List Expr} (h : es ⊆ listed) : enlist listed es = listed := by
  induction es with
  | nil => rfl
  | cons x es ih =>
      obtain ⟨hx, hes⟩ := List.cons_subset.1 h
      rw [enlist_cons, enlist_singleton, if_pos (List.mem_map_of_mem hx), ih hes]

theorem mem_of_mem_enlist {listed es : List Expr} {x : Expr} (h : x ∈ enlist listed es) :
    x ∈ listed ∨ x ∈ es := by
  induction es generalizing listed with
  | nil => exact .inl h
  | cons y es ih =>
      rw [enlist_cons, enlist_singleton] at h
      have hmem := ih h
      split at hmem
      · exact hmem.imp id (List.mem_cons_of_mem y)
      · rcases hmem with hmem | hmem
        · rcases List.mem_append.1 hmem with hmem | hmem
          · exact .inl hmem
          · exact .inr (List.mem_singleton.1 hmem ▸ List.mem_cons_self)
        · exact .inr (List.mem_cons_of_mem y hmem)

theorem id_mem_enlist {listed es : List Expr} {x : Expr} (h : x ∈ es) :
    x.id ∈ (enlist listed es).map Expr.id := by
  induction es generalizing listed with
  | nil => cases h
  | cons y es ih =>
      rw [enlist_cons]
      rcases List.mem_cons.1 h with rfl | h
      · have hx : x.id ∈ (enlist listed [x]).map Expr.id := by
          rw [enlist_singleton]
          split
          · assumption
          · simp
        exact ((prefix_enlist _ es).map Expr.id).subset hx
      · exact ih h

/-- What is not listed yet is listed where it occurs first. -/
theorem enlist_eq (listed es : List Expr) :
    enlist listed es = listed ++ Expr.distinct (es.filter fun x => x.id ∉ listed.map Expr.id) := by
  induction es generalizing listed with
  | nil => simp [enlist, Expr.distinct]
  | cons x es ih =>
      rw [enlist_cons, ih, enlist_singleton]
      by_cases hx : x.id ∈ listed.map Expr.id
      · rw [if_pos hx, List.filter_cons_of_neg (by simpa using hx)]
      · rw [if_neg hx, List.filter_cons_of_pos (by simpa using hx), Expr.distinct, Expr.distinct,
          List.eraseDupsBy_cons, List.filter_filter, List.append_assoc]
        have hfilter : es.filter (fun y => y.id ∉ (listed ++ [x]).map Expr.id) =
            es.filter fun y =>
              decide ((y.id == x.id) = false) && decide (y.id ∉ listed.map Expr.id) := by
          refine List.filter_congr fun y _ => ?_
          simp [and_comm]
        rw [hfilter, List.singleton_append]

theorem enlist_nil_left (es : List Expr) : enlist [] es = Expr.distinct es := by
  rw [enlist_eq]
  simp

/-! ### Walks -/

variable {w : Walk}

theorem postorder_eq (w : Walk) (e : Expr) :
    w.postorder e = (w.next e).flatMap w.postorder ++ [e] := by
  rw [postorder]
  congr 1
  exact List.flatMap_subtype (fun _ _ => rfl) |>.trans (by rw [List.unattach_attach])

theorem mem_postorder_self (w : Walk) (e : Expr) : e ∈ w.postorder e := by
  rw [postorder_eq]
  exact List.mem_append_right _ List.mem_cons_self

theorem mem_postorder_iff {e x : Expr} :
    x ∈ w.postorder e ↔ x = e ∨ ∃ a ∈ w.next e, x ∈ w.postorder a := by
  rw [postorder_eq, List.mem_append, List.mem_flatMap, List.mem_singleton, or_comm]

/-- Where a walk comes to, it starts or has gone on to. -/
theorem eq_or_mem_next_of_mem_postorder {e x : Expr} (h : x ∈ w.postorder e) :
    x = e ∨ ∃ y ∈ w.postorder e, x ∈ w.next y := by
  rcases mem_postorder_iff.1 h with rfl | ⟨a, ha, hx⟩
  · exact .inl rfl
  · have hlt := w.size_lt ha
    rcases eq_or_mem_next_of_mem_postorder hx with rfl | ⟨y, hy, hx⟩
    · exact .inr ⟨e, mem_postorder_self w e, ha⟩
    · exact .inr ⟨y, mem_postorder_iff.2 (.inr ⟨a, ha, hy⟩), hx⟩
termination_by e.size

theorem size_le_of_mem_postorder {e x : Expr} (h : x ∈ w.postorder e) : x.size ≤ e.size := by
  rcases mem_postorder_iff.1 h with rfl | ⟨a, ha, hx⟩
  · exact Nat.le_refl _
  · have hlt := w.size_lt ha
    exact Nat.le_trans (size_le_of_mem_postorder hx) (Nat.le_of_lt hlt)
termination_by e.size

/-- What holds of the nodes of a walk holds of those of the walks that it goes on with. -/
theorem forall_postorder_next {nodes : Expr → Prop} {e a : Expr}
    (he : ∀ x ∈ w.postorder e, nodes x) (ha : a ∈ w.next e) : ∀ x ∈ w.postorder a, nodes x :=
  fun x hx => he x (mem_postorder_iff.2 (.inr ⟨a, ha, hx⟩))

namespace Ordered

theorem nodup {es : List Expr} (h : w.Ordered es) : (es.map Expr.id).Nodup := by
  induction h with
  | nil => exact List.nodup_nil
  | concat _ hx _ ih =>
      rw [List.map_append, List.map_singleton]
      exact List.nodup_append'.2 ⟨ih, List.nodup_singleton _, by simpa using hx⟩

/-- The walk does not lead out of the list. -/
theorem next_subset {es : List Expr} (h : w.Ordered es) : ∀ x ∈ es, w.next x ⊆ es := by
  induction h with
  | nil => exact fun _ hx => by cases hx
  | concat _ _ hnext ih =>
      intro y hy
      rcases List.mem_append.1 hy with hy | hy
      · exact List.Subset.trans (ih y hy) (List.subset_append_left _ _)
      · rw [List.mem_singleton.1 hy]
        exact List.Subset.trans hnext (List.subset_append_left _ _)

/-- The walk leads to earlier places. -/
theorem placeIn_lt {es : List Expr} (h : w.Ordered es) :
    ∀ x ∈ es, ∀ a ∈ w.next x, a.placeIn es < x.placeIn es := by
  induction h with
  | nil => exact fun _ hx => by cases hx
  | @concat es y hes hy hnext ih =>
      intro x hx a ha
      have hold : ∀ z ∈ es, z.placeIn (es ++ [y]) = z.placeIn es := fun z hz =>
        Expr.placeIn_of_isPrefix (List.prefix_append es [y]) (List.mem_map_of_mem hz)
      rcases List.mem_append.1 hx with hx | hx
      · rw [hold x hx, hold a (hes.next_subset x hx ha)]
        exact ih x hx a ha
      · obtain rfl := List.mem_singleton.1 hx
        rw [hold a (hnext ha), Expr.placeIn_concat hy]
        exact Expr.placeIn_lt (List.mem_map_of_mem (hnext ha))

theorem postorder_subset {es : List Expr} (h : w.Ordered es) {e : Expr} (he : e ∈ es) :
    w.postorder e ⊆ es := by
  intro x hx
  rcases mem_postorder_iff.1 hx with rfl | ⟨a, ha, hx⟩
  · exact he
  · have hlt := w.size_lt ha
    exact h.postorder_subset (h.next_subset e he ha) hx
termination_by e.size

end Ordered

/-! ### Listing the nodes of walks -/

theorem list_append (listed es ds : List Expr) :
    w.list listed (es ++ ds) = w.list (w.list listed es) ds := by
  rw [list, List.flatMap_append, enlist_append, list, list]

theorem list_cons (listed : List Expr) (e : Expr) (es : List Expr) :
    w.list listed (e :: es) = w.list (w.list listed [e]) es :=
  list_append listed [e] es

theorem prefix_list (listed es : List Expr) : listed <+: w.list listed es := prefix_enlist _ _

theorem id_mem_list {listed es : List Expr} {x : Expr} (h : x ∈ es) :
    x.id ∈ (w.list listed es).map Expr.id :=
  id_mem_enlist (List.mem_flatMap.2 ⟨x, h, mem_postorder_self w x⟩)

theorem mem_of_mem_list {listed es : List Expr} {x : Expr} (h : x ∈ w.list listed es) :
    x ∈ listed ∨ ∃ e ∈ es, x ∈ w.postorder e :=
  (mem_of_mem_enlist h).imp id List.mem_flatMap.1

/-- What holds of the nodes listed and of those of some walks holds of all that is listed then. -/
theorem forall_mem_list {nodes : Expr → Prop} {listed es : List Expr}
    (hlisted : ∀ x ∈ listed, nodes x) (hes : ∀ d ∈ es, ∀ x ∈ w.postorder d, nodes x) :
    ∀ x ∈ w.list listed es, nodes x := by
  intro x hx
  rcases mem_of_mem_list hx with hx | ⟨d, hd, hx⟩
  · exact hlisted x hx
  · exact hes d hd x hx

section Unambiguous

variable {nodes : Expr → Prop}

/-- What is listed is known by its identity. -/
theorem mem_of_id_mem (hids : Expr.Unambiguous nodes) {listed : List Expr}
    (hlisted : ∀ x ∈ listed, nodes x) {e : Expr} (he : nodes e) (h : e.id ∈ listed.map Expr.id) :
    e ∈ listed := by
  obtain ⟨x, hx, hid⟩ := List.mem_map.1 h
  exact hids x e (hlisted x hx) he hid ▸ hx

theorem mem_enlist_iff (hids : Expr.Unambiguous nodes) {listed es : List Expr}
    (hlisted : ∀ x ∈ listed, nodes x) (hes : ∀ x ∈ es, nodes x) {x : Expr} :
    x ∈ enlist listed es ↔ x ∈ listed ∨ x ∈ es := by
  refine ⟨mem_of_mem_enlist, ?_⟩
  rintro (hx | hx)
  · exact (prefix_enlist listed es).subset hx
  · have hnodes : ∀ y ∈ enlist listed es, nodes y := fun y hy =>
      (mem_of_mem_enlist hy).elim (hlisted y) (hes y)
    exact mem_of_id_mem hids hnodes (hes x hx) (id_mem_enlist hx)

theorem mem_distinct_iff (hids : Expr.Unambiguous nodes) {es : List Expr}
    (hes : ∀ x ∈ es, nodes x) {x : Expr} : x ∈ Expr.distinct es ↔ x ∈ es := by
  rw [← enlist_nil_left, mem_enlist_iff hids (fun _ hy => by cases hy) hes]
  simp

variable (hids : Expr.Unambiguous nodes) {listed es : List Expr} (hordered : w.Ordered listed)
  (hlisted : ∀ x ∈ listed, nodes x) {e : Expr} (he : ∀ x ∈ w.postorder e, nodes x)
  (hes : ∀ d ∈ es, ∀ x ∈ w.postorder d, nodes x)

include hids hlisted hes in
theorem mem_list_iff {x : Expr} :
    x ∈ w.list listed es ↔ x ∈ listed ∨ ∃ e ∈ es, x ∈ w.postorder e := by
  have hwalks : ∀ y ∈ es.flatMap w.postorder, nodes y := fun y hy => by
    obtain ⟨d, hd, hy⟩ := List.mem_flatMap.1 hy
    exact hes d hd y hy
  rw [list, mem_enlist_iff hids hlisted hwalks, List.mem_flatMap]

include hids hordered hlisted he in
/-- What is listed is left alone. -/
theorem list_of_mem (h : e.id ∈ listed.map Expr.id) : w.list listed [e] = listed := by
  have hmem : e ∈ listed := mem_of_id_mem hids hlisted (he e (w.mem_postorder_self e)) h
  rw [list, List.flatMap_singleton]
  exact enlist_of_subset (hordered.postorder_subset hmem)

include hids he in
/-- A node is not listed on the way to it. -/
theorem not_mem_list_next (h : e.id ∉ listed.map Expr.id) :
    e.id ∉ (w.list listed (w.next e)).map Expr.id := by
  intro hmem
  obtain ⟨x, hlist, hid⟩ := List.mem_map.1 hmem
  rcases mem_of_mem_list hlist with hold | ⟨a, ha, hx⟩
  · exact h (hid ▸ List.mem_map_of_mem hold)
  · have hxe : x ∈ w.postorder e := mem_postorder_iff.2 (.inr ⟨a, ha, hx⟩)
    obtain rfl := hids x e (he x hxe) (he e (w.mem_postorder_self e)) hid
    have hsize : x.size ≤ a.size := size_le_of_mem_postorder hx
    have hlt := w.size_lt ha
    omega

include hids he in
/-- Anything else is listed after what the walk goes on to from it. -/
theorem list_of_not_mem (h : e.id ∉ listed.map Expr.id) :
    w.list listed [e] = w.list listed (w.next e) ++ [e] := by
  have hnew := not_mem_list_next hids he h
  calc w.list listed [e]
      = enlist listed ((w.next e).flatMap w.postorder ++ [e]) := by
        rw [list, List.flatMap_singleton, postorder_eq]
    _ = enlist (w.list listed (w.next e)) [e] := by rw [enlist_append, list]
    _ = w.list listed (w.next e) ++ [e] := by rw [enlist_singleton, if_neg hnew]

include hids he in
theorem prefix_list_next (h : e.id ∉ listed.map Expr.id) :
    w.list listed (w.next e) <+: w.list listed [e] := by
  rw [list_of_not_mem hids he h]
  exact List.prefix_append _ _

end Unambiguous

end Walk

end KernelGraph
