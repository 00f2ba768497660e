/-!
Lists of named values in ascending order of their names, each name once. Names are compared by code
point, which is also the order of their encoded bytes.

A table is known by what is looked up in it: `lookup_insert` says what one more value changes, and
`lookup_ofList` that the last value of a name counts.
-/

namespace KernelGraph

/-- The first pair has the key that is looked up, or the rest decides. -/
theorem lookup_cons_ite {κ α : Type} [DecidableEq κ] (query key : κ) (value : α)
    (rest : List (κ × α)) :
    List.lookup query ((key, value) :: rest) =
      if query = key then some value else rest.lookup query := by
  by_cases h : query = key <;> simp [List.lookup_cons, h, beq_eq_false_iff_ne.2]

theorem lookup_map_snd {κ α β : Type} [DecidableEq κ] (f : α → β) (key : κ)
    (pairs : List (κ × α)) :
    (pairs.map fun (k, v) => (k, f v)).lookup key = (pairs.lookup key).map f := by
  induction pairs with
  | nil => rfl
  | cons pair pairs ih =>
    rw [List.map_cons, lookup_cons_ite, lookup_cons_ite, ih]
    split <;> rfl

theorem map_snd_eq_self {κ α : Type} {f : α → α} {pairs : List (κ × α)}
    (h : ∀ pair ∈ pairs, f pair.2 = pair.2) : (pairs.map fun (k, v) => (k, f v)) = pairs := by
  induction pairs with
  | nil => rfl
  | cons pair pairs ih =>
    obtain ⟨hpair, hpairs⟩ := List.forall_mem_cons.1 h
    rw [List.map_cons, ih hpairs]
    exact congrArg (fun v => (pair.1, v) :: pairs) hpair

/-- Where no key stands twice, a pair that is listed is found. -/
theorem lookup_eq_some_iff_mem {κ α : Type} [DecidableEq κ] {pairs : List (κ × α)}
    (h : (pairs.map (·.1)).Nodup) {key : κ} {value : α} :
    pairs.lookup key = some value ↔ (key, value) ∈ pairs := by
  induction pairs with
  | nil => simp
  | cons pair pairs ih =>
    obtain ⟨k, v⟩ := pair
    obtain ⟨hnew, hrest⟩ := List.nodup_cons.1 h
    rw [lookup_cons_ite, List.mem_cons, ← ih hrest]
    by_cases hk : key = k
    · subst hk
      have hnone : ¬ pairs.lookup key = some value := fun hfound =>
        hnew (List.mem_map.2 ⟨_, (ih hrest).1 hfound, rfl⟩)
      simp [hnone, eq_comm]
    · simp [hk]

/-- Where no key stands twice, the order of the pairs does not matter. -/
theorem lookup_eq_of_perm {κ α : Type} [DecidableEq κ] {pairs others : List (κ × α)}
    (h : pairs.Perm others) (hnodup : (pairs.map (·.1)).Nodup) (key : κ) :
    pairs.lookup key = others.lookup key := by
  apply Option.ext
  intro value
  rw [lookup_eq_some_iff_mem hnodup, lookup_eq_some_iff_mem ((h.map _).nodup hnodup), h.mem_iff]

theorem lookup_reverse {κ α : Type} [DecidableEq κ] {pairs : List (κ × α)}
    (h : (pairs.map (·.1)).Nodup) (key : κ) : pairs.reverse.lookup key = pairs.lookup key :=
  (lookup_eq_of_perm (List.reverse_perm pairs).symm h key).symm

namespace SortedTable

variable {α : Type}

/-- Names ascend, so that each stands once. -/
def Sorted (table : List (String × α)) : Prop := table.Pairwise fun a b => a.1 < b.1

/-- Gives `name` the value `value`, in place of the one it had. -/
def insert (name : String) (value : α) : List (String × α) → List (String × α)
  | [] => [(name, value)]
  | (n, v) :: rest =>
    if name < n then (name, value) :: (n, v) :: rest
    else if name = n then (name, value) :: rest
    else (n, v) :: insert name value rest

/-- The sorted table of some pairs, where the last value of a name counts. -/
def ofList (pairs : List (String × α)) : List (String × α) :=
  pairs.foldl (fun table (name, value) => insert name value table) []

theorem lookup_insert (name query : String) (value : α) (table : List (String × α)) :
    (insert name value table).lookup query =
      if query = name then some value else table.lookup query := by
  induction table with
  | nil => simp [insert, lookup_cons_ite]
  | cons entry rest ih =>
    obtain ⟨n, v⟩ := entry
    rw [insert]
    split
    · rw [lookup_cons_ite]
    · split
      · grind [lookup_cons_ite]
      · grind [lookup_cons_ite]

theorem mem_insert {name : String} {value : α} {table : List (String × α)} {entry : String × α}
    (h : entry ∈ insert name value table) : entry = (name, value) ∨ entry ∈ table := by
  induction table with
  | nil => simpa [insert] using h
  | cons head rest ih =>
    rw [insert] at h
    split at h
    · simpa using h
    · split at h
      · rcases List.mem_cons.1 h with h | h
        · exact .inl h
        · exact .inr (List.mem_cons_of_mem _ h)
      · rcases List.mem_cons.1 h with h | h
        · exact .inr (h ▸ List.mem_cons_self)
        · exact (ih h).imp_right (List.mem_cons_of_mem _)

theorem sorted_insert (name : String) (value : α) {table : List (String × α)} (h : Sorted table) :
    Sorted (insert name value table) := by
  induction table with
  | nil => exact List.pairwise_singleton _ _
  | cons entry rest ih =>
    obtain ⟨head, tail⟩ := List.pairwise_cons.1 h
    rw [insert]
    split
    · rename_i hlt
      refine List.pairwise_cons.2 ⟨fun other hmem => ?_, h⟩
      rcases List.mem_cons.1 hmem with rfl | hmem
      · exact hlt
      · exact String.lt_trans hlt (head _ hmem)
    · split
      · rename_i heq
        exact List.pairwise_cons.2 ⟨fun other hmem => heq ▸ head _ hmem, tail⟩
      · rename_i hlt hne
        refine List.pairwise_cons.2 ⟨fun other hmem => ?_, ih tail⟩
        rcases mem_insert hmem with rfl | hmem
        · exact Decidable.byContradiction fun hge =>
            hne (String.le_antisymm (String.not_lt.1 hge) (String.not_lt.1 hlt))
        · exact head _ hmem

theorem lookup_foldl_insert (pairs table : List (String × α)) (query : String) :
    (pairs.foldl (fun table (name, value) => insert name value table) table).lookup query =
      (pairs.reverse.lookup query).or (table.lookup query) := by
  induction pairs generalizing table with
  | nil => simp
  | cons pair pairs ih =>
    obtain ⟨name, value⟩ := pair
    rw [List.foldl_cons, ih, lookup_insert, List.reverse_cons, List.lookup_append, Option.or_assoc,
      lookup_cons_ite]
    split <;> simp

/-- The last value of a name counts. -/
theorem lookup_ofList (pairs : List (String × α)) (query : String) :
    (ofList pairs).lookup query = pairs.reverse.lookup query := by
  rw [ofList, lookup_foldl_insert]
  simp

theorem sorted_foldl_insert (pairs : List (String × α)) {table : List (String × α)}
    (h : Sorted table) :
    Sorted (pairs.foldl (fun table (name, value) => insert name value table) table) := by
  induction pairs generalizing table with
  | nil => exact h
  | cons pair pairs ih => exact ih (sorted_insert pair.1 pair.2 h)

theorem sorted_ofList (pairs : List (String × α)) : Sorted (ofList pairs) :=
  sorted_foldl_insert pairs List.Pairwise.nil

theorem mem_of_mem_foldl_insert {pairs table : List (String × α)} {entry : String × α}
    (h : entry ∈ pairs.foldl (fun table (name, value) => insert name value table) table) :
    entry ∈ pairs ∨ entry ∈ table := by
  induction pairs generalizing table with
  | nil => exact .inr h
  | cons pair pairs ih =>
    rcases ih h with hmem | hmem
    · exact .inl (List.mem_cons_of_mem _ hmem)
    · rcases mem_insert hmem with rfl | hmem
      · exact .inl List.mem_cons_self
      · exact .inr hmem

theorem mem_of_mem_ofList {pairs : List (String × α)} {entry : String × α}
    (h : entry ∈ ofList pairs) : entry ∈ pairs :=
  (mem_of_mem_foldl_insert h).resolve_right List.not_mem_nil

theorem ofList_eq_nil_iff {pairs : List (String × α)} : ofList pairs = [] ↔ pairs = [] := by
  cases pairs with
  | nil => exact ⟨fun _ => rfl, fun _ => rfl⟩
  | cons pair rest =>
    refine ⟨fun h => ?_, nofun⟩
    have hlookup := lookup_ofList (pair :: rest) pair.1
    rw [h, eq_comm] at hlookup
    have hpair := List.lookup_eq_none_iff.1 hlookup pair (List.mem_reverse.2 List.mem_cons_self)
    simp at hpair

/-- Values can be changed before a table is sorted or after. -/
theorem insert_map {β : Type} (f : α → β) (name : String) (value : α)
    (table : List (String × α)) :
    insert name (f value) (table.map fun (n, v) => (n, f v)) =
      (insert name value table).map fun (n, v) => (n, f v) := by
  induction table with
  | nil => rfl
  | cons entry rest ih =>
    obtain ⟨n, v⟩ := entry
    rw [List.map_cons, insert, insert, ih]
    by_cases hlt : name < n
    · rw [if_pos hlt, if_pos hlt]
      rfl
    · rw [if_neg hlt, if_neg hlt]
      by_cases heq : name = n
      · rw [if_pos heq, if_pos heq]
        rfl
      · rw [if_neg heq, if_neg heq]
        rfl

theorem foldl_insert_map {β : Type} (f : α → β) (pairs table : List (String × α)) :
    (pairs.map fun (n, v) => (n, f v)).foldl (fun table (name, value) => insert name value table)
        (table.map fun (n, v) => (n, f v)) =
      (pairs.foldl (fun table (name, value) => insert name value table) table).map
        fun (n, v) => (n, f v) := by
  induction pairs generalizing table with
  | nil => rfl
  | cons pair pairs ih =>
    obtain ⟨name, value⟩ := pair
    rw [List.map_cons, List.foldl_cons, List.foldl_cons, ← ih]
    dsimp only
    rw [insert_map]

theorem ofList_map {β : Type} (f : α → β) (pairs : List (String × α)) :
    ofList (pairs.map fun (n, v) => (n, f v)) = (ofList pairs).map fun (n, v) => (n, f v) :=
  foldl_insert_map f pairs []

/-! ### Tables of pairs of which no two have one name -/

theorem Sorted.nodup {table : List (String × α)} (h : Sorted table) :
    (table.map (·.1)).Nodup := by
  refine List.pairwise_map.2 (h.imp fun {a b} hlt heq => ?_)
  rw [heq] at hlt
  exact String.lt_irrefl _ hlt

/-- A new name is added to those that are there. -/
theorem perm_insert {name : String} (value : α) {table : List (String × α)}
    (h : name ∉ table.map (·.1)) : (insert name value table).Perm ((name, value) :: table) := by
  induction table with
  | nil => exact .refl _
  | cons entry rest ih =>
    obtain ⟨n, v⟩ := entry
    rw [List.map_cons, List.mem_cons, not_or] at h
    obtain ⟨hne, hrest⟩ := h
    rw [insert]
    by_cases hlt : name < n
    · rw [if_pos hlt]
    · rw [if_neg hlt, if_neg hne]
      exact ((ih hrest).cons _).trans (.swap ..)

theorem perm_foldl_insert (pairs : List (String × α)) {table : List (String × α)}
    (h : ((pairs ++ table).map (·.1)).Nodup) :
    (pairs.foldl (fun table (name, value) => insert name value table) table).Perm
      (pairs ++ table) := by
  induction pairs generalizing table with
  | nil => exact .refl _
  | cons pair pairs ih =>
    obtain ⟨name, value⟩ := pair
    have hmiddle : ((name, value) :: pairs ++ table).Perm (pairs ++ (name, value) :: table) :=
      List.perm_middle.symm
    have hnew : name ∉ table.map (·.1) := fun hmem =>
      (List.nodup_cons.1 h).1 (List.map_subset _ (List.subset_append_right _ _) hmem)
    have hinsert := (perm_insert value hnew).append_left pairs
    have hnodup : ((pairs ++ insert name value table).map (·.1)).Nodup :=
      ((hmiddle.trans hinsert.symm).map _).nodup h
    exact ((ih hnodup).trans hinsert).trans hmiddle.symm

theorem perm_ofList {pairs : List (String × α)} (h : (pairs.map (·.1)).Nodup) :
    (ofList pairs).Perm pairs := by
  have hnodup : ((pairs ++ ([] : List (String × α))).map (·.1)).Nodup := by
    rwa [List.append_nil]
  have hall := perm_foldl_insert pairs hnodup
  rwa [List.append_nil] at hall

theorem lookup_ofList_of_nodup {pairs : List (String × α)} (h : (pairs.map (·.1)).Nodup)
    (query : String) : (ofList pairs).lookup query = pairs.lookup query :=
  lookup_eq_of_perm (perm_ofList h) (sorted_ofList pairs).nodup query

/-- A sorted table is known by its entries. -/
theorem Sorted.eq_of_perm {table other : List (String × α)} (h : Sorted table)
    (hother : Sorted other) (hperm : table.Perm other) : table = other :=
  hperm.eq_of_pairwise (fun _ _ _ _ hlt hgt => (String.lt_asymm hlt hgt).elim) h hother

/-- A sorted table is known by what is looked up in it. -/
theorem Sorted.ext {table other : List (String × α)} (h : Sorted table) (hother : Sorted other)
    (hlookup : ∀ name, table.lookup name = other.lookup name) : table = other := by
  have hdistinct : ∀ {t : List (String × α)}, Sorted t → t.Nodup := by
    intro t ht
    refine ht.imp fun {a b} hlt heq => ?_
    rw [heq] at hlt
    exact String.lt_irrefl _ hlt
  apply h.eq_of_perm hother
  rw [List.perm_ext_iff_of_nodup (hdistinct h) (hdistinct hother)]
  rintro ⟨name, value⟩
  rw [← lookup_eq_some_iff_mem h.nodup, ← lookup_eq_some_iff_mem hother.nodup, hlookup]

theorem ofList_eq_self {table : List (String × α)} (h : Sorted table) : ofList table = table :=
  (sorted_ofList table).eq_of_perm h (perm_ofList h.nodup)

end SortedTable

end KernelGraph
