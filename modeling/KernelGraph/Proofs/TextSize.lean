import KernelGraph.Document.Json
import KernelGraph.Proofs.GraphText
import KernelGraph.Proofs.Loading

/-!
What is read from a text is no larger than the text. Every token of a text takes a character of it,
and the tree of a text has a value for every token at most, so that a document has fewer records
than its text has characters (`Document.length_records_lt`). A graph has a node for every record at
most (`Expr.Yields.length_le_records`). The numbers of the nodes are thus words in every graph that
is made of a text that fits into a memory.
-/

namespace KernelGraph

theorem length_le_utf8ByteSize (s : String) : s.length ≤ s.utf8ByteSize := by
  induction s using String.push_induction with
  | empty => exact le_rfl
  | push s c ih =>
      rw [String.length_push, String.utf8ByteSize_push]
      exact Nat.add_le_add ih c.utf8Size_pos

theorem Token.length_ofChars_le (cs : List Char) : (ofChars cs).length ≤ cs.length := by
  fun_induction ofChars cs with
  | case1 => exact le_rfl
  | case2 c cs _ ih => exact ih.trans (Nat.le_succ _)
  | case3 c cs _ ih => exact Nat.succ_le_succ (ih.trans (length_next_le c cs))

namespace Draft

mutual

/-- The values of a tree, those inside of others among them. A name is no value. -/
def count : Draft → Nat
  | .list items _ => countItems items + 1
  | .record fields _ => countFields fields + 1
  | _ => 1

def countItems : List Draft → Nat
  | [] => 0
  | d :: ds => d.count + countItems ds

def countFields : List (Draft × Draft) → Nat
  | [] => 0
  | (_, d) :: fields => d.count + countFields fields

end

/-- The values behind a bracket that is open, and the one that it will be. -/
def Opening.count : Opening → Nat
  | .list items => countItems items + 1
  | .record fields _ => countFields fields + 1

def countOpen (stack : List Opening) : Nat := (stack.map Opening.count).sum

theorem countOpen_cons (opening : Opening) (stack : List Opening) :
    countOpen (opening :: stack) = opening.count + countOpen stack := by
  rw [countOpen, List.map_cons, List.sum_cons, countOpen]

theorem countItems_eq_sum (items : List Draft) : countItems items = (items.map count).sum := by
  induction items with
  | nil => rfl
  | cons d ds ih => rw [countItems, ih, List.map_cons, List.sum_cons]

theorem countFields_eq_sum (fields : List (Draft × Draft)) :
    countFields fields = (fields.map fun field => field.2.count).sum := by
  induction fields with
  | nil => rfl
  | cons field fields ih => rw [countFields, ih, List.map_cons, List.sum_cons]

theorem count_list (items : List Draft) (closed : Bool) :
    (list items.reverse closed).count = countItems items + 1 := by
  rw [count, countItems_eq_sum, countItems_eq_sum, List.map_reverse, List.sum_reverse]

theorem count_record (fields : List (Draft × Draft)) (closed : Bool) :
    (record fields.reverse closed).count = countFields fields + 1 := by
  rw [count, countFields_eq_sum, countFields_eq_sum, List.map_reverse, List.sum_reverse]

theorem Opening.count_abandon (opening : Opening) (d : Draft) :
    (opening.abandon d).count = opening.count + d.count := by
  cases opening with
  | list items =>
      rw [abandon, count_list, countItems, count]
      omega
  | record fields name =>
      rw [abandon, count_record, countFields, count]
      omega

theorem count_abandon (stack : List Opening) (d : Draft) :
    (abandon stack d).count = countOpen stack + d.count := by
  induction stack generalizing d with
  | nil => exact (Nat.zero_add _).symm
  | cons opening stack ih =>
      have hcount := ih (opening.abandon d)
      rw [opening.count_abandon] at hcount
      rw [countOpen_cons]
      exact hcount.trans (by omega)

/-- A tree has a value for every token at most, and one more where it is broken off. -/
theorem count_value_le (stack : List Opening) (ts : List Token) :
    (value stack ts).draft.count ≤ countOpen stack + ts.length + 1 := by
  refine (value.mutual_induct
    (fun stack ts => (value stack ts).draft.count ≤ countOpen stack + ts.length + 1)
    (fun stack fields ts => (name stack fields ts).draft.count ≤
      countOpen stack + (countFields fields + 1) + ts.length + 1)
    (fun stack d ts => (after stack d ts).draft.count ≤ countOpen stack + d.count + ts.length)
    ?null ?bool ?number ?text ?emptyList ?openList ?emptyRecord ?openRecord ?broken ?named ?unnamed
    ?nameless ?whole ?nextItem ?closeList ?nextField ?closeRecord ?abandoned).1 stack ts
  -- a value is one token
  case null | bool | number | text =>
      intros
      simp only [value, count, List.length_cons] at *
      omega
  case emptyList | emptyRecord =>
      intros
      simp only [value, count, countItems, countFields, List.length_cons] at *
      omega
  -- a bracket is one more value, and so is what is missing where the text goes wrong
  case openList | openRecord =>
      intros
      simp only [value, countOpen_cons, Opening.count, countItems, countFields,
        List.length_cons] at *
      omega
  case broken =>
      intros
      simp only [value, count_abandon, count]
      omega
  case named =>
      intros
      simp only [name, countOpen_cons, Opening.count, List.length_cons] at *
      omega
  case unnamed | nameless =>
      intros
      rw [name]
      · simp only [count_abandon, countOpen_cons, Opening.count, count]
        omega
      all_goals assumption
  case whole =>
      intros
      simp only [after]
      omega
  case nextItem | nextField =>
      intros
      simp only [after, countOpen_cons, Opening.count, countItems, countFields,
        List.length_cons] at *
      omega
  case closeList | closeRecord =>
      intros
      simp only [after, countOpen_cons, Opening.count, count_list, count_record, countItems,
        countFields, List.length_cons] at *
      omega
  case abandoned =>
      intros
      simp only [after, count_abandon, countOpen_cons, Opening.count_abandon]
      omega

/-- The tree of a text has no more values than the text has characters, and one more if it is broken
off. -/
theorem count_ofText_le (text : String) : (ofText text).draft.count ≤ text.length + 1 := by
  have hcount := count_value_le [] (Token.ofChars text.toList)
  have htokens := Token.length_ofChars_le text.toList
  rw [String.length_toList] at htokens
  exact hcount.trans (by simpa [countOpen] using htokens)

theorem count_lt_of_mem_list {d : Draft} {items : List Draft} (h : d ∈ items) (closed : Bool) :
    d.count < (list items closed).count := by
  rw [count, countItems_eq_sum]
  exact Nat.lt_succ_of_le (List.le_sum_of_mem (List.mem_map_of_mem h))

theorem count_lt_of_mem_record {field : Draft × Draft} {fields : List (Draft × Draft)}
    (h : field ∈ fields) (closed : Bool) : field.2.count < (record fields closed).count := by
  rw [count, countFields_eq_sum]
  exact Nat.lt_succ_of_le (List.le_sum_of_mem (List.mem_map_of_mem h))

theorem length_lt_count (items : List Draft) (closed : Bool) :
    items.length < (list items closed).count := by
  have hone : ∀ d : Draft, 1 ≤ d.count := by
    intro d
    cases d <;> simp [count]
  rw [count, countItems_eq_sum, Nat.lt_succ_iff]
  simpa using List.length_le_sum_of_one_le (items.map count) (by simpa using fun d _ => hone d)

theorem unfit_ne_ok {α : Type} {d : Draft} {expected : String} {x : α} :
    d.unfit expected ≠ .ok x := by
  intro h
  obtain ⟨_, -, h⟩ := exists_of_bind_eq_ok h
  cases h

theorem length_of_mapM {α : Type} {item : Draft → Read α} {items : List Draft} {xs : List α}
    (h : items.mapM item = .ok xs) : xs.length = items.length := by
  induction items generalizing xs with
  | nil =>
      cases h
      rfl
  | cons d ds ih =>
      rw [List.mapM_cons] at h
      obtain ⟨x, -, h⟩ := exists_of_bind_eq_ok h
      obtain ⟨rest, hrest, h⟩ := exists_of_bind_eq_ok h
      cases h
      exact congrArg Nat.succ (ih hrest)

/-- A list that was read has fewer items than its tree has values. -/
theorem length_lt_of_readList {α : Type} {item : Draft → Read α} {d : Draft} {xs : List α}
    (h : d.readList item = .ok xs) : xs.length < d.count := by
  unfold readList at h
  split at h
  · rename_i items closed
    obtain ⟨ys, hys, h⟩ := exists_of_bind_eq_ok h
    obtain ⟨_, -, h⟩ := exists_of_bind_eq_ok h
    cases h
    exact length_of_mapM hys ▸ length_lt_count items closed
  · exact absurd h unfit_ne_ok

theorem exists_of_fill {α : Type} {field : String} {slot filled : Option α} {value : Read α}
    (h : fill field slot value = .ok filled) : ∃ x, value = .ok x ∧ filled = some x := by
  cases slot with
  | some _ => cases h
  | none =>
      cases value with
      | error e => cases h
      | ok x =>
          cases h
          exact ⟨x, rfl, rfl⟩

theorem eq_some_of_need {α : Type} {field : String} {slot : Option α} {x : α}
    (h : need field slot = .ok x) : slot = some x := by
  cases slot with
  | none => cases h
  | some _ =>
      cases h
      rfl

namespace Fields

variable {σ : Type} {f : Fields} {step : σ → String → Draft → Read σ} {P : σ → Prop}

theorem readItems_induction {closed : Bool} {i : Nat} {fields : List (String × Bool)}
    {items : List Draft} {acc x : σ} (h : f.readItems step closed i fields items acc = .ok x)
    (hacc : P acc)
    (hstep : ∀ d ∈ items, ∀ acc name acc', P acc → step acc name d = .ok acc' → P acc') : P x := by
  fun_induction readItems f step closed i fields items acc with
  | case1 i field needed fields d ds acc ih =>
      obtain ⟨acc', hacc', h⟩ := exists_of_bind_eq_ok h
      exact ih acc' h (hstep d List.mem_cons_self acc field acc' hacc hacc') fun d' hd' =>
        hstep d' (List.mem_cons_of_mem d hd')
  | case2 i name needed fields acc ih =>
      obtain ⟨_, -, h⟩ := exists_of_bind_eq_ok h
      split at h
      · cases h
      · exact ih h hacc hstep
  | case3 =>
      cases h
      exact hacc

theorem ofFields_induction {pass : Pass} {fields : List (Draft × Draft)} {acc x : σ}
    (h : f.ofFields pass step acc fields = .ok x) (hacc : P acc)
    (hstep : ∀ field ∈ fields, ∀ acc name acc', P acc → step acc name field.2 = .ok acc' → P acc') :
    P x := by
  induction fields generalizing acc with
  | nil =>
      cases h
      exact hacc
  | cons field fields ih =>
      obtain ⟨acc', hacc', h⟩ := exists_of_bind_eq_ok h
      refine ih h ?_ fun field' hfield' => hstep field' (List.mem_cons_of_mem field hfield')
      obtain ⟨name, -, hacc'⟩ := exists_of_bind_eq_ok hacc'
      split at hacc'
      · exact hstep field List.mem_cons_self acc name acc' hacc hacc'
      · obtain ⟨_, -, hacc'⟩ := exists_of_bind_eq_ok hacc'
        cases hacc'
        exact hacc

/-- What holds at the start of a record, and goes on to hold when a field is read whose value is
inside of the record, holds of what is read. -/
theorem read_induction {pass : Pass} {start x : σ} {d : Draft}
    (h : f.read pass step start d = .ok x) (hstart : P start)
    (hstep : ∀ d' : Draft, d'.count < d.count → ∀ acc name acc', P acc →
      step acc name d' = .ok acc' → P acc') : P x := by
  unfold read at h
  split at h
  · rename_i items closed
    obtain ⟨acc, hacc, h⟩ := exists_of_bind_eq_ok h
    have hx : P acc := readItems_induction hacc hstart fun d' hd' =>
      hstep d' (count_lt_of_mem_list hd' closed)
    split at h
    · obtain ⟨_, -, h⟩ := exists_of_bind_eq_ok h
      cases h
      exact hx
    · cases pass <;> cases h
  · rename_i fields closed
    obtain ⟨acc, hacc, h⟩ := exists_of_bind_eq_ok h
    obtain ⟨_, -, h⟩ := exists_of_bind_eq_ok h
    cases h
    exact ofFields_induction hacc hstart fun field hfield =>
      hstep field.2 (count_lt_of_mem_record hfield closed)
  · exact absurd h unfit_ne_ok

end Fields

end Draft

namespace Document

theorem length_lt_of_readField {slots slots' : Slots} {field : String} {d : Draft} {n : Nat}
    (h : readField slots field d = .ok slots') (hd : d.count ≤ n)
    (hslots : ∀ records, slots.records = some records → records.length < n) :
    ∀ records, slots'.records = some records → records.length < n := by
  intro records hrecords
  unfold readField at h
  split at h
  · obtain ⟨filled, hfilled, h⟩ := exists_of_bind_eq_ok h
    cases h
    obtain ⟨read, hread, hsome⟩ := Draft.exists_of_fill hfilled
    cases hsome.symm.trans hrecords
    exact (Draft.length_lt_of_readList hread).trans_le hd
  · obtain ⟨filled, -, h⟩ := exists_of_bind_eq_ok h
    cases h
    exact hslots records hrecords
  · cases h
    exact hslots records hrecords

/-- A document has fewer records than its text has bytes. -/
theorem length_records_lt {text : String} {d : Document} (h : parse text = .ok d) :
    d.records.length < text.utf8ByteSize := by
  obtain ⟨hread, -⟩ := Draft.readWhole_eq_ok_iff.1 h
  obtain ⟨slots, hslots, hread⟩ := exists_of_bind_eq_ok hread
  obtain ⟨records, hrecords, hread⟩ := exists_of_bind_eq_ok hread
  obtain ⟨root, -, hread⟩ := exists_of_bind_eq_ok hread
  cases hread
  have hcount := (Draft.count_ofText_le text).trans
    (Nat.succ_le_succ (length_le_utf8ByteSize text))
  refine Draft.Fields.read_induction (P := fun slots => ∀ records,
    slots.records = some records → records.length < text.utf8ByteSize) hslots nofun ?_ records
    (Draft.eq_some_of_need hrecords)
  intro d' hd' acc name acc' hacc hstep
  exact length_lt_of_readField hstep (Nat.le_of_lt_succ (hd'.trans_le hcount)) hacc

end Document

/-- A graph has no more nodes than the document that it is made of has records. -/
theorem Expr.Yields.length_le_records {d : Document} {root : Expr} {fallback : Option String}
    {g : Graph} (hbuild : d.build = .ok root) (h : root.Yields fallback g) :
    g.nodes.length ≤ d.records.length := by
  obtain ⟨f, symbol, t, hf, -, hserialize⟩ := h
  have hdenotes := d.reports_document.good_of_ok hbuild
  have hamong : ∀ x, Expr.Among (f.params ++ [f.body]) x → root.Reaches x := fun _ =>
    Expr.reaches_of_function? hf
  have hstart := (Lowering.Emitted.start symbol).note (.compiling symbol f.params.length)
  obtain ⟨ht, -, rfl⟩ := hstart.serialize (hdenotes.unambiguous.imp hamong) hserialize
  -- nodes have the places of their records for identities
  have hplaces : f.order.map Expr.id ⊆ List.range d.records.length := by
    intro place hplace
    obtain ⟨x, hx, rfl⟩ := List.mem_map.1 hplace
    have hrecord := hdenotes.records x (hamong x (f.among_of_mem_order x hx))
    exact List.mem_range.2 (List.getElem?_eq_some_iff.1 hrecord).1
  calc t.registry.nodes.length = (f.order.map Expr.id).length := by
        rw [List.length_map, ht.nodes.length_eq]
    _ ≤ (List.range d.records.length).length := (ht.ordered.nodup.subperm hplaces).length_le
    _ = d.records.length := List.length_range

theorem Expr.Yields.sum_outputs {root : Expr} {fallback : Option String} {g : Graph}
    (h : root.Yields fallback g) : (g.nodes.map Node.outputs).sum = g.nodes.length := by
  obtain ⟨f, symbol, t, -, -, hserialize⟩ := h
  have horderly := Lowering.orderly_serialize f ((Lowering.start symbol).note
    (.compiling symbol f.params.length)) Registry.wellFormed_empty
  obtain ⟨-, -, heads, -, -, rfl⟩ := Lowering.serialize_eq_ok_iff.1 hserialize
  rw [hserialize] at horderly
  cases horderly with
  | ok ht _ => exact ht.sum_outputs

/-- A graph that is made of a text has fewer outputs than the text has bytes. -/
theorem Expr.Yields.sum_outputs_lt {text : String} {d : Document} {root : Expr}
    {fallback : Option String} {g : Graph} (hparse : Document.parse text = .ok d)
    (hbuild : d.build = .ok root) (h : root.Yields fallback g) :
    (g.nodes.map Node.outputs).sum < text.utf8ByteSize := by
  rw [h.sum_outputs]
  exact (h.length_le_records hbuild).trans_lt (Document.length_records_lt hparse)

end KernelGraph
