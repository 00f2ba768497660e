import KernelGraph.Proofs.Renaming
import Mathlib.Data.List.Induction

/-!
Which documents are expressions. A document is read record by record, and each record is checked
against those before it. `Record.faults` lists all that is wrong with a record, in the order in
which it is looked at, and a document that is no expression is refused with the first fault of its
first record that has one (`Document.build_spec`). What is read from a document in good order refers
to earlier nodes only, so it ends, and it is the expression that the records spell out, with a node
for each record that is shared wherever the record is.
-/

namespace KernelGraph

/-! ### What is asked of a record -/

/-- The kind of the node that a record describes. -/
def Record.typeKey : Record → String
  | var .. => "Var"
  | constant .. => "Constant"
  | call .. => "Call"
  | function .. => "Function"

def Record.isVar : Record → Bool
  | var .. => true
  | _ => false

/-- A record can be read after those of `earlier`: it refers to these only, a call has one target,
the parameters of a function are variables, and a constant has as many elements as its shape asks
for. -/
def Record.Fits (earlier : List Record) : Record → Prop
  | var .. => True
  | constant value => ∃ t, Tensor.make value.shape value.elements = .ok t
  | call op callee args _ =>
    op.isSome ≠ callee.isSome ∧ ∀ child ∈ callee.toList ++ args, child < earlier.length
  | function params body _ =>
    (∀ child ∈ params ++ [body], child < earlier.length) ∧
      ∀ p ∈ params, ∃ name type, earlier[p]? = some (.var name type)

/-- The references to what is no earlier record. -/
def Record.dangling (place : Nat) (children : List Nat) : List DocumentError :=
  (children.filter (place ≤ ·)).map (.reference place)

/-- The parameters that are earlier records, but not of variables. -/
def Record.misfits (earlier : List Record) (params : List Nat) : List DocumentError :=
  ((params.filterMap (earlier[·]?)).filter (!·.isVar)).map fun r =>
    .parameter earlier.length r.typeKey

/-- All that is wrong with a record after those of `earlier`. The target of a call comes before its
arguments. The parameters of a function come first, then those of them that are no variables, and
then the body. -/
def Record.faults (earlier : List Record) : Record → List DocumentError
  | var .. => []
  | constant value =>
    match Tensor.make value.shape value.elements with
    | .ok _ => []
    | .error e => [.tensor e]
  | call op callee args _ =>
    (if op.isSome = callee.isSome then [.target earlier.length] else []) ++
      (dangling earlier.length callee.toList ++ dangling earlier.length args)
  | function params body _ =>
    dangling earlier.length params ++
      (misfits earlier params ++ dangling earlier.length [body])

namespace Record

theorem dangling_eq_nil_iff {place : Nat} {children : List Nat} :
    dangling place children = [] ↔ ∀ child ∈ children, child < place := by
  simp [dangling, List.filter_eq_nil_iff]

theorem dangling_append (place : Nat) (children children' : List Nat) :
    dangling place (children ++ children') =
      dangling place children ++ dangling place children' := by
  simp [dangling]

theorem misfits_eq_nil_iff {earlier : List Record} {params : List Nat}
    (h : ∀ p ∈ params, p < earlier.length) :
    misfits earlier params = [] ↔
      ∀ p ∈ params, ∃ name type, earlier[p]? = some (.var name type) := by
  have hvar : ∀ r : Record, r.isVar = true ↔ ∃ name type, r = .var name type := by
    intro r
    cases r <;> simp [isVar]
  simp only [misfits, List.map_eq_nil_iff, List.filter_eq_nil_iff, List.mem_filterMap,
    Bool.not_eq_true', Bool.not_eq_false, hvar]
  constructor
  · intro hall p hp
    have hr : earlier[p]? = some (earlier.get ⟨p, h p hp⟩) := List.getElem?_eq_getElem (h p hp)
    generalize earlier.get ⟨p, h p hp⟩ = r at hr
    obtain ⟨name, type, rfl⟩ := hall r ⟨p, hp, hr⟩
    exact ⟨name, type, hr⟩
  · rintro hall r ⟨p, hp, hr⟩
    obtain ⟨name, type, hvar⟩ := hall p hp
    exact ⟨name, type, Option.some.inj (hr.symm.trans hvar)⟩

/-- Nothing is wrong with a record that can be read. -/
theorem faults_eq_nil_iff {earlier : List Record} {r : Record} :
    r.faults earlier = [] ↔ r.Fits earlier := by
  cases r with
  | var => exact ⟨fun _ => trivial, fun _ => rfl⟩
  | constant value =>
      rw [faults, Fits]
      cases Tensor.make value.shape value.elements <;> simp
  | call op callee args attrs =>
      simp only [faults, Fits, List.append_eq_nil_iff, dangling_eq_nil_iff, List.forall_mem_append]
      refine and_congr_left fun _ => ?_
      by_cases h : op.isSome = callee.isSome <;> simp [h]
  | function params body attrs =>
      simp only [faults, Fits, List.append_eq_nil_iff, dangling_eq_nil_iff, List.forall_mem_append]
      constructor
      · rintro ⟨hparams, hmisfits, hbody⟩
        exact ⟨⟨hparams, hbody⟩, (misfits_eq_nil_iff hparams).1 hmisfits⟩
      · rintro ⟨⟨hparams, hbody⟩, hvars⟩
        exact ⟨hparams, (misfits_eq_nil_iff hparams).2 hvars, hbody⟩

end Record

/-! ### The nodes of records -/

/-- The record of a node, which names what the node is made of by identities. -/
def Expr.identified : Expr → Record
  | var _ name type => .var name type
  | constant _ value => .constant value
  | opCall _ op args attrs => .call (some op) none (args.map id) attrs
  | exprCall _ callee args attrs => .call none (some callee.id) (args.map id) attrs
  | function _ params body attrs => .function (params.map id) body.id attrs

theorem Expr.references_identified (e : Expr) :
    e.identified.references = e.children.map id := by
  cases e <;> simp [identified, Record.references, children]

theorem Expr.isVar_identified (e : Expr) : e.identified.isVar = e.isVar := by
  cases e <;> rfl

theorem Expr.typeKey_identified (e : Expr) : e.identified.typeKey = e.typeKey := by
  cases e <;> rfl

/-- A node was read from a record at a place: it has the place as its identity, and is made of nodes
that were read before it, as the record says. -/
structure Expr.ReadAt (e : Expr) (place : Nat) (records : List Record) (built : List Expr) :
    Prop where
  id : e.id = place
  record : records[place]? = some e.identified
  child : ∀ a ∈ e.children, a.id < place ∧ built[a.id]? = some a

/-- Nodes that were read from records, one from each. -/
structure Built (records : List Record) (built : List Expr) : Prop where
  length : built.length = records.length
  read : ∀ (i : Nat) (e : Expr), built[i]? = some e → e.ReadAt i records built

/-- A result fails with the first of some faults, and if there are none, it is good. -/
inductive Reports {α : Type} (faults : List DocumentError) (good : α → Prop) :
    Except DocumentError α → Prop
  | ok {a : α} : faults = [] → good a → Reports faults good (.ok a)
  | error {err : DocumentError} : faults.head? = some err → Reports faults good (.error err)

namespace Reports

variable {α β : Type} {faults later : List DocumentError} {good : α → Prop}
variable {x : Except DocumentError α}

theorem bind {good' : β → Prop} {f : α → Except DocumentError β} (h : Reports faults good x)
    (hf : ∀ a, good a → Reports later good' (f a)) : Reports (faults ++ later) good' (x >>= f) := by
  cases h with
  | ok hnil ha =>
      rw [hnil, List.nil_append]
      exact hf _ ha
  | error hhead =>
      refine .error ?_
      rw [List.head?_append, hhead]
      rfl

theorem imp {good' : α → Prop} (h : Reports faults good x) (hgood : ∀ a, good a → good' a) :
    Reports faults good' x := by
  cases h with
  | ok hnil ha => exact .ok hnil (hgood _ ha)
  | error hhead => exact .error hhead

theorem ok_iff (h : Reports faults good x) : (∃ a, x = .ok a) ↔ faults = [] := by
  cases h with
  | ok hnil _ => simp [hnil]
  | error hhead =>
      constructor
      · rintro ⟨a, ha⟩
        cases ha
      · rintro rfl
        cases hhead

theorem error_iff (h : Reports faults good x) (err : DocumentError) :
    x = .error err ↔ faults.head? = some err := by
  cases h with
  | ok hnil _ => simp [hnil]
  | error hhead =>
      rw [hhead, Option.some.injEq]
      exact ⟨fun h => Except.error.inj h, congrArg Except.error⟩

theorem good_of_ok {a : α} (h : Reports faults good x) (hx : x = .ok a) : good a := by
  cases h with
  | ok _ ha =>
      cases hx
      exact ha
  | error => cases hx

end Reports

namespace Built

variable {records : List Record} {built : List Expr}

theorem nil : Built [] [] := ⟨rfl, fun _ _ h => by cases h⟩

theorem lt_length (h : Built records built) {i : Nat} {e : Expr} (he : built[i]? = some e) :
    i < records.length :=
  h.length ▸ (List.getElem?_eq_some_iff.1 he).1

/-- A node that is made of nodes which were read before it can come next. -/
theorem concat (h : Built records built) {e : Expr} (hid : e.id = records.length)
    (hchild : ∀ a ∈ e.children, built[a.id]? = some a) :
    Built (records ++ [e.identified]) (built ++ [e]) := by
  have hold : ∀ (i : Nat) (x : Expr), built[i]? = some x → (built ++ [e])[i]? = some x := by
    intro i x hx
    rw [List.getElem?_append_left (List.getElem?_eq_some_iff.1 hx).1, hx]
  refine ⟨by simp [h.length], fun i x hx => ?_⟩
  by_cases hi : i < built.length
  · rw [List.getElem?_append_left hi] at hx
    obtain ⟨hxid, hrecord, hx⟩ := h.read i x hx
    refine ⟨hxid, ?_, fun a ha => ⟨(hx a ha).1, hold _ _ (hx a ha).2⟩⟩
    rw [List.getElem?_append_left (h.length ▸ hi), hrecord]
  · obtain rfl : i = built.length := by
      have := (List.getElem?_eq_some_iff.1 hx).1
      rw [List.length_append, List.length_singleton] at this
      omega
    rw [List.getElem?_concat_length] at hx
    cases hx
    refine ⟨hid.trans h.length.symm, ?_, fun a ha => ⟨?_, hold _ _ (hchild a ha)⟩⟩
    · rw [h.length, List.getElem?_concat_length]
    · exact (List.getElem?_eq_some_iff.1 (hchild a ha)).1

/-- A reference is to an earlier node, or it is at fault. -/
theorem reports_resolve (h : Built records built) (child : Nat) :
    Reports (Record.dangling records.length [child]) (fun e => built[child]? = some e)
      (Record.resolve built child) := by
  unfold Record.resolve
  rw [← h.length]
  cases he : built[child]? with
  | some e =>
      have hlt := (List.getElem?_eq_some_iff.1 he).1
      exact .ok (Record.dangling_eq_nil_iff.2 (List.forall_mem_singleton.2 hlt)) rfl
  | none =>
      have hle := List.getElem?_eq_none_iff.1 he
      exact .error (by simp [Record.dangling, hle])

theorem reports_mapM (h : Built records built) (children : List Nat) :
    Reports (Record.dangling records.length children)
      (List.Forall₂ (fun child e => built[child]? = some e) children)
      (children.mapM (Record.resolve built)) := by
  induction children with
  | nil => exact .ok rfl .nil
  | cons child children ih =>
      rw [List.mapM_cons, ← List.singleton_append, Record.dangling_append]
      refine (h.reports_resolve child).bind fun e he => ?_
      rw [← List.append_nil (Record.dangling _ children)]
      exact ih.bind fun es hes => .ok rfl (.cons he hes)

/-- References that were resolved are the identities of the nodes that they are to. -/
theorem map_id (h : Built records built) {children : List Nat} {es : List Expr}
    (hes : List.Forall₂ (fun child e => built[child]? = some e) children es) :
    es.map Expr.id = children := by
  induction hes with
  | nil => rfl
  | cons he _ ih => rw [List.map_cons, ih, (h.read _ _ he).id]

theorem resolved (h : Built records built) {children : List Nat} {es : List Expr}
    (hes : List.Forall₂ (fun child e => built[child]? = some e) children es) :
    ∀ e ∈ es, built[e.id]? = some e := by
  induction hes with
  | nil => exact List.forall_mem_nil _
  | cons he _ ih => exact List.forall_mem_cons.2 ⟨(h.read _ _ he).id.symm ▸ he, ih⟩

/-- The parameters that are no variables are those whose records are of none. -/
theorem misfits_eq (h : Built records built) {params : List Nat} {ps : List Expr}
    (hps : List.Forall₂ (fun child e => built[child]? = some e) params ps) :
    Record.misfits records params =
      (ps.filter (!·.isVar)).map fun p => .parameter records.length p.typeKey := by
  unfold Record.misfits
  induction hps with
  | nil => rfl
  | @cons child p params ps hp _ ih =>
      rw [List.filterMap_cons, (h.read _ _ hp).record]
      dsimp only
      rw [List.filter_cons, List.filter_cons, p.isVar_identified]
      split
      · rw [List.map_cons, List.map_cons, ih, p.typeKey_identified]
      · exact ih

end Built

theorem Record.reports_checkParams (place : Nat) (ps : List Expr) :
    Reports ((ps.filter (!·.isVar)).map fun p => .parameter place p.typeKey) (fun _ => True)
      (checkParams place ps) := by
  induction ps with
  | nil => exact .ok rfl trivial
  | cons p ps ih =>
      rw [checkParams, List.filter_cons]
      by_cases hp : p.isVar
      · rw [if_pos hp, if_neg (by simp [hp])]
        exact ih
      · rw [if_neg hp, if_pos (by simpa using hp)]
        exact .error rfl

/-- A record is read as the node that it describes, or what is wrong with it first is reported. -/
theorem Built.reports_build {records : List Record} {built : List Expr} (h : Built records built)
    (r : Record) :
    Reports (r.faults records) (fun e => Built (records ++ [r]) (built ++ [e]))
      (r.build built) := by
  have hnext : ∀ e : Expr, e.id = built.length → e.identified = r →
      (∀ a ∈ e.children, built[a.id]? = some a) → Built (records ++ [r]) (built ++ [e]) := by
    rintro e hid rfl hchild
    exact h.concat (hid.trans h.length) hchild
  cases r with
  | var name type =>
      exact .ok rfl (hnext (.var built.length name type) rfl rfl (List.forall_mem_nil _))
  | constant value =>
      rw [Record.faults, Record.build]
      cases ht : Tensor.make value.shape value.elements with
      | ok t =>
          obtain rfl := Tensor.eq_of_make ht
          exact .ok rfl (hnext (.constant built.length value) rfl rfl (List.forall_mem_nil _))
      | error e => exact .error rfl
  | call op callee args attrs =>
      rcases op with _ | op <;> rcases callee with _ | callee
      · exact .error (by simp [Record.faults, h.length])
      · refine ((h.reports_resolve callee).bind fun e he => ?_)
        rw [← List.append_nil (Record.dangling _ args)]
        refine (h.reports_mapM args).bind fun es hes => .ok rfl (hnext _ rfl ?_ ?_)
        · rw [Expr.identified, h.map_id hes, (h.read _ _ he).id]
        · exact List.forall_mem_cons.2 ⟨(h.read _ _ he).id.symm ▸ he, h.resolved hes⟩
      · have hfaults : Record.faults records (.call (some op) none args attrs) =
            Record.dangling records.length args ++ [] := by
          simp [Record.faults, Record.dangling]
        rw [hfaults]
        refine (h.reports_mapM args).bind fun es hes => .ok rfl (hnext _ rfl ?_ ?_)
        · rw [Expr.identified, h.map_id hes]
        · exact h.resolved hes
      · exact .error (by simp [Record.faults, h.length])
  | function params body attrs =>
      refine (h.reports_mapM params).bind fun ps hps => ?_
      rw [h.misfits_eq hps, ← h.length]
      refine (Record.reports_checkParams built.length ps).bind fun _ _ => ?_
      rw [← List.append_nil (Record.dangling _ [body]), h.length]
      refine (h.reports_resolve body).bind fun b hb => .ok rfl (hnext _ h.length.symm ?_ ?_)
      · rw [Expr.identified, h.map_id hps, (h.read _ _ hb).id]
      · exact List.forall_mem_append.2
          ⟨h.resolved hps, List.forall_mem_singleton.2 ((h.read _ _ hb).id.symm ▸ hb)⟩

namespace Document

/-- All that is wrong with records that come after those of `earlier`. -/
def faultsAfter (earlier : List Record) : List Record → List DocumentError
  | [] => []
  | r :: rs => r.faults earlier ++ faultsAfter (earlier ++ [r]) rs

theorem reports_buildAll {earlier : List Record} {built : List Expr} (h : Built earlier built)
    (rs : List Record) :
    Reports (faultsAfter earlier rs) (Built (earlier ++ rs)) (buildAll built rs) := by
  induction rs generalizing earlier built with
  | nil => exact .ok rfl (by rwa [List.append_nil])
  | cons r rs ih =>
      refine (h.reports_build r).bind fun e he => ?_
      have hrest := ih he
      rw [List.append_assoc] at hrest
      exact hrest

/-- Every record can be read after those before it. -/
def AllFit (records : List Record) : Prop :=
  ∀ earlier r later, records = earlier ++ r :: later → r.Fits earlier

/-- The records are in good order, and the root is one of them. -/
structure WellFormed (d : Document) : Prop where
  records : AllFit d.records
  root : d.root < d.records.length

/-- The error of a document that is no expression: the first fault of its first record that has one,
and only if there is none, that of its root. -/
inductive Fails (d : Document) : DocumentError → Prop
  | record {earlier later : List Record} {r : Record} {err : DocumentError} :
      d.records = earlier ++ r :: later → AllFit earlier → (r.faults earlier).head? = some err →
      Fails d err
  | root : AllFit d.records → d.records.length ≤ d.root → Fails d (.root d.root)

theorem faultsAfter_append (earlier rs rs' : List Record) :
    faultsAfter earlier (rs ++ rs') =
      faultsAfter earlier rs ++ faultsAfter (earlier ++ rs) rs' := by
  induction rs generalizing earlier with
  | nil => simp [faultsAfter]
  | cons r rs ih =>
      rw [List.cons_append, faultsAfter, faultsAfter, ih, List.append_assoc, List.append_assoc]
      rfl

theorem allFit_iff {records : List Record} : AllFit records ↔ faultsAfter [] records = [] := by
  constructor
  · intro h
    induction records using List.reverseRecOn with
    | nil => rfl
    | append_singleton records r ih =>
        have hinit : AllFit records := by
          rintro earlier s later rfl
          exact h earlier s (later ++ [r]) (by simp)
        rw [faultsAfter_append, ih hinit, List.nil_append, List.nil_append, faultsAfter,
          faultsAfter, List.append_nil]
        exact Record.faults_eq_nil_iff.2 (h records r [] rfl)
  · rintro h earlier r later rfl
    rw [faultsAfter_append, List.nil_append, faultsAfter] at h
    exact Record.faults_eq_nil_iff.1
      (List.append_eq_nil_iff.1 (List.append_eq_nil_iff.1 h).2).1

/-- The first of all faults is the first one of the first record that has any. -/
theorem head?_faultsAfter {records : List Record} {err : DocumentError} :
    (faultsAfter [] records).head? = some err ↔
      ∃ earlier r later, records = earlier ++ r :: later ∧ AllFit earlier ∧
        (r.faults earlier).head? = some err := by
  constructor
  · intro h
    induction records using List.reverseRecOn with
    | nil => cases h
    | append_singleton records r ih =>
        rw [faultsAfter_append, List.head?_append] at h
        cases hfaults : (faultsAfter [] records).head? with
        | some first =>
            rw [hfaults] at h
            obtain ⟨earlier, s, later, rfl, hfit, hhead⟩ := ih (hfaults.trans h)
            exact ⟨earlier, s, later ++ [r], by simp, hfit, hhead⟩
        | none =>
            rw [hfaults, Option.none_or, List.nil_append, faultsAfter, faultsAfter,
              List.append_nil] at h
            exact ⟨records, r, [], rfl, allFit_iff.2 (List.head?_eq_none_iff.1 hfaults), h⟩
  · rintro ⟨earlier, r, later, rfl, hfit, hhead⟩
    rw [faultsAfter_append, allFit_iff.1 hfit, List.nil_append, List.nil_append, faultsAfter,
      List.head?_append, hhead]
    rfl

end Document

/-! ### What is read from a document -/

/-- The node at a position, which is reached by going to one child after the other. -/
def Expr.follow (e : Expr) : List Nat → Option Expr
  | [] => some e
  | k :: position => (e.children[k]?).bind (·.follow position)

namespace Document

/-- The place that a position of the record at `place` refers to. -/
def follow (d : Document) (place : Nat) : List Nat → Option Nat
  | [] => some place
  | k :: position =>
    (d.records[place]?).bind fun r => (r.references[k]?).bind (d.follow · position)

/-- The expression is the one that the records of a document spell out from its root: every node has
its record, and every position has the node that it refers to. Two positions hold one node exactly
if they refer to one place. Nodes are made of earlier ones. -/
structure Denotes (d : Document) (e : Expr) : Prop where
  root : e.id = d.root
  records : ∀ x, e.Reaches x → d.records[x.id]? = some x.identified
  positions : ∀ position, (e.follow position).map Expr.id = d.follow d.root position
  shared : ∀ position position' x x', e.follow position = some x → e.follow position' = some x' →
    (x = x' ↔ d.follow d.root position = d.follow d.root position')
  earlier : ∀ x, e.Reaches x → ∀ a ∈ x.children, a.id < x.id

end Document

theorem Expr.reaches_of_follow {e x : Expr} {position : List Nat}
    (h : e.follow position = some x) : e.Reaches x := by
  induction position generalizing e with
  | nil =>
      obtain rfl := Option.some.inj h
      exact .refl _
  | cons k position ih =>
      obtain ⟨a, ha, h⟩ := Option.bind_eq_some_iff.1 h
      exact .step (List.mem_of_getElem? ha) (ih h)

theorem Expr.exists_follow_of_reaches {e x : Expr} (h : e.Reaches x) :
    ∃ position, e.follow position = some x := by
  induction h with
  | refl e => exact ⟨[], rfl⟩
  | step ha _ ih =>
      obtain ⟨position, hx⟩ := ih
      obtain ⟨k, hk⟩ := List.mem_iff_getElem?.1 ha
      refine ⟨k :: position, ?_⟩
      rw [follow, hk]
      exact hx

/-- No two nodes of an expression that is spelled out have one identity. -/
theorem Document.Denotes.unambiguous {d : Document} {e : Expr} (h : d.Denotes e) :
    Expr.Unambiguous e.Reaches := by
  intro x y hx hy hid
  obtain ⟨position, hposition⟩ := Expr.exists_follow_of_reaches hx
  obtain ⟨position', hposition'⟩ := Expr.exists_follow_of_reaches hy
  refine (h.shared position position' x y hposition hposition').2 ?_
  rw [← h.positions, ← h.positions, hposition, hposition']
  exact congrArg some hid

namespace Built

variable {records : List Record} {built : List Expr} {e : Expr}

/-- All nodes of a node that was read were read. -/
theorem of_reaches (h : Built records built) (he : built[e.id]? = some e) {x : Expr}
    (hx : e.Reaches x) : built[x.id]? = some x := by
  induction hx with
  | refl => exact he
  | step ha _ ih => exact ih ((h.read _ _ he).child _ ha).2

/-- Going to children and going along references come to the same. -/
theorem map_id_follow {d : Document} (h : Built d.records built) (position : List Nat)
    (he : built[e.id]? = some e) : (e.follow position).map Expr.id = d.follow e.id position := by
  induction position generalizing e with
  | nil => rfl
  | cons k position ih =>
      rw [Expr.follow, Document.follow, (h.read _ _ he).record]
      dsimp only [Option.bind_some]
      rw [e.references_identified, List.getElem?_map]
      cases ha : e.children[k]? with
      | none => rfl
      | some a => exact ih ((h.read _ _ he).child a (List.mem_of_getElem? ha)).2

theorem denotes {d : Document} (h : Built d.records built) (he : built[d.root]? = some e) :
    d.Denotes e := by
  have hroot : e.id = d.root := (h.read _ _ he).id
  rw [← hroot] at he
  have hfollow : ∀ position x, e.follow position = some x →
      d.follow d.root position = some x.id := by
    intro position x hx
    rw [← hroot, ← h.map_id_follow position he, hx]
    rfl
  refine ⟨hroot, fun x hx => (h.read _ _ (h.of_reaches he hx)).record, fun position => ?_, ?_,
    fun x hx a ha => ((h.read _ _ (h.of_reaches he hx)).child a ha).1⟩
  · rw [← hroot]
    exact h.map_id_follow position he
  · intro position position' x x' hx hx'
    rw [hfollow _ _ hx, hfollow _ _ hx', Option.some.injEq]
    constructor
    · exact congrArg Expr.id
    · -- nodes of one place are one node
      intro hid
      have hsome := h.of_reaches he (Expr.reaches_of_follow hx)
      rw [hid, h.of_reaches he (Expr.reaches_of_follow hx')] at hsome
      exact (Option.some.inj hsome).symm

end Built

namespace Document

/-- The root must be one of the records. -/
def rootFaults (d : Document) : List DocumentError :=
  if d.root < d.records.length then [] else [.root d.root]

theorem reports_document (d : Document) :
    Reports (faultsAfter [] d.records ++ d.rootFaults) d.Denotes d.build := by
  refine (reports_buildAll .nil d.records).bind fun built h => ?_
  rw [List.nil_append] at h
  unfold rootFaults
  cases he : built[d.root]? with
  | some e => exact .ok (if_pos (h.lt_length he)) (h.denotes he)
  | none =>
      have hle : ¬d.root < d.records.length :=
        Nat.not_lt.2 (h.length ▸ List.getElem?_eq_none_iff.1 he)
      rw [if_neg hle]
      exact .error rfl

theorem unambiguous_of_build {d : Document} {e : Expr} (h : d.build = .ok e) :
    Expr.Unambiguous e.Reaches :=
  (d.reports_document.good_of_ok h).unambiguous

theorem wellFormed_iff (d : Document) :
    d.WellFormed ↔ faultsAfter [] d.records ++ d.rootFaults = [] := by
  rw [List.append_eq_nil_iff, ← allFit_iff, rootFaults]
  constructor
  · rintro ⟨hrecords, hroot⟩
    exact ⟨hrecords, if_pos hroot⟩
  · rintro ⟨hrecords, hroot⟩
    refine ⟨hrecords, Decidable.byContradiction fun h => ?_⟩
    rw [if_neg h] at hroot
    cases hroot

theorem fails_iff (d : Document) (err : DocumentError) :
    d.Fails err ↔ (faultsAfter [] d.records ++ d.rootFaults).head? = some err := by
  rw [List.head?_append]
  constructor
  · intro h
    cases h with
    | record hrecords hfit hhead =>
        rw [head?_faultsAfter.2 ⟨_, _, _, hrecords, hfit, hhead⟩]
        rfl
    | root hfit hroot =>
        rw [allFit_iff.1 hfit, rootFaults, if_neg (Nat.not_lt.2 hroot)]
        rfl
  · intro h
    cases hfaults : (faultsAfter [] d.records).head? with
    | some first =>
        rw [hfaults] at h
        obtain ⟨earlier, r, later, hrecords, hfit, hhead⟩ := head?_faultsAfter.1 (hfaults.trans h)
        exact .record hrecords hfit hhead
    | none =>
        have hfit := allFit_iff.2 (List.head?_eq_none_iff.1 hfaults)
        rw [hfaults, Option.none_or, rootFaults] at h
        by_cases hroot : d.root < d.records.length
        · rw [if_pos hroot] at h
          cases h
        · rw [if_neg hroot] at h
          cases h
          exact .root hfit (Nat.not_lt.1 hroot)

/-- A document is an expression exactly if it is in good order. Then it is the one that its records
spell out, and otherwise the error is that of its first record which is at fault, or of the root if
there is none. -/
theorem build_spec (d : Document) :
    ((∃ e, d.build = .ok e) ↔ d.WellFormed) ∧ (∀ e, d.build = .ok e → d.Denotes e) ∧
      ∀ err, d.build = .error err ↔ d.Fails err := by
  have h := d.reports_document
  refine ⟨?_, fun e he => h.good_of_ok he, fun err => ?_⟩
  · rw [h.ok_iff, wellFormed_iff]
  · rw [h.error_iff, fails_iff]

/-- The second record refers to itself before it refers to what is not there. -/
example : build ⟨[.var "x" none, .call (some "add") none [0, 1, 7] .empty], 5⟩ =
    .error (.reference 1 1) :=
  rfl

end Document

end KernelGraph
