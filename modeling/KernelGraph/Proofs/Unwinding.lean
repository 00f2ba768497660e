import KernelGraph.Proofs.Tracing

/-!
What is reported where lowering fails. A failure is handed on by every expression that was being
lowered, and each fused call among them says that it failed, before it hands on the error. So the
log ends with one line for each of the fused calls that the failure happened within, from the
innermost to the outermost, all with one text (`Expr.FailsWithin`, `visit_unwinds`), and nothing is
said of any other call.
-/

namespace KernelGraph

open Lowering Walk

/-- Lowering an expression fails within calls that declare these kinds, the innermost first: with
the expression itself, or with the first thing it is lowered over that something is wrong with. -/
inductive Expr.FailsWithin : Expr → List FusedKind → Prop
  | itself {e : Expr} {b : Blame} : e.blames.head? = some b → b.blamed = e →
      FailsWithin e e.declared?.toList
  | input {e x : Expr} {b : Blame} {before after : List Expr} {kinds : List FusedKind} :
      e.blames.head? = some b → b.blamed ≠ e → e.inputs = before ++ x :: after →
      (∀ y ∈ before, y.blames = []) → FailsWithin x kinds →
      FailsWithin e (kinds ++ e.declared?.toList)

/-- An operand that is not there fails within no call. -/
def Operand.FailsWithin (o : Operand) (kinds : List FusedKind) : Prop :=
  match o.expr? with
  | none => kinds = []
  | some x => x.FailsWithin kinds

/-- The first item of a list that has a property is known from the list. -/
theorem eq_of_first {α : Type} {p : α → Prop} {before after before' after' : List α} {x x' : α}
    (h : before ++ x :: after = before' ++ x' :: after') (hbefore : ∀ y ∈ before, ¬ p y) (hx : p x)
    (hbefore' : ∀ y ∈ before', ¬ p y) (hx' : p x') : x = x' := by
  induction before generalizing before' with
  | nil =>
      cases before' with
      | nil => exact (List.cons.inj h).1
      | cons y before' =>
          obtain ⟨rfl, -⟩ := List.cons.inj h
          exact absurd hx (hbefore' x List.mem_cons_self)
  | cons y before ih =>
      cases before' with
      | nil =>
          obtain ⟨rfl, -⟩ := List.cons.inj h
          exact absurd hx' (hbefore y List.mem_cons_self)
      | cons y' before' =>
          obtain ⟨rfl, hrest⟩ := List.cons.inj h
          exact ih hrest (fun z hz => hbefore z (List.mem_cons_of_mem y hz))
            fun z hz => hbefore' z (List.mem_cons_of_mem y hz)

namespace Expr.FailsWithin

theorem exists_blame {e : Expr} {kinds : List FusedKind} (h : e.FailsWithin kinds) :
    ∃ b, e.blames.head? = some b := by
  cases h with
  | itself hb => exact ⟨_, hb⟩
  | input hb => exact ⟨_, hb⟩

theorem blames_ne_nil {e : Expr} {kinds : List FusedKind} (h : e.FailsWithin kinds) :
    e.blames ≠ [] := by
  obtain ⟨b, hb⟩ := h.exists_blame
  rintro hnil
  rw [hnil] at hb
  cases hb

/-- There is one way only in which lowering an expression fails. -/
theorem unique {e : Expr} {kinds kinds' : List FusedKind} (h : e.FailsWithin kinds)
    (h' : e.FailsWithin kinds') : kinds = kinds' := by
  induction h generalizing kinds' with
  | itself hb hself =>
      cases h' with
      | itself => rfl
      | input hb' hother =>
          cases hb.symm.trans hb'
          exact absurd hself hother
  | @input e x b before after kinds hb hother hinputs hbefore hx ih =>
      cases h' with
      | itself hb' hself =>
          cases hb.symm.trans hb'
          exact absurd hself hother
      | @input _ x' _ before' after' kinds' _ _ hinputs' hbefore' hx' =>
          obtain rfl : x = x' := eq_of_first (p := fun y => y.blames ≠ [])
            (hinputs.symm.trans hinputs') (fun y hy => not_not_intro (hbefore y hy))
            hx.blames_ne_nil (fun y hy => not_not_intro (hbefore' y hy)) hx'.blames_ne_nil
          rw [ih hx']

/-- A failure of what an expression is lowered over is handed on. -/
theorem handOn {e x : Expr} {before after : List Expr} {kinds : List FusedKind}
    (hhead : e.blames.head? = x.blames.head?) (hinputs : e.inputs = before ++ x :: after)
    (hbefore : ∀ y ∈ before, y.blames = []) (hx : x.FailsWithin kinds) :
    e.FailsWithin (kinds ++ e.declared?.toList) := by
  obtain ⟨b, hb⟩ := hx.exists_blame
  refine .input (hhead.trans hb) ?_ hinputs hbefore hx
  -- what is to blame for a part is part of it
  rintro rfl
  have hmem : b.blamed ∈ lowering.postorder x :=
    (mem_blames_iff_faults.1 (List.mem_of_head? hb)).1
  have hlt := size_lt_of_mem_inputs (hinputs ▸ List.mem_append_right before List.mem_cons_self)
  exact absurd (size_le_of_mem_postorder hmem) (Nat.not_le.2 hlt)

end Expr.FailsWithin

/-! ### What steps report -/

/-- No event says that a fused call failed. -/
def Unfailed (log : List Event) : Prop := ∀ event ∈ log, ∀ kind err, event ≠ .failed kind err

theorem Unfailed.nil : Unfailed [] := fun _ h => by cases h

theorem Unfailed.append {log later : List Event} (h : Unfailed log) (hlater : Unfailed later) :
    Unfailed (log ++ later) := List.forall_mem_append.2 ⟨h, hlater⟩

theorem Unfailed.singleton {event : Event} (h : ∀ kind err, event ≠ .failed kind err) :
    Unfailed [event] := List.forall_mem_singleton.2 h

/-- What a step adds to the log. If it succeeds, no fused call is said to have failed. If it fails,
the last that is said is that calls of some kinds failed with the error, and of no other. -/
inductive Unwinds {α : Type} (within : List FusedKind → Prop) (s : Lowering) :
    Except LoweringError α × Lowering → Prop
  | ok {a : α} {t : Lowering} {earlier : List Event} : Unfailed earlier →
      t.log = s.log ++ earlier → Unwinds within s (.ok a, t)
  | error {err : LoweringError} {t : Lowering} {earlier : List Event} {kinds : List FusedKind} :
      within kinds → Unfailed earlier →
      t.log = s.log ++ earlier ++ kinds.map (Event.failed · err) → Unwinds within s (.error err, t)

namespace Unwinds

variable {α : Type} {within : List FusedKind → Prop} {s m : Lowering}
  {out : Except LoweringError α × Lowering}

theorem imp (h : Unwinds within s out) {within' : List FusedKind → Prop}
    (himp : ∀ kinds, within kinds → within' kinds) : Unwinds within' s out := by
  cases h with
  | ok hearlier hlog => exact .ok hearlier hlog
  | error hwithin hearlier hlog => exact .error (himp _ hwithin) hearlier hlog

/-- A step goes on from what was reported before. -/
theorem after (h : Unwinds within m out) {earlier : List Event} (hearlier : Unfailed earlier)
    (hlog : m.log = s.log ++ earlier) : Unwinds within s out := by
  cases h with
  | ok hlater hlog' => exact .ok (hearlier.append hlater) (by rw [hlog', hlog, List.append_assoc])
  | error hwithin hlater hlog' =>
      exact .error hwithin (hearlier.append hlater) (by rw [hlog', hlog]; simp)

end Unwinds

namespace Lowering

variable {nodes : Expr → Prop}

/-- Steps unwind with the first that fails, where nothing is wrong with those before. -/
theorem unwinds_all {ι α : Type} {items : List ι} {f : ι → Step α} (blames : ι → List Blame)
    (within : ι → List FusedKind → Prop)
    (h : ∀ i ∈ items, ∀ u, Sound nodes u → Sound nodes (f i u).2 ∧
      Explains (blames i) (f i u).1 ∧ Unwinds (within i) u (f i u))
    {s : Lowering} (hs : Sound nodes s) :
    Unwinds (fun kinds => ∃ before i after, items = before ++ i :: after ∧
      (∀ j ∈ before, blames j = []) ∧ within i kinds) s (Step.all (items.map f) s) := by
  induction items generalizing s with
  | nil => exact .ok .nil (List.append_nil _).symm
  | cons i items ih =>
      obtain ⟨ht, hexplains, hunwinds⟩ := h i List.mem_cons_self s hs
      rw [List.map_cons, Step.all]
      generalize f i s = out at ht hexplains hunwinds ⊢
      cases hunwinds with
      | error hwithin hearlier hlog =>
          exact .error ⟨[], i, items, rfl, fun _ hj => (by cases hj), hwithin⟩ hearlier hlog
      | ok hearlier hlog =>
          have hrest := (ih (fun j hj => h j (List.mem_cons_of_mem i hj)) ht).after hearlier hlog
          dsimp only
          generalize Step.all (items.map f) _ = out at hrest ⊢
          cases hrest with
          | ok hlater hlog => exact .ok hlater hlog
          | error hwithin hlater hlog =>
              obtain ⟨before, j, after, rfl, hbefore, hwithin⟩ := hwithin
              refine .error ⟨i :: before, j, after, rfl, ?_, hwithin⟩ hlater hlog
              exact List.forall_mem_cons.2 ⟨hexplains.eq_nil, hbefore⟩

/-- Asking for the declared kind does not say that a call failed. -/
theorem exists_log_declaredKind (callee : Expr) (s : Lowering) :
    ∃ earlier, Unfailed earlier ∧ (declaredKind callee s).2.log = s.log ++ earlier := by
  rcases declaredKind_snd callee s with h | ⟨err, h⟩
  · exact ⟨[], .nil, by rw [h, List.append_nil]⟩
  · exact ⟨[.unknownComposite err], .singleton (fun _ _ heq => by cases heq), by rw [h]; rfl⟩

theorem exists_log_noteOperator (op : String) (s : Lowering) :
    ∃ earlier, Unfailed earlier ∧ (noteOperator op s).log = s.log ++ earlier := by
  unfold noteOperator
  split
  · exact ⟨[], .nil, (List.append_nil _).symm⟩
  · exact ⟨[.unrecognized s.symbol op], .singleton (fun _ _ heq => by cases heq), rfl⟩

theorem explains_operand (call : Expr) (family : Family) (o : Operand) :
    Explains (o.blames call family) (o.tree family) := by
  rw [Operand.blames, Operand.tree]
  cases o.expr? with
  | none => exact .error (call.violates family o.missing) []
  | some x => exact x.explains_blames

/-- The first blame is that of the first item that something is wrong with. -/
theorem head?_flatten_blames {ι : Type} {blames : ι → List Blame} {items before after : List ι}
    {i : ι} (hitems : items = before ++ i :: after) (hbefore : ∀ j ∈ before, blames j = [])
    (hi : blames i ≠ []) : (items.map blames).flatten.head? = (blames i).head? := by
  have hnil : (before.map blames).flatten = [] := by
    simpa [List.flatten_eq_nil_iff] using hbefore
  obtain ⟨b, later, hb⟩ := List.exists_cons_of_ne_nil hi
  rw [hitems, List.map_append, List.flatten_append, hnil, List.nil_append, List.map_cons,
    List.flatten_cons, hb]
  rfl

section Fused

variable {id : Nat} {callee : Expr} {args : List Expr} {attrs : Attributes} {kind : FusedKind}
  {p : Pattern} (hkind : callee.fusedKind = .ok kind)

include hkind

theorem Expr.declared?_exprCall : (Expr.exprCall id callee args attrs).declared? = some kind := by
  rw [Expr.declared?, hkind]
  rfl

/-- A fused call that is to blame itself fails within no other. -/
theorem failsWithin_itself {b : Blame}
    (hb : (Expr.exprCall id callee args attrs).blames.head? = some b)
    (hself : b.blamed = .exprCall id callee args attrs) :
    (Expr.exprCall id callee args attrs).FailsWithin ([] ++ [kind]) := by
  have hwithin := Expr.FailsWithin.itself hb hself
  rwa [Expr.declared?_exprCall hkind] at hwithin

/-- A fused call fails within what its first operand that is not right fails within. -/
theorem failsWithin_operand (hp : Pattern.ofKind kind ⟨.expr callee, args, attrs⟩ = .ok p)
    (hcheck : p.check = .ok ()) {before after : List Operand} {o : Operand}
    (hsplit : p.operands ⟨.expr callee, args, attrs⟩ = before ++ o :: after)
    (hbefore : ∀ o' ∈ before, o'.blames (.exprCall id callee args attrs) p.family = [])
    {kinds : List FusedKind} (h : o.FailsWithin kinds) :
    (Expr.exprCall id callee args attrs).FailsWithin (kinds ++ [kind]) := by
  have hhead : o.blames (.exprCall id callee args attrs) p.family ≠ [] →
      (Expr.exprCall id callee args attrs).blames.head? =
        (o.blames (.exprCall id callee args attrs) p.family).head? := by
    intro ho
    obtain ⟨b, later, hb⟩ := List.exists_cons_of_ne_nil ho
    have hflat := head?_flatten_blames hsplit hbefore ho
    rw [Expr.blames_fused id hkind hp, Pattern.blames, hcheck, errors, List.map_nil,
      List.nil_append, List.head?_append, hflat, hb]
    rfl
  unfold Operand.FailsWithin at h
  cases hx : o.expr? with
  | none =>
      rw [hx] at h
      subst h
      have ho : o.blames (.exprCall id callee args attrs) p.family =
          [Expr.violates (.exprCall id callee args attrs) p.family o.missing] := by
        rw [Operand.blames, hx]
      rw [ho] at hhead
      exact failsWithin_itself hkind (hhead (List.cons_ne_nil _ _)) rfl
  | some x =>
      rw [hx] at h
      have ho : o.blames (.exprCall id callee args attrs) p.family = x.blames := by
        rw [Operand.blames, hx]
      rw [ho] at hhead
      have hinputs : (Expr.exprCall id callee args attrs).inputs =
          before.filterMap Operand.expr? ++ x :: after.filterMap Operand.expr? := by
        rw [Expr.inputs_exprCall id hkind hp, hsplit, List.filterMap_append,
          List.filterMap_cons_some hx]
      have hsound : ∀ y ∈ before.filterMap Operand.expr?, y.blames = [] := by
        intro y hy
        obtain ⟨o', ho', hy⟩ := List.mem_filterMap.1 hy
        have hnil := hbefore o' ho'
        rwa [Operand.blames, hy] at hnil
      have hfails := h.handOn (hhead h.blames_ne_nil) hinputs hsound
      rwa [Expr.declared?_exprCall hkind] at hfails

end Fused

section Steps

variable (hids : Expr.Unambiguous nodes)

include hids

/-- Arguments unwind as a visit of the first that fails does. -/
theorem unwinds_arguments (id : Nat) (op : String) {args : List Expr} (attrs : Attributes)
    (hargs : ∀ a ∈ args, ∀ x, a.Reaches x → nodes x)
    (h : ∀ a ∈ args, ∀ u, Sound nodes u → Unwinds a.FailsWithin u (visit a u)) {s : Lowering}
    (hs : Sound nodes s) : Unwinds (Expr.opCall id op args attrs).FailsWithin s
      (Step.all (args.map visit) s) := by
  refine (unwinds_all Expr.blames Expr.FailsWithin (fun a ha u hu =>
    ⟨(visit_outcome hids a u hu (hargs a ha)).sound, explains_visit hids hu (hargs a ha),
      h a ha u hu⟩) hs).imp ?_
  rintro kinds ⟨before, x, after, hsplit, hbefore, hx⟩
  have hhead : (Expr.opCall id op args attrs).blames.head? = x.blames.head? := by
    rw [Expr.blames_opCall]
    exact head?_flatten_blames hsplit hbefore hx.blames_ne_nil
  exact List.append_nil kinds ▸ hx.handOn hhead hsplit hbefore

variable (id : Nat) {callee : Expr} {args : List Expr} {attrs : Attributes} {kind : FusedKind}
  {p : Pattern} (hkind : callee.fusedKind = .ok kind)
  (hp : Pattern.ofKind kind ⟨.expr callee, args, attrs⟩ = .ok p)
  (hoperands : ∀ o ∈ p.operands ⟨.expr callee, args, attrs⟩, ∀ x, o.expr? = some x →
    ∀ y, x.Reaches y → nodes y)

include hoperands in
/-- A step for an operand fails for what is wrong with the operand. -/
theorem explains_visitOperand {o : Operand} (ho : o ∈ p.operands ⟨.expr callee, args, attrs⟩)
    {u : Lowering} (hu : Sound nodes u) :
    Sound nodes (visitOperand p.family o u).2 ∧ Explains
      (o.blames (.exprCall id callee args attrs) p.family) (visitOperand p.family o u).1 := by
  unfold Operand.blames
  cases hx : o.expr? with
  | none =>
      rw [visitOperand_of_none hx]
      exact ⟨hu, .error (Expr.violates _ p.family o.missing) []⟩
  | some x =>
      have hout := visit_outcome hids x u hu (hoperands o ho x hx)
      rw [visitOperand_of_some hx]
      exact ⟨hout.firstOf.sound, x.explains_blames.of_agrees hout.firstOf.agrees⟩

/-- The first output unwinds as the visit does. -/
theorem unwinds_visitFirst {x : Expr} (hx : ∀ y, x.Reaches y → nodes y) {u : Lowering}
    (hu : Sound nodes u) (h : Unwinds x.FailsWithin u (visit x u)) :
    Unwinds x.FailsWithin u (visitFirst x u) := by
  have hagrees := (visit_outcome hids x u hu hx).agrees
  rw [visitFirst]
  generalize visit x u = out at h hagrees
  generalize x.tree = tree at hagrees
  cases h with
  | error hwithin hearlier hlog => exact .error hwithin hearlier hlog
  | ok hearlier hlog =>
      cases hagrees with
      | ok hstands =>
          obtain ⟨entry, rfl, -⟩ := hstands
          exact .ok hearlier hlog

variable (h : ∀ o ∈ p.operands ⟨.expr callee, args, attrs⟩, ∀ x, o.expr? = some x →
    ∀ u, Sound nodes u → Unwinds x.FailsWithin u (visit x u))

include hoperands h in
theorem unwinds_lowerOperands {s : Lowering} (hs : Sound nodes s) :
    Unwinds (fun kinds => ∃ before o after,
      p.operands ⟨.expr callee, args, attrs⟩ = before ++ o :: after ∧
      (∀ o' ∈ before, o'.blames (.exprCall id callee args attrs) p.family = []) ∧
      o.FailsWithin kinds) s (lowerOperands p ⟨.expr callee, args, attrs⟩ s) := by
  refine unwinds_all _ _ (fun o ho u hu => ?_) hs
  obtain ⟨hsound, hexplains⟩ := explains_visitOperand hids id hoperands ho hu
  refine ⟨hsound, hexplains, ?_⟩
  unfold Operand.FailsWithin
  cases hx : o.expr? with
  | none =>
      rw [visitOperand_of_none hx]
      exact .error rfl .nil (by simp)
  | some x =>
      rw [visitOperand_of_some hx]
      exact unwinds_visitFirst hids (hoperands o ho x hx) hu (h o ho x hx u hu)

include hkind hp hoperands h in
/-- A kernel unwinds as the first operand that fails does, or by itself. -/
theorem unwinds_ofPattern {s : Lowering} (hs : Sound nodes s) :
    Unwinds (fun kinds => (Expr.exprCall id callee args attrs).FailsWithin (kinds ++ [kind])) s
      (ofPattern p ⟨.expr callee, args, attrs⟩ s) := by
  have hblames := Expr.blames_fused id hkind hp
  rw [ofPattern_eq]
  cases hcheck : p.check with
  | error v =>
      have hfirst : (Expr.exprCall id callee args attrs).blames.head? =
          some (Expr.violates (.exprCall id callee args attrs) p.family v) := by
        rw [hblames, Pattern.blames, hcheck]
        rfl
      exact .error (failsWithin_itself hkind hfirst rfl) .nil (by simp)
  | ok _ =>
      have hall := unwinds_lowerOperands hids id hoperands h hs
      have hexplains := (Explains.allOf fun o _ =>
        explains_operand (.exprCall id callee args attrs) p.family o).of_agrees
          (outcome_lowerOperands (fun o ho x hx u hu =>
            visit_outcome hids x u hu (hoperands o ho x hx)) hs).agrees
      generalize lowerOperands p ⟨.expr callee, args, attrs⟩ s = out at hall hexplains
      cases hall with
      | error hfirst hearlier hlog =>
          obtain ⟨before, o, after, hsplit, hbefore, hwithin⟩ := hfirst
          exact .error (failsWithin_operand hkind hp hcheck hsplit hbefore hwithin) hearlier hlog
      | ok hearlier hlog =>
          dsimp only
          cases hattrs : p.attrs with
          | ok copied => exact .ok hearlier hlog
          | error v =>
              have hfirst : (Expr.exprCall id callee args attrs).blames.head? =
                  some (Expr.violates (.exprCall id callee args attrs) p.family v) := by
                rw [hblames, Pattern.blames, hcheck, hexplains.eq_nil, hattrs]
                rfl
              exact .error (failsWithin_itself hkind hfirst rfl) hearlier (by simpa using hlog)

end Steps

/-- A visit unwinds with the calls that the expression fails within. -/
theorem visit_unwinds (hids : Expr.Unambiguous nodes) (e : Expr) (s : Lowering)
    (hs : Sound nodes s) (he : ∀ x, e.Reaches x → nodes x) :
    Unwinds e.FailsWithin s (visit e s) := by
  refine visit_induction (motive := fun e s out => Sound nodes s → (∀ x, e.Reaches x → nodes x) →
    Unwinds e.FailsWithin s out) ?hit ?var ?constant ?function ?argument ?operator ?undeclared
    ?unmatched ?unbuilt ?fused e s hs he
  case hit =>
      intro e s entries _ _ _
      exact .ok .nil (List.append_nil _).symm
  case var =>
      intro id name type s _ _ _
      exact .ok .nil (List.append_nil _).symm
  case constant =>
      intro id value s _ _ _
      exact .ok .nil (List.append_nil _).symm
  case function =>
      intro id params body attrs s _ _ _
      have hfirst : (Expr.function id params body attrs).blames.head? =
          some ⟨.function id params body attrs, .unsupportedTarget "Function"⟩ := by
        rw [Expr.blames_function]
        rfl
      exact .error (.itself hfirst rfl) .nil (by simp [Expr.declared?])
  case argument =>
      intro id op args attrs s err t _ ih hargs hs he
      have hreach : ∀ a ∈ args, ∀ x, a.Reaches x → nodes x := fun a ha x hx => he x (.step ha hx)
      have hall := unwinds_arguments hids id op attrs hreach
        (fun a ha u hu => ih a ha u hu (hreach a ha)) (hs.noteOperator op)
      rw [hargs] at hall
      obtain ⟨earlier, hearlier, hlog⟩ := exists_log_noteOperator op s
      cases hall.after hearlier hlog with
      | error hwithin hunfailed hlog => exact .error hwithin hunfailed hlog
  case operator =>
      intro id op args attrs s inputs t _ ih hargs hs he
      have hreach : ∀ a ∈ args, ∀ x, a.Reaches x → nodes x := fun a ha x hx => he x (.step ha hx)
      have hall := unwinds_arguments hids id op attrs hreach
        (fun a ha u hu => ih a ha u hu (hreach a ha)) (hs.noteOperator op)
      rw [hargs] at hall
      obtain ⟨earlier, hearlier, hlog⟩ := exists_log_noteOperator op s
      cases hall.after hearlier hlog with
      | ok hunfailed hlog => exact .ok hunfailed hlog
  case undeclared =>
      intro id callee args attrs s err t _ hkind hdeclared _ _
      obtain ⟨earlier, hearlier, hlog⟩ := exists_log_declaredKind callee s
      rw [hdeclared] at hlog
      have hfirst : (Expr.exprCall id callee args attrs).blames.head? =
          some ⟨.exprCall id callee args attrs, err⟩ := by
        rw [Expr.blames_undeclared id hkind]
        rfl
      have hwithin := Expr.FailsWithin.itself hfirst rfl
      rw [Expr.declared?, hkind] at hwithin
      exact .error hwithin hearlier (hlog.trans (List.append_nil _).symm)
  case unmatched =>
      intro id callee args attrs s kind err _ hkind hp _ _
      have hfirst : (Expr.exprCall id callee args attrs).blames.head? =
          some ⟨.exprCall id callee args attrs, err⟩ := by
        rw [Expr.blames_unmatched id hkind hp]
        rfl
      have hlog : (s.note (.failed kind err)).log = s.log ++ [] ++ [.failed kind err] := by
        rw [List.append_nil]
        rfl
      exact .error (failsWithin_itself hkind hfirst rfl) .nil hlog
  case unbuilt =>
      intro id callee args attrs s kind p err t _ hkind hp ih hnode hs he
      have hreach : ∀ o ∈ p.operands ⟨.expr callee, args, attrs⟩, ∀ x, o.expr? = some x →
          ∀ y, x.Reaches y → nodes y := fun o ho x hx y hy =>
        he y ((Expr.reaches_of_mem_inputs (Expr.mem_inputs id hkind hp ho hx)).trans hy)
      have hall := unwinds_ofPattern hids id hkind hp hreach
        (fun o ho x hx u hu => ih o ho x hx u hu (hreach o ho x hx)) hs
      rw [hnode] at hall
      cases hall with
      | @error _ _ earlier kinds hwithin hearlier hlog =>
          refine .error hwithin hearlier ?_
          calc (t.note (.failed kind err)).log = t.log ++ [.failed kind err] := rfl
            _ = s.log ++ earlier ++ (kinds ++ [kind]).map (Event.failed · err) := by
              rw [hlog, List.map_append, List.append_assoc (s.log ++ earlier)]
              rfl
  case fused =>
      intro id callee args attrs s kind p node t _ hkind hp ih hnode hs he
      have hreach : ∀ o ∈ p.operands ⟨.expr callee, args, attrs⟩, ∀ x, o.expr? = some x →
          ∀ y, x.Reaches y → nodes y := fun o ho x hx y hy =>
        he y ((Expr.reaches_of_mem_inputs (Expr.mem_inputs id hkind hp ho hx)).trans hy)
      have hall := unwinds_ofPattern hids id hkind hp hreach
        (fun o ho x hx u hu => ih o ho x hx u hu (hreach o ho x hx)) hs
      rw [hnode] at hall
      cases hall with
      | @ok _ _ earlier hearlier hlog =>
          have hlowered : Unfailed [.lowered kind node.name node.inputs.length] :=
            .singleton fun _ _ heq => by cases heq
          refine .ok (hearlier.append hlowered) ?_
          show t.log ++ [.lowered kind node.name node.inputs.length] = _
          rw [hlog, List.append_assoc]

/-- The report of a fused call that failed is shown at every level but `off`. -/
theorem lines_failed {level : TraceLevel} (h : level ≠ .off) (kinds : List FusedKind)
    (err : LoweringError) : level.lines (kinds.map (Event.failed · err)) =
      kinds.map fun kind => s!"[ERROR] -- failed to lower {kind.name}: {err.message}" := by
  have hshown : (kinds.map (Event.failed · err)).filter (fun event => level.shows event.severity) =
      kinds.map (Event.failed · err) :=
    List.filter_eq_self.2 (List.forall_mem_map.2 fun _ _ => TraceLevel.shows_error h)
  rw [TraceLevel.lines, hshown, List.map_map]
  rfl

/-- The lines of a session account for what was lowered. Those that say that a fused call was
lowered are those of the nodes of fused calls, one for each and in their order, also where requests
failed; an expression that has a node is not reported again. A visit that fails says of the fused
calls that it fails within, from the innermost to the outermost, that they failed, with one message
and in the last lines, and says it of no others. -/
theorem lowering_reported (symbol : String) (requests : List Request) (e : Expr)
    (hids : Expr.Unambiguous (Expr.Among (e :: Session.exprs requests))) :
    let s := (Session.run symbol requests).lowering
    (∃ es, Emitted s es ∧ (∀ x ∈ es, Expr.Among (Session.exprs requests) x) ∧
      traces s.log = (fusedNodes es s.registry.nodes).map (fun (kind, node) =>
        .lowered kind node.name node.inputs.length) ∧
      ∀ level, level ≠ TraceLevel.off → level.lines (traces s.log) =
        (fusedNodes es s.registry.nodes).map fun (kind, node) => "[TRACE] -- " ++
          s!"lowered {kind.name} ({kind.family.name}) -> {node.name} with {node.inputs.length} inputs") ∧
    (∀ entries, s.registry.lookup e.id = some entries → visit e s = (.ok entries, s)) ∧
    ∀ err t, visit e s = (.error err, t) → ∃ kinds earlier, e.FailsWithin kinds ∧
      (∀ kinds', e.FailsWithin kinds' → kinds' = kinds) ∧
      t.log = s.log ++ earlier ++ kinds.map (Event.failed · err) ∧
      (∀ event ∈ earlier, ∀ kind err', event ≠ .failed kind err') ∧
      ∀ level, level ≠ TraceLevel.off → level.lines t.log = level.lines (s.log ++ earlier) ++
        kinds.map fun kind => s!"[ERROR] -- failed to lower {kind.name}: {err.message}" := by
  intro s
  refine ⟨?_, fun entries => visit_of_lookup, fun err t hvisit => ?_⟩
  · have hsession : Expr.Unambiguous (Expr.Among (Session.exprs requests)) := fun x y hx hy =>
      hids x y (hx.mono (List.subset_cons_self _ _)) (hy.mono (List.subset_cons_self _ _))
    obtain ⟨es, hs, hes, htraces⟩ := traced_run hsession symbol requests fun _ hx => hx
    refine ⟨es, hs, hes, htraces, fun level hlevel => ?_⟩
    rw [TraceLevel.lines_traces hlevel, htraces, List.map_map]
    rfl
  · have hs : Sound _ s := (sound_run hids symbol fun x hx =>
      hx.mono (List.subset_cons_self _ _)).1
    have hunwinds := visit_unwinds hids e s hs fun x hx => ⟨e, List.mem_cons_self, hx⟩
    rw [hvisit] at hunwinds
    cases hunwinds with
    | @error _ _ earlier kinds hwithin hearlier hlog =>
        refine ⟨kinds, earlier, hwithin, fun _ h => h.unique hwithin, hlog, hearlier,
          fun level hlevel => ?_⟩
        rw [hlog, TraceLevel.lines_append, lines_failed hlevel]

end Lowering

namespace WrongLayout

theorem inner_failsWithin : inner.FailsWithin [.conv2d] := by
  have hconvolved : Pattern.ofKind .conv2d ⟨.expr convolved, [data], .empty⟩ = .ok (.convolution
      none ⟨.op "nn.conv2d", [param, weight], ⟨[("kernel_layout", .text "HWIO")]⟩⟩ none none) := rfl
  have hfirst : inner.blames.head? =
      some (inner.violates .convolution (.kernelLayout "HWIO")) := by
    rw [inner, Expr.blames_fused 5 rfl hconvolved]
    rfl
  exact .itself hfirst rfl

theorem outer_failsWithin : outer.FailsWithin [.conv2d, .dense] := by
  have hdensed : Pattern.ofKind .dense ⟨.expr densed, [inner], .empty⟩ =
      .ok (.dense ⟨.op "nn.dense", [param, weight], .empty⟩ none none) := rfl
  have hinputs : outer.inputs = [] ++ inner :: [weight] := rfl
  have hblames : outer.blames = inner.blames ++ (weight.blames ++ []) ++ [] :=
    Expr.blames_fused 8 rfl hdensed
  obtain ⟨b, later, hb⟩ := List.exists_cons_of_ne_nil inner_failsWithin.blames_ne_nil
  exact inner_failsWithin.handOn (by rw [hblames, hb]; rfl) hinputs nofun

theorem sum_failsWithin : sum.FailsWithin [.conv2d, .dense] := by
  have hweight : weight.blames = [] := Expr.blames_constant 1 _
  have hblames : sum.blames = weight.blames ++ (outer.blames ++ []) :=
    Expr.blames_opCall 9 "add" _ _
  rw [hweight, List.nil_append, List.append_nil] at hblames
  have hinputs : sum.inputs = [weight] ++ outer :: [] := rfl
  exact outer_failsWithin.handOn (by rw [hblames]) hinputs (List.forall_mem_singleton.2 hweight)

/-- The dense layer is applied to the input itself. -/
def served : Expr := .exprCall 11 densed [data] .empty

/-- A call that is lowered, and one that fails. -/
def requests : List Request := [.visit served, .visit inner]

theorem unambiguous_served {es : List Expr} (hes : es ⊆ served :: nodes) :
    Expr.Unambiguous (Expr.Among es) := by
  refine Expr.unambiguous_of_nodup (served :: nodes) hes ?_ (by decide)
  simp [served, nodes, Expr.children, Expr.composite, param, weight, convolution, convolved, data,
    inner, dense, densed, outer, sum, main]

def registry : Registry :=
  ⟨[.input "data" none, .constant (constantName "main" 0) (.ofInt32 1),
      .kernel "nn.dense" [⟨0, 0, 0⟩, ⟨1, 0, 0⟩] 1 .empty],
    [(11, [⟨2, 0, 0⟩]), (1, [⟨1, 0, 0⟩]), (4, [⟨0, 0, 0⟩])], [0, 1],
    [(constantName "main" 0, .ofInt32 1)]⟩

theorem visit_served : visit served (start "main") =
    (.ok [⟨2, 0, 0⟩], ⟨"main", registry, [.lowered .dense "nn.dense" 2]⟩) := by
  have hdensed : Pattern.ofKind .dense ⟨.expr densed, [data], .empty⟩ =
      .ok (.dense ⟨.op "nn.dense", [param, weight], .empty⟩ none none) := rfl
  generalize hfed : (add 4 (.input "data" none) (start "main")).2 = fed
  have hdata : visitFirst data (start "main") = (.ok ⟨0, 0, 0⟩, fed) := by
    rw [visitFirst, data, visit_var rfl, ← hfed]
    rfl
  have hweight : visitFirst weight fed = (.ok ⟨1, 0, 0⟩, (addConstant 1 (.ofInt32 1) fed).2) := by
    subst hfed
    rw [visitFirst, weight, visit_constant rfl]
    rfl
  have hinputs : Step.all [visitFirst data, visitFirst weight] (start "main") =
      (.ok [⟨0, 0, 0⟩, ⟨1, 0, 0⟩], (addConstant 1 (.ofInt32 1) fed).2) :=
    Step.all_cons_eq_ok_iff.2 ⟨_, _, _, hdata,
      Step.all_cons_eq_ok_iff.2 ⟨_, _, _, hweight, rfl, rfl⟩, rfl⟩
  have hnode : ofPattern (.dense ⟨.op "nn.dense", [param, weight], .empty⟩ none none)
      ⟨.expr densed, [data], .empty⟩ (start "main") = _ :=
    ofPattern_eq_ok_iff.2 ⟨rfl, _, _, hinputs, rfl, rfl⟩
  rw [served, visit_fused rfl rfl hdensed, hnode, ← hfed]
  rfl

theorem visit_inner {s : Lowering} (h : s.registry.lookup 5 = none) : visit inner s =
    (.error (.violation .convolution (.kernelLayout "HWIO")),
      s.note (.failed .conv2d (.violation .convolution (.kernelLayout "HWIO")))) := by
  rw [inner, visit_exprCall h]
  rfl

theorem lowering_requests : (Session.run "main" requests).lowering =
    ⟨"main", registry, [.lowered .dense "nn.dense" 2,
      .failed .conv2d (.violation .convolution (.kernelLayout "HWIO"))]⟩ := by
  show (visit inner (visit served (start "main")).2).2 = _
  rw [visit_served, visit_inner rfl]
  rfl

/-- One dense layer is lowered and is the only fused call that has a node; then the convolution
fails, by itself and within the other dense layer, and this within a sum, which is no fused call. -/
theorem sum_unwound : Expr.Unambiguous (Expr.Among (sum :: Session.exprs requests)) ∧
    (∃ es, Emitted (Session.run "main" requests).lowering es ∧
      (fusedNodes es registry.nodes).map (fun (kind, node) =>
        Event.lowered kind node.name node.inputs.length) = [.lowered .dense "nn.dense" 2] ∧
      TraceLevel.basic.lines (traces (Session.run "main" requests).lowering.log) =
        ["[TRACE] -- lowered vsi_npu.dense (dense) -> nn.dense with 2 inputs"]) ∧
    ∃ t earlier, visit sum (Session.run "main" requests).lowering =
        (.error (.violation .convolution (.kernelLayout "HWIO")), t) ∧
      TraceLevel.basic.lines t.log = earlier ++
        ["[ERROR] -- failed to lower vsi_npu.conv2d: " ++
            (LoweringError.violation .convolution (.kernelLayout "HWIO")).message,
          "[ERROR] -- failed to lower vsi_npu.dense: " ++
            (LoweringError.violation .convolution (.kernelLayout "HWIO")).message] := by
  have hids : Expr.Unambiguous (Expr.Among (sum :: Session.exprs requests)) :=
    unambiguous_served (by simp [nodes, requests, Session.exprs, Request.exprs])
  have hs := (sound_run hids "main" fun x hx => hx.mono (List.subset_cons_self _ _)).1
  have herror := (explains_visit hids hs (e := sum)
    (fun x hx => ⟨sum, List.mem_cons_self, hx⟩) _).2 (congrArg _ head?_blames_sum)
  obtain ⟨⟨es, hes, -, htraces, -⟩, -, hfails⟩ := lowering_reported "main" requests sum hids
  obtain ⟨kinds, earlier, -, hunique, -, -, hlines⟩ := hfails _ _ (Prod.ext herror rfl)
  obtain rfl := hunique _ sum_failsWithin
  rw [lowering_requests] at htraces
  refine ⟨hids, ⟨es, hes, htraces.symm, ?_⟩, _, _, Prod.ext herror rfl, hlines .basic (by decide)⟩
  rw [lowering_requests]
  rfl

end WrongLayout

end KernelGraph
