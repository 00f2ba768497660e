import KernelGraph.Proofs.Operands
import Mathlib.Data.List.Infix

/-!
Where the chain of a body ends. A pattern is made of the first calls of the chain, with none left
out in between, but what the last of them takes as its argument 0 is not looked at any further: it
may be the parameter, as in the bodies that are expected, or anything else that the pattern does not
go on with. All such bodies are lowered alike (`visit_graft`).
-/

namespace KernelGraph

/-- The expression with its chain cut off after `n` calls, and `y` put in the place of what follows.
-/
def Expr.graft (e : Expr) (n : Nat) (y : Expr) : Expr :=
  match n, e with
  | 0, _ => y
  | n + 1, .opCall id op (a :: args) attrs => .opCall id op (a.graft n y :: args) attrs
  | n + 1, .exprCall id callee (a :: args) attrs => .exprCall id callee (a.graft n y :: args) attrs
  | _ + 1, e => e

/-- Two calls are alike but for their argument 0. -/
structure Call.Alike (c d : Call) : Prop where
  callee : d.callee = c.callee
  attrs : d.attrs = c.attrs
  length : d.args.length = c.args.length
  tail : d.args.tail = c.args.tail

namespace Call

theorem Alike.arg? {c d : Call} (h : c.Alike d) {i : Nat} (hi : 0 < i) : d.arg? i = c.arg? i := by
  obtain ⟨j, rfl⟩ : ∃ j, i = j + 1 := ⟨i - 1, by omega⟩
  rw [Call.arg?, Call.arg?, ← List.getElem?_tail, ← List.getElem?_tail, h.tail]

theorem Alike.accepts_iff {c d : Call} (h : c.Alike d) (slot : Slot) :
    slot.Accepts d ↔ slot.Accepts c := by
  rw [Slot.Accepts, Slot.Accepts, h.callee]

end Call

/-- What is left of a chain that is cut off after `n` calls is alike, and goes on as `y` does, if it
goes on at all. -/
theorem Expr.chain_graft (y : Expr) {n : Nat} {e : Expr} (hn : n ≤ e.chain.length) :
    ∃ cs rest, (e.graft n y).chain = cs ++ rest ∧ List.Forall₂ Call.Alike (e.chain.take n) cs ∧
      (rest = y.chain ∨ rest = []) := by
  induction n generalizing e with
  | zero => exact ⟨[], y.chain, by rw [Expr.graft, List.nil_append], .nil, .inl rfl⟩
  | succ n ih =>
      match e with
      | .var .. | .constant .. | .function .. => simp [Expr.chain] at hn
      | .opCall id op [] attrs =>
          refine ⟨[⟨.op op, [], attrs⟩], [], rfl, ?_, .inr rfl⟩
          rw [Expr.chain, List.take_succ_cons, List.take_nil]
          exact .cons ⟨rfl, rfl, rfl, rfl⟩ .nil
      | .exprCall id callee [] attrs =>
          refine ⟨[⟨.expr callee, [], attrs⟩], [], rfl, ?_, .inr rfl⟩
          rw [Expr.chain, List.take_succ_cons, List.take_nil]
          exact .cons ⟨rfl, rfl, rfl, rfl⟩ .nil
      | .opCall id op (a :: args) attrs =>
          rw [Expr.chain, List.length_cons] at hn
          obtain ⟨cs, rest, hchain, halike, hrest⟩ := ih (Nat.le_of_succ_le_succ hn)
          refine ⟨⟨.op op, a.graft n y :: args, attrs⟩ :: cs, rest, ?_, ?_, hrest⟩
          · rw [Expr.graft, Expr.chain, hchain, List.cons_append]
          · rw [Expr.chain, List.take_succ_cons]
            exact .cons ⟨rfl, rfl, rfl, rfl⟩ halike
      | .exprCall id callee (a :: args) attrs =>
          rw [Expr.chain, List.length_cons] at hn
          obtain ⟨cs, rest, hchain, halike, hrest⟩ := ih (Nat.le_of_succ_le_succ hn)
          refine ⟨⟨.expr callee, a.graft n y :: args, attrs⟩ :: cs, rest, ?_, ?_, hrest⟩
          · rw [Expr.graft, Expr.chain, hchain, List.cons_append]
          · rw [Expr.chain, List.take_succ_cons]
            exact .cons ⟨rfl, rfl, rfl, rfl⟩ halike

/-- Two bodies have the same parts, which are alike. -/
def LinksAlike : List (Part × Call) → List (Part × Call) → Prop :=
  List.Forall₂ fun l m => m.1 = l.1 ∧ l.2.Alike m.2

theorem Follows.optional {slots : List Slot} {chain : List Call} {links : List (Part × Call)}
    (h : Follows slots chain links) (hlinks : links = []) :
    ∀ slot ∈ slots, slot.optional = true := by
  induction h with
  | done => exact fun _ h => by cases h
  | take => cases hlinks
  | skip hoptional _ _ ih => exact List.forall_mem_cons.2 ⟨hoptional, ih hlinks⟩

/-- Slots stay empty if they may and nothing fits. -/
theorem follows_nothing {slots : List Slot} {chain : List Call}
    (hslots : ∀ slot ∈ slots, slot.optional = true ∧ ∀ c ∈ chain.head?, ¬slot.Accepts c) :
    Follows slots chain [] := by
  induction slots with
  | nil => exact .done chain
  | cons slot slots ih =>
      obtain ⟨⟨hoptional, hnone⟩, hrest⟩ := List.forall_mem_cons.1 hslots
      exact .skip hoptional hnone (ih hrest)

theorem Follows.chain_ne_nil {slots : List Slot} {chain : List Call} {link : Part × Call}
    {links : List (Part × Call)} (h : Follows slots chain (link :: links)) : chain ≠ [] := by
  generalize hlinks : link :: links = all at h
  induction h with
  | done => cases hlinks
  | take => exact List.cons_ne_nil _ _
  | skip _ _ _ ih => exact ih hlinks

/-- Alike calls fill the slots that calls filled, if what comes after them fills none of the slots
that are left. -/
theorem Follows.graft {slots : List Slot} {chain : List Call} {links : List (Part × Call)}
    (h : Follows slots chain links) {cs rest : List Call}
    (hcs : List.Forall₂ Call.Alike (chain.take links.length) cs)
    (hrest : ∀ tail, tail <:+ slots → (∀ slot ∈ tail, slot.optional = true) →
      ∀ slot ∈ tail, ∀ c ∈ rest.head?, ¬slot.Accepts c) :
    ∃ links', Follows slots (cs ++ rest) links' ∧ LinksAlike links links' := by
  induction h generalizing cs with
  | done chain => exact ⟨[], .done _, .nil⟩
  | @take slot slots c chain links hc _ ih =>
      rw [List.length_cons, List.take_succ_cons] at hcs
      cases hcs with
      | @cons _ d _ ds hd hds =>
          obtain ⟨links', hfollows, hlinks⟩ := ih hds fun tail htail =>
            hrest tail (htail.trans (List.suffix_cons _ _))
          exact ⟨(slot.part, d) :: links', .take ((hd.accepts_iff slot).2 hc) hfollows,
            .cons ⟨rfl, hd⟩ hlinks⟩
  | @skip slot slots chain links hoptional hnone hfollows ih =>
      cases links with
      | nil =>
          obtain rfl := List.forall₂_nil_left_iff.1 hcs
          have hall := (Follows.skip hoptional hnone hfollows).optional rfl
          exact ⟨[], follows_nothing fun slot' hslot' =>
            ⟨hall slot' hslot', hrest _ (List.suffix_refl _) hall slot' hslot'⟩, .nil⟩
      | cons link links =>
          obtain ⟨links', hfollows', hlinks⟩ := ih hcs fun tail htail =>
            hrest tail (htail.trans (List.suffix_cons _ _))
          refine ⟨links', .skip hoptional (fun d hd hfits => ?_) hfollows', hlinks⟩
          -- the next call is alike to the one that did not fit
          obtain ⟨c, chain', rfl⟩ := List.exists_cons_of_ne_nil hfollows.chain_ne_nil
          rw [List.length_cons, List.take_succ_cons] at hcs
          cases hcs with
          | cons halike _ =>
              cases hd
              exact hnone c rfl ((halike.accepts_iff slot).1 hfits)

/-- Only a pad is left when all that must be there was found. -/
theorem FusedKind.ops_of_suffix {kind : FusedKind} {tail : List Slot} (htail : tail <:+ kind.slots)
    (hall : ∀ slot ∈ tail, slot.optional = true) : ∀ slot ∈ tail, slot.ops = [.pad] := by
  have hends : ∀ tail ∈ kind.slots.tails, (∀ slot ∈ tail, slot.optional = true) →
      ∀ slot ∈ tail, slot.ops = [.pad] := by
    cases kind <;> decide
  exact hends tail ((List.mem_tails _ _).2 htail) hall

theorem LinksAlike.lookup {links links' : List (Part × Call)} (h : LinksAlike links links')
    (part : Part) : Option.Rel Call.Alike (links.lookup part) (links'.lookup part) := by
  induction h with
  | nil => exact .none
  | @cons link link' links links' hlink _ ih =>
      obtain ⟨part', c⟩ := link
      obtain ⟨part'', d⟩ := link'
      obtain ⟨hpart, halike⟩ := hlink
      dsimp only at hpart halike
      subst hpart
      rw [List.lookup_cons, List.lookup_cons]
      cases part == part'' with
      | true => exact .some halike
      | false => exact ih

namespace Call

variable {c d : Call}

theorem Alike.layout (h : c.Alike d) (attr standard : String) :
    d.layout attr standard = c.layout attr standard := by
  rw [Call.layout, Call.layout, h.attrs]

theorem Alike.checkConvLayouts (h : c.Alike d) : d.checkConvLayouts = c.checkConvLayouts := by
  rw [Call.checkConvLayouts, Call.checkConvLayouts, convLayouts, convLayouts, h.layout, h.layout]

theorem Alike.checkPoolLayout (h : c.Alike d) : d.checkPoolLayout = c.checkPoolLayout := by
  rw [Call.checkPoolLayout, Call.checkPoolLayout, h.layout]

theorem Alike.padding (h : c.Alike d) : d.padding = c.padding := by
  rw [Call.padding, Call.padding, h.attrs]

end Call

namespace Pattern

theorem check_eq (p : Pattern) :
    p.check = if p.kind.family = .convolution then p.compute.checkConvLayouts else .ok () := by
  rw [family_kind]
  rcases p with _ | _ | ⟨_ | _⟩ | _ | _ <;> rfl

theorem padding?_eq (p : Pattern) :
    p.padding? = match p.pad? with
      | none => .ok none
      | some pad =>
        if p.kind.family = .pool then p.compute.checkPoolLayout >>= fun _ => some <$> pad.padding
        else some <$> pad.padding := by
  rw [family_kind]
  rcases p with ⟨_ | pad⟩ | _ | _ | _ | ⟨_, _ | pad⟩ <;> rfl

variable {p q : Pattern}

theorem check_alike (hkind : q.kind = p.kind) (h : LinksAlike p.links q.links) :
    q.check = p.check := by
  have hcompute := h.lookup .compute
  rw [lookup_compute, lookup_compute] at hcompute
  cases hcompute with
  | some halike => rw [check_eq, check_eq, hkind, halike.checkConvLayouts]

theorem attrs_alike (hkind : q.kind = p.kind) (h : LinksAlike p.links q.links) :
    q.attrs = p.attrs := by
  have hcompute := h.lookup .compute
  have hpad := h.lookup .pad
  rw [lookup_compute, lookup_compute] at hcompute
  rw [lookup_pad, lookup_pad] at hpad
  cases hcompute with
  | some halike =>
      have hpadding : q.padding? = p.padding? := by
        rw [padding?_eq, padding?_eq, hkind, halike.checkPoolLayout]
        generalize q.pad? = pad' at hpad ⊢
        generalize p.pad? = pad at hpad ⊢
        cases hpad with
        | none => rfl
        | some halike' =>
            dsimp only
            rw [halike'.padding]
      rw [attrs, attrs, hpadding, halike.attrs]

end Pattern

open Lowering

theorem visitOperand_congr {family : Family} {o o' : Operand} (hexpr : o'.expr? = o.expr?)
    (hmissing : o'.missing = o.missing) : visitOperand family o' = visitOperand family o := by
  funext s
  rw [visitOperand, visitOperand, hexpr, hmissing]

theorem Call.Alike.description {c d : Call} (h : c.Alike d) : d.description = c.description := by
  rw [Call.description, Call.description, h.callee]

/-- No operand of a part of the body is its argument 0. -/
theorem FusedKind.position_pos (kind : FusedKind) :
    ∀ place ∈ kind.places, place.part ≠ none → 0 < place.position := by
  cases kind <;> simp [places]

/-- The operands of alike bodies are lowered alike. -/
theorem map_operands_alike {kind : FusedKind} {family : Family} {root root' : Call}
    {links links' : List (Part × Call)} (hargs : root'.args = root.args)
    (hroot : root'.description = root.description) (h : LinksAlike links links') :
    (kind.operands root' links').map (visitOperand family) =
      (kind.operands root links).map (visitOperand family) := by
  rw [FusedKind.operands, FusedKind.operands, List.map_filterMap, List.map_filterMap]
  refine List.filterMap_congr fun place hplace => ?_
  have hpos := kind.position_pos place hplace
  obtain ⟨part, position, role⟩ := place
  cases part with
  | none =>
      refine congrArg some (visitOperand_congr ?_ ?_)
      · rw [Operand.expr?, Operand.expr?, Call.arg?, Call.arg?, hargs]
      · rw [Operand.missing, Operand.missing, hargs, hroot]
  | some part =>
      have hlookup := h.lookup part
      rw [OperandPlace.operand?, OperandPlace.operand?]
      dsimp only
      generalize links.lookup part = c? at hlookup ⊢
      generalize links'.lookup part = d? at hlookup ⊢
      cases hlookup with
      | none => rfl
      | some halike =>
          refine congrArg some (visitOperand_congr ?_ ?_)
          · exact halike.arg? (hpos (Option.some_ne_none part))
          · rw [Operand.missing, Operand.missing, halike.length, halike.description]

/-- Kernels of alike bodies are built alike. -/
theorem ofPattern_alike {p q : Pattern} {root root' : Call} (hargs : root'.args = root.args)
    (hroot : root'.description = root.description) (hkind : q.kind = p.kind)
    (h : LinksAlike p.links q.links) : ofPattern q root' = ofPattern p root := by
  have hfamily : q.family = p.family := by rw [← q.family_kind, hkind, p.family_kind]
  have hoperands : lowerOperands q root' = lowerOperands p root := by
    rw [lowerOperands, lowerOperands, q.operands_eq, p.operands_eq, hkind, hfamily,
      map_operands_alike hargs hroot h]
  funext s
  rw [ofPattern_eq, ofPattern_eq, Pattern.check_alike hkind h, Pattern.attrs_alike hkind h,
    hoperands, hfamily, ← q.kernelName_kind, hkind, p.kernelName_kind]

/-- The calls that were taken can be taken, alike, from a body that goes on differently below them.
-/
theorem Pattern.ofKind_graft {kind : FusedKind} {fid : Nat} {params : List Expr} {body : Expr}
    {fattrs : Attributes} {args : List Expr} {attrs : Attributes} {p : Pattern}
    (hp : ofKind kind ⟨.expr (.function fid params body fattrs), args, attrs⟩ = .ok p) {y : Expr}
    (hy : ∀ c, y.call? = some c → ¬c.isOp .pad) :
    ∃ q, ofKind kind
        ⟨.expr (.function fid params (body.graft p.calls.length y) fattrs), args, attrs⟩ = .ok q ∧
      LinksAlike p.links q.links := by
  have hfollows : Follows kind.slots body.chain p.links :=
    (ofKind_iff_follows (f := ⟨params, body, fattrs⟩) rfl).1 ⟨p, hp, rfl⟩
  have hlength : p.links.length = p.calls.length := by
    rw [← p.map_snd_links, List.length_map]
  have hle : p.calls.length ≤ body.chain.length := by
    rw [← p.map_snd_links]
    exact hfollows.isPrefix.length_le
  obtain ⟨cs, rest, hchain, halike, hrest⟩ := Expr.chain_graft y hle
  rw [← hlength] at halike
  have hstop : ∀ tail, tail <:+ kind.slots → (∀ slot ∈ tail, slot.optional = true) →
      ∀ slot ∈ tail, ∀ c ∈ rest.head?, ¬slot.Accepts c := by
    intro tail htail hall slot hslot c hc hfits
    rw [Slot.accepts_iff, FusedKind.ops_of_suffix htail hall slot hslot, List.any_cons,
      List.any_nil, Bool.or_false] at hfits
    rcases hrest with rfl | rfl
    · rw [Expr.head?_chain] at hc
      exact hy c hc hfits
    · cases hc
  obtain ⟨links, hfollows', hlinks⟩ := hfollows.graft halike hstop
  rw [← hchain] at hfollows'
  have hf : (Expr.function fid params (body.graft p.calls.length y) fattrs).function? =
      some ⟨params, body.graft p.calls.length y, fattrs⟩ := rfl
  obtain ⟨q, hq, rfl⟩ := (ofKind_iff_follows hf).2 hfollows'
  exact ⟨q, hq, hlinks⟩

/-- What comes in below the calls that were taken makes no difference. -/
theorem visit_graft {id fid : Nat} {params : List Expr} {body : Expr} {fattrs : Attributes}
    {args : List Expr} {attrs : Attributes} {kind : FusedKind} {p : Pattern}
    (hkind : (Expr.function fid params body fattrs).fusedKind = .ok kind)
    (hp : Pattern.ofKind kind ⟨.expr (.function fid params body fattrs), args, attrs⟩ = .ok p)
    {y : Expr} (hy : ∀ c, y.call? = some c → ¬c.isOp .pad) {s : Lowering}
    (hnew : s.registry.lookup id = none) :
    visit (.exprCall id (.function fid params (body.graft p.calls.length y) fattrs) args attrs) s =
      visit (.exprCall id (.function fid params body fattrs) args attrs) s := by
  obtain ⟨q, hq, hlinks⟩ := Pattern.ofKind_graft hp hy
  have hsame : q.kind = p.kind := by
    rw [(Pattern.ofCall_of_ofKind hq).2, (Pattern.ofCall_of_ofKind hp).2]
  have hkind' :
      (Expr.function fid params (body.graft p.calls.length y) fattrs).fusedKind = .ok kind := hkind
  rw [visit_fused hnew hkind' hq, visit_fused hnew hkind hp]
  exact congrArg (fun step : Step Node => addKernel id kind (step s))
    (ofPattern_alike rfl rfl hsame hlinks)

/-- A chain goes on after a call with the chain of the call's argument 0. -/
theorem Expr.chain_after {e : Expr} {cs rest : List Call} {c : Call}
    (h : e.chain = cs ++ c :: rest) : rest = (c.arg? 0).elim [] Expr.chain := by
  induction cs generalizing e with
  | nil =>
      have hc : e.call? = some c := by
        rw [← Expr.head?_chain, h, List.nil_append, List.head?_cons]
      rw [Expr.chain_of_call? hc, List.nil_append] at h
      exact (List.cons.inj h).2.symm
  | cons d cs ih =>
      have hd : e.call? = some d := by
        rw [← Expr.head?_chain, h, List.cons_append, List.head?_cons]
      rw [Expr.chain_of_call? hd, List.cons_append] at h
      have htail := (List.cons.inj h).2
      cases hz : d.arg? 0 with
      | none => simp [hz] at htail
      | some z =>
          rw [hz] at htail
          exact ih htail

/-- The calls that were taken are the whole chain exactly if the last of them is not fed by a call.
-/
theorem chain_eq_iff {e : Expr} {cs : List Call} (hcs : cs <+: e.chain) (hne : cs ≠ []) :
    e.chain = cs ↔ ∀ c z, cs.getLast? = some c → c.arg? 0 = some z → z.call? = none := by
  obtain ⟨rest, hrest⟩ := hcs
  obtain ⟨front, c, rfl⟩ := (List.eq_nil_or_concat' cs).resolve_left hne
  rw [List.append_assoc, List.singleton_append] at hrest
  have hends : e.chain = front ++ [c] ↔ rest = [] := by
    rw [← hrest]
    simp
  rw [hends, Expr.chain_after hrest.symm]
  constructor
  · intro hnil d z hd hz
    obtain rfl : c = d := by simpa using hd
    rw [hz] at hnil
    rw [← Expr.head?_chain]
    exact List.head?_eq_none_iff.2 hnil
  · intro h
    cases hz : c.arg? 0 with
    | none => rfl
    | some z =>
        have hcall := h c z (by simp) hz
        rw [← Expr.head?_chain] at hcall
        exact List.head?_eq_none_iff.1 hcall

theorem FusedKind.operands_head (kind : FusedKind) (root : Call) (links : List (Part × Call)) :
    ∃ rest, kind.operands root links = ⟨root, 0, .data⟩ :: rest := by
  cases kind <;> exact ⟨_, rfl⟩

/-- The first operand is what the call itself is given. -/
theorem collected_data {p : Pattern} {root : Call} {s t : Lowering} {inputs : List Entry}
    (hs : s.Single) (h : lowerOperands p root s = (.ok inputs, t)) :
    ∃ x entry u, root.arg? 0 = some x ∧ visit x s = (.ok [entry], u) ∧
      inputs.head? = some entry := by
  obtain ⟨rest, hrest⟩ := p.kind.operands_head root p.links
  rw [lowerOperands, p.operands_eq, hrest, List.map_cons] at h
  obtain ⟨entry, entries, u, hdata, -, rfl⟩ := Step.all_cons_eq_ok_iff.1 h
  obtain ⟨x, hx, hfirst⟩ := visitOperand_eq_ok_iff.1 hdata
  exact ⟨x, entry, u, hx, (visitFirst_eq_ok_iff hs).1 hfirst, rfl⟩

/-- What is lowered of a body, in every graph that a session leads to: the calls that were taken are
the first ones of its chain, with none left out, and the data are what the call itself is given.
They are the whole chain exactly if the last of them is not fed by a call. Otherwise the chain goes
on, and what it goes on with makes no difference. -/
theorem visit_matched_calls (symbol : String) (requests : List Request) (id fid : Nat)
    (params : List Expr) (body : Expr) (fattrs : Attributes) (args : List Expr) (attrs : Attributes)
    (hnew : (Session.run symbol requests).lowering.registry.lookup id = none) :
    let s := (Session.run symbol requests).lowering
    ∀ entries t, visit (.exprCall id (.function fid params body fattrs) args attrs) s =
        (.ok entries, t) →
      ∃ kind p before node x entry u,
        (Expr.function fid params body fattrs).fusedKind = .ok kind ∧
        Pattern.ofKind kind ⟨.expr (.function fid params body fattrs), args, attrs⟩ = .ok p ∧
        p.calls <+: body.chain ∧
        (body.chain = p.calls ↔
          ∀ c z, p.calls.getLast? = some c → c.arg? 0 = some z → z.call? = none) ∧
        t.registry.nodes = before ++ [node] ∧ args[0]? = some x ∧ visit x s = (.ok [entry], u) ∧
        node.inputs.head? = some entry ∧
        ∀ y, (∀ c, y.call? = some c → ¬c.isOp .pad) →
          visit (.exprCall id (.function fid params (body.graft p.calls.length y) fattrs) args
            attrs) s = (.ok entries, t) := by
  intro s entries t h
  have hs : s.Single := Session.single_run symbol requests
  obtain ⟨kind, p, node, u, hkind, hp, hnode, hadd⟩ := (visit_exprCall_eq_ok_iff hnew).1 h
  obtain ⟨-, inputs, copied, hinputs, -, rfl⟩ := ofPattern_eq_ok_iff.1 hnode
  obtain ⟨x, entry, v, hx, hdata, hhead⟩ := collected_data hs hinputs
  have hprefix : p.calls <+: body.chain := by
    rw [← p.map_snd_links]
    exact ((Pattern.ofKind_iff_follows (f := ⟨params, body, fattrs⟩) rfl).1 ⟨p, hp, rfl⟩).isPrefix
  have hne : p.calls ≠ [] := List.ne_nil_of_mem p.compute_mem_calls
  refine ⟨kind, p, u.registry.nodes, ⟨.kernel, p.kernelName, inputs, 1, copied⟩, x, entry, v, hkind,
    hp, hprefix, chain_eq_iff hprefix hne, ?_, hx, hdata, hhead, fun y hy => ?_⟩
  · cases hadd
    rfl
  · rw [visit_graft hkind hp hy hnew, h]

/-! A dense layer whose body pads its input first. The chain goes on after the dense layer, but the
pattern does not. -/

namespace PaddedDense

def param : Expr := .var 0 "x" none

def weight : Expr := .constant 1 (.ofInt32 1)

def pad : Expr := .opCall 2 "nn.pad" [param] .empty

def dense : Expr := .opCall 3 "nn.dense" [pad, weight] .empty

def attrs : Attributes := ⟨[("Composite", .text "vsi_npu.dense")]⟩

def fused : Expr := .function 4 [param] dense attrs

def data : Expr := .var 5 "data" none

def call : Expr := .exprCall 6 fused [data] .empty

def pattern : Pattern := .dense ⟨.op "nn.dense", [pad, weight], .empty⟩ none none

theorem unambiguous : Expr.Unambiguous (Expr.Among (call :: Session.exprs [])) := by
  refine Expr.unambiguous_of_nodup [param, weight, pad, dense, fused, data, call] ?_ ?_ (by decide)
  · simp [Session.exprs]
  · simp [Expr.children, param, weight, pad, dense, fused, data, call]

/-- The call is lowered, to a kernel that takes the input as it is. -/
theorem visit_call :
    ∃ entries t, visit call (Session.run "main" []).lowering = (.ok entries, t) := by
  have hdata : Lowers data (.start "main") := ⟨_, _, visit_var rfl⟩
  have hweight : Lowers weight (.start "main") := ⟨_, _, visit_constant rfl⟩
  have hp : Pattern.ofKind .dense ⟨.expr fused, [data], .empty⟩ = .ok pattern := rfl
  obtain ⟨inputs, t, h⟩ := (lowerOperands_isOk_iff pattern ⟨.expr fused, [data], .empty⟩
    unambiguous (.start "main") fun o ho x hx y hy =>
      .of_mem List.mem_cons_self ((Expr.reaches_operand 6 hp ho hx).trans hy)).2
        (List.forall_mem_cons.2 ⟨⟨data, rfl, hdata⟩,
          List.forall_mem_singleton.2 ⟨weight, rfl, hweight⟩⟩)
  exact ⟨_, _, (visit_exprCall_eq_ok_iff rfl).2 ⟨.dense, pattern, _, t, rfl, hp,
    ofPattern_eq_ok_iff.2 ⟨rfl, inputs, _, h, rfl, rfl⟩, rfl⟩⟩

/-- The last call that is taken need not be fed by the parameter of the function. -/
theorem not_fed_by_parameter :
    ¬∀ (symbol : String) (requests : List Request) (id fid : Nat) (params : List Expr) (body : Expr)
      (fattrs : Attributes) (args : List Expr) (attrs : Attributes) (entries : List Entry)
      (t : Lowering) (kind : FusedKind) (p : Pattern),
      (∀ x ∈ params, x.isVar = true) →
      Expr.Unambiguous (Expr.Among
        (.exprCall id (.function fid params body fattrs) args attrs :: Session.exprs requests)) →
      (Session.run symbol requests).lowering.registry.lookup id = none →
      visit (.exprCall id (.function fid params body fattrs) args attrs)
        (Session.run symbol requests).lowering = (.ok entries, t) →
      (Expr.function fid params body fattrs).fusedKind = .ok kind →
      Pattern.ofKind kind ⟨.expr (.function fid params body fattrs), args, attrs⟩ = .ok p →
      ∃ c x, p.calls.getLast? = some c ∧ params.head? = some x ∧ c.arg? 0 = some x := by
  intro h
  obtain ⟨entries, t, hvisit⟩ := visit_call
  obtain ⟨c, x, hc, hx, harg⟩ := h "main" [] 6 4 [param] dense attrs [data] .empty entries t .dense
    pattern (by simp [param, Expr.isVar]) unambiguous rfl hvisit rfl rfl
  cases hc
  cases hx
  cases harg

/-- The pad is left out: the call is lowered like one of a dense layer over the parameter. -/
theorem visit_call_matched : (Session.run "main" []).lowering.registry.lookup 6 = none ∧
    ∃ entries t, visit call (Session.run "main" []).lowering = (.ok entries, t) ∧
      visit (.exprCall 6 (.function 4 [param] (.opCall 3 "nn.dense" [param, weight] .empty) attrs)
        [data] .empty) (Session.run "main" []).lowering = (.ok entries, t) := by
  obtain ⟨entries, t, hvisit⟩ := visit_call
  obtain ⟨kind, p, before, node, x, entry, u, hkind, hp, -, -, -, -, -, -, hgraft⟩ :=
    visit_matched_calls "main" [] 6 4 [param] dense attrs [data] .empty rfl entries t hvisit
  cases hkind
  cases hp
  refine ⟨rfl, entries, t, hvisit, hgraft param fun c hc => ?_⟩
  cases hc

end PaddedDense

end KernelGraph
