import KernelGraph.Proofs.Blame
import KernelGraph.Proofs.ConstantTable

/-!
A visit that fails can be tried again. It leaves what it had lowered up to the expression that is to
blame, in good order, and neither this expression nor any that is lowered over it. When it is tried
again, everything before that expression is known, so it comes to the same point, fails for the same
reason and adds nothing (`repeats_visit`).
-/

namespace KernelGraph

open Walk

/-- Two states have the same graph, whatever was reported in between. -/
structure Lowering.SameGraph (s t : Lowering) : Prop where
  symbol : t.symbol = s.symbol
  registry : t.registry = s.registry

/-- All that is known in one state has the same outputs in another. -/
def Lowering.KnownIn (s t : Lowering) : Prop :=
  ∀ id entries, s.registry.lookup id = some entries → t.registry.lookup id = some entries

namespace Lowering

theorem SameGraph.refl (s : Lowering) : s.SameGraph s := ⟨rfl, rfl⟩

theorem SameGraph.trans {s t u : Lowering} (h : s.SameGraph t) (h' : t.SameGraph u) :
    s.SameGraph u := ⟨h'.symbol.trans h.symbol, h'.registry.trans h.registry⟩

theorem sameGraph_note (s : Lowering) (e : Event) : s.SameGraph (s.note e) := ⟨rfl, rfl⟩

theorem sameGraph_noteOperator (op : String) (s : Lowering) : s.SameGraph (noteOperator op s) := by
  unfold noteOperator
  split
  · exact .refl s
  · exact sameGraph_note s _

theorem sameGraph_declaredKind (callee : Expr) (s : Lowering) :
    s.SameGraph (declaredKind callee s).2 := by
  rcases declaredKind_snd callee s with h | ⟨e, h⟩
  · rw [h]
    exact .refl s
  · rw [h]
    exact sameGraph_note s _

theorem SameGraph.lookup {s t : Lowering} (h : s.SameGraph t) (id : Nat) :
    t.registry.lookup id = s.registry.lookup id := by rw [h.registry]

theorem SameGraph.knownIn {s t : Lowering} (h : s.SameGraph t) : s.KnownIn t :=
  fun id _ hid => (h.lookup id).trans hid

theorem Extends.knownIn {s t u : Lowering} (h : s.Extends t) (hu : t.KnownIn u) : s.KnownIn u :=
  fun id entries hid => hu id entries (h.lookup id entries hid)

end Lowering

open Lowering

/-- A step whose result is looked at, which leaves the graph as it is. -/
def Step.thenTry {α β : Type} (f : Step α) (g : α → Except LoweringError β) : Step β := fun s =>
  match f s with
  | (.error err, t) => (.error err, t)
  | (.ok a, t) => (g a, t)

theorem Step.thenTry_snd {α β : Type} (f : Step α) (g : α → Except LoweringError β) (s : Lowering) :
    (f.thenTry g s).2 = (f s).2 := by
  rw [thenTry]
  rcases f s with ⟨err | a, t⟩
  · rfl
  · rfl

/-- A step that is taken again does nothing new. Where it succeeded, it gives the same out as long
as all that it knew is known; where it failed, it fails with the same error. -/
structure Repeats {α : Type} (nodes : Expr → Prop) (f : Step α) : Prop where
  sound : ∀ s, Sound nodes s → Sound nodes (f s).2
  grows : ∀ s : Lowering, s.Extends (f s).2
  done : ∀ s a t, f s = (.ok a, t) → ∀ u, t.KnownIn u → f u = (.ok a, u)
  failed : ∀ s err t, Sound nodes s → f s = (.error err, t) → ∀ u, t.SameGraph u →
    ∃ v, f u = (.error err, v) ∧ u.SameGraph v

namespace Repeats

variable {α β : Type} {nodes : Expr → Prop}

theorem fail (err : LoweringError) : Repeats nodes (fail err : Step α) := by
  refine ⟨fun s hs => hs, Extends.refl, fun s a t h => ?_, fun s err' t _ h u _ => ?_⟩
  · cases h
  · cases h
    exact ⟨u, rfl, .refl u⟩

theorem nil : Repeats nodes (Step.all ([] : List (Step α))) := by
  refine ⟨fun s hs => hs, Extends.refl, fun s as t h u _ => ?_, fun s err t _ h => ?_⟩
  · cases h
    rfl
  · cases h

theorem cons {f : Step α} {fs : List (Step α)} (hf : Repeats nodes f)
    (hfs : Repeats nodes (Step.all fs)) : Repeats nodes (Step.all (f :: fs)) := by
  refine ⟨?sound, ?grows, fun s as t h u hu => ?done, fun s err t hs h u hu => ?failed⟩
  case sound =>
      exact Step.rel_all_cons (R := fun s t => Sound nodes s → Sound nodes t)
        (fun _ _ _ hst htu hs => htu (hst hs)) hf.sound hfs.sound
  case grows => exact Step.rel_all_cons (fun _ _ _ h h' => h.trans h') hf.grows hfs.grows
  case done =>
      obtain ⟨a, rest, m, hfirst, hrest, rfl⟩ := Step.all_cons_eq_ok_iff.1 h
      have hmt : m.Extends t := by
        have := hfs.grows m
        rwa [hrest] at this
      exact Step.all_cons_eq_ok_iff.2
        ⟨a, rest, u, hf.done s a m hfirst u (hmt.knownIn hu), hfs.done m rest t hrest u hu, rfl⟩
  case failed =>
      rcases Step.all_cons_eq_error_iff.1 h with hfirst | ⟨a, m, hfirst, hrest⟩
      · obtain ⟨v, hv, huv⟩ := hf.failed s err t hs hfirst u hu
        exact ⟨v, Step.all_cons_eq_error_iff.2 (.inl hv), huv⟩
      · have hm : Sound nodes m := by
          have := hf.sound s hs
          rwa [hfirst] at this
        have hmt : m.Extends t := by
          have := hfs.grows m
          rwa [hrest] at this
        -- what was done before the failure is known by now
        have hknown : f u = (.ok a, u) := hf.done s a m hfirst u (hmt.knownIn hu.knownIn)
        obtain ⟨v, hv, huv⟩ := hfs.failed m err t hm hrest u hu
        exact ⟨v, Step.all_cons_eq_error_iff.2 (.inr ⟨a, u, hknown, hv⟩), huv⟩

theorem all {fs : List (Step α)} (h : ∀ f ∈ fs, Repeats nodes f) : Repeats nodes (Step.all fs) := by
  induction fs with
  | nil => exact nil
  | cons f fs ih =>
      exact (h f List.mem_cons_self).cons (ih fun g hg => h g (List.mem_cons_of_mem f hg))

theorem thenTry {f : Step α} (hf : Repeats nodes f) (g : α → Except LoweringError β) :
    Repeats nodes (f.thenTry g) := by
  refine ⟨fun s hs => ?sound, fun s => ?grows, fun s b t h u hu => ?done,
    fun s err t hs h u hu => ?failed⟩
  case sound => exact Step.thenTry_snd f g s ▸ hf.sound s hs
  case grows => exact Step.thenTry_snd f g s ▸ hf.grows s
  case done =>
      rw [Step.thenTry] at h ⊢
      rcases hfirst : f s with ⟨err | a, m⟩
      · rw [hfirst] at h
        cases h
      · rw [hfirst] at h
        obtain ⟨hg, rfl⟩ := Prod.mk.inj h
        rw [hf.done s a m hfirst u hu]
        exact congrArg (·, u) hg
  case failed =>
      rw [Step.thenTry] at h ⊢
      rcases hfirst : f s with ⟨err' | a, m⟩
      · rw [hfirst] at h
        cases h
        obtain ⟨v, hv, huv⟩ := hf.failed s err t hs hfirst u hu
        rw [hv]
        exact ⟨v, rfl, huv⟩
      · rw [hfirst] at h
        obtain ⟨hg, rfl⟩ := Prod.mk.inj h
        rw [hf.done s a m hfirst u hu.knownIn]
        exact ⟨u, congrArg (·, u) hg, .refl u⟩

theorem visitFirst {x : Expr} (h : Repeats nodes (visit x)) : Repeats nodes (visitFirst x) := by
  have hfirst : Lowering.visitFirst x = (visit x).thenTry fun
      | [] => .error (.noOutputs x.typeKey)
      | entry :: _ => .ok entry := by
    funext s
    rw [Lowering.visitFirst, Step.thenTry]
    rcases visit x s with ⟨err | _ | ⟨entry, rest⟩, t⟩ <;> rfl
  rw [hfirst]
  exact h.thenTry _

theorem visitOperand {family : Family} {o : Operand}
    (h : ∀ x, o.expr? = some x → Repeats nodes (visit x)) :
    Repeats nodes (visitOperand family o) := by
  cases hx : o.expr? with
  | none =>
      rw [show Lowering.visitOperand family o = Lowering.fail (.violation family o.missing) from
        funext (visitOperand_of_none hx)]
      exact .fail _
  | some x =>
      rw [visitOperand_of_some hx]
      exact (h x hx).visitFirst

/-- Kernels are built again as they were if their operands are. -/
theorem ofPattern {p : Pattern} {root : Call}
    (h : ∀ o ∈ p.operands root, ∀ x, o.expr? = some x → Repeats nodes (visit x)) :
    Repeats nodes (ofPattern p root) := by
  have hoperands : Repeats nodes (lowerOperands p root) := by
    refine .all fun f hf => ?_
    obtain ⟨o, ho, rfl⟩ := List.mem_map.1 hf
    exact visitOperand (h o ho)
  cases hcheck : p.check with
  | error v =>
      have hfail : Lowering.ofPattern p root = Lowering.fail (.violation p.family v) := by
        funext s
        rw [ofPattern_eq, hcheck]
        rfl
      rw [hfail]
      exact .fail _
  | ok _ =>
      have hbuild : Lowering.ofPattern p root = (lowerOperands p root).thenTry fun inputs =>
          (p.attrs.mapError (.violation p.family)).map fun attrs =>
            ⟨.kernel, p.kernelName, inputs, 1, attrs⟩ := by
        funext s
        rw [ofPattern_eq, hcheck, Step.thenTry]
        dsimp only
        rcases lowerOperands p root s with ⟨err | inputs, t⟩
        · rfl
        · cases p.attrs <;> rfl
      rw [hbuild]
      exact hoperands.thenTry _

end Repeats

section

variable {nodes : Expr → Prop}

/-- What has failed is not known. -/
theorem lookup_of_failed (hids : Expr.Unambiguous nodes) {e : Expr} (he : nodes e) {s : Lowering}
    (hs : Sound nodes s) {err : LoweringError} (htree : e.tree = .error err) :
    s.registry.lookup e.id = none := by
  rw [Option.eq_none_iff_forall_ne_some]
  intro entries hlookup
  obtain ⟨d, tree, hd, hid, hok, -⟩ := hs.memo e.id entries hlookup
  obtain rfl : d = e := hids d e hd he hid
  cases htree.symm.trans hok

/-- A visit that has left the graph of `t` fails with an error when it is made again. -/
def FailsAgain (e : Expr) (err : LoweringError) (t : Lowering) : Prop :=
  ∀ u, t.SameGraph u → u.registry.lookup e.id = none →
    ∃ v, visit e u = (.error err, v) ∧ u.SameGraph v

/-- A visit repeats if it fails again where it failed. -/
theorem Repeats.visit (hids : Expr.Unambiguous nodes) {e : Expr} (he : ∀ x, e.Reaches x → nodes x)
    (h : ∀ s err t, Sound nodes s → visit e s = (.error err, t) → FailsAgain e err t) :
    Repeats nodes (visit e) := by
  refine ⟨fun s hs => (visit_outcome hids e s hs he).sound, extends_visit e,
    fun s entries t hs u hu => visit_of_lookup (hu _ _ (lookup_of_visit hs)),
    fun s err t hs hfirst u hu => h s err t hs hfirst u hu ?_⟩
  have hout := visit_outcome hids e s hs he
  rw [hfirst] at hout
  rw [hu.lookup]
  exact lookup_of_failed hids (he e (.refl e)) hout.sound ((hout.agrees.error_iff err).2 rfl)

theorem visit_failsAgain (hids : Expr.Unambiguous nodes) (e : Expr) (s : Lowering)
    (hs : Sound nodes s) (he : ∀ x, e.Reaches x → nodes x) {err : LoweringError} {t : Lowering}
    (h : visit e s = (.error err, t)) : FailsAgain e err t := by
  revert hs he err t
  refine visit_induction (motive := fun e s out => Sound nodes s → (∀ x, e.Reaches x → nodes x) →
    ∀ {err t}, out = (.error err, t) → FailsAgain e err t) ?hit ?var ?constant ?function ?argument
    ?operator ?undeclared ?unmatched ?unbuilt ?fused e s
  case function =>
      intro id params body attrs s _ hs he err t h u hu hnew
      cases h
      exact ⟨u, visit_function hnew, .refl u⟩
  case argument =>
      intro id op args attrs s err t _ ih hargs hs he err' t' h u hu hnew
      cases h
      have hrepeats : Repeats nodes (Step.all (args.map visit)) := by
        refine .all (List.forall_mem_map.2 fun a ha => ?_)
        have hnodes : ∀ x, a.Reaches x → nodes x := fun x hx => he x (.step ha hx)
        exact .visit hids hnodes fun s err t hs h => ih a ha s hs hnodes h
      obtain ⟨v, hv, huv⟩ := hrepeats.failed _ err t (hs.noteOperator op) hargs (noteOperator op u)
        (hu.trans (sameGraph_noteOperator op u))
      refine ⟨v, ?_, (sameGraph_noteOperator op u).trans huv⟩
      change u.registry.lookup id = none at hnew
      rw [visit_opCall hnew, hv]
      rfl
  case undeclared =>
      intro id callee args attrs s err t _ hkind _ hs he err' t' h u hu hnew
      cases h
      exact ⟨_, visit_undeclared hnew hkind, sameGraph_declaredKind callee u⟩
  case unmatched =>
      intro id callee args attrs s kind err _ hkind hp hs he err' t' h u hu hnew
      cases h
      exact ⟨u.note (.failed kind err), visit_unmatched hnew hkind hp, sameGraph_note u _⟩
  case unbuilt =>
      intro id callee args attrs s kind p err t _ hkind hp ih hnode hs he err' t' h u hu hnew
      cases h
      have hrepeats : Repeats nodes (ofPattern p ⟨.expr callee, args, attrs⟩) := by
        refine .ofPattern fun o ho x hx => ?_
        have hnodes : ∀ y, x.Reaches y → nodes y := fun y hy =>
          he y ((Expr.reaches_operand id hp ho hx).trans hy)
        exact .visit hids hnodes fun s err t hs h => ih o ho x hx s hs hnodes h
      obtain ⟨v, hv, huv⟩ := hrepeats.failed s err t hs hnode u
        ((sameGraph_note t (.failed kind err)).trans hu)
      refine ⟨v.note (.failed kind err), ?_, huv.trans (sameGraph_note v _)⟩
      change u.registry.lookup id = none at hnew
      rw [visit_fused hnew hkind hp, hv]
      rfl
  all_goals
      intros
      rename_i h
      cases h

/-- A visit that is made again does nothing new. -/
theorem repeats_visit (hids : Expr.Unambiguous nodes) (e : Expr)
    (he : ∀ x, e.Reaches x → nodes x) : Repeats nodes (visit e) :=
  .visit hids he fun s _ _ hs h => visit_failsAgain hids e s hs he h

/-- An expression that is rejected leaves the graph as it was. -/
theorem sameGraph_of_rejected {e : Expr} {err : LoweringError} (h : e.Rejected err) {s : Lowering}
    (hnew : s.registry.lookup e.id = none) : s.SameGraph (visit e s).2 := by
  cases e with
  | var | constant | opCall => cases h
  | function id params body attrs =>
      change s.registry.lookup id = none at hnew
      rw [visit_function hnew]
      exact .refl s
  | exprCall id callee args attrs =>
      change s.registry.lookup id = none at hnew
      rcases h.exists_error with ⟨err', hkind⟩ | ⟨kind, hkind, ⟨err', hp⟩ | ⟨p, v, hp, hv⟩⟩
      · rw [visit_undeclared hnew hkind]
        exact sameGraph_declaredKind callee s
      · rw [visit_unmatched hnew hkind hp]
        exact sameGraph_note s _
      · rw [visit_fused hnew hkind hp, ofPattern_eq, hv]
        exact sameGraph_note s _

/-- What is known is there with all that it is lowered over. -/
theorem lookup_inputs (hids : Expr.Unambiguous nodes) {s : Lowering} {es : List Expr}
    (hs : Emitted s es) (hes : ∀ x ∈ es, nodes x) {e : Expr} (he : nodes e)
    (h : s.registry.lookup e.id ≠ none) {x : Expr} (hx : x ∈ e.inputs) :
    s.registry.lookup x.id ≠ none := by
  obtain ⟨entries, hentries⟩ := Option.ne_none_iff_exists'.1 h
  have hmem : e ∈ es := mem_of_id_mem hids hes he (hs.table.mem_of_lookup hentries)
  rw [hs.table.known x (hs.ordered.next_subset e hmem hx)]
  exact Option.some_ne_none _

end

/-- A visit that fails, in any graph that a session leads to, leaves a graph in good order which the
visit can be tried on again: all that was there is there, neither the expression that is to blame
nor any that is lowered over it is known, be it of the session or another, and what is known is
there with all that it is lowered over. The visit then fails with the same error and leaves this
graph as it is. If the expression itself is rejected, the graph is the one that it was before. -/
theorem visit_retry (symbol : String) (requests : List Request) (e : Expr) (others : List Expr)
    (hids : Expr.Unambiguous (Expr.Among (e :: others ++ Session.exprs requests)))
    (err : LoweringError) (t : Lowering)
    (h : visit e (Session.run symbol requests).lowering = (.error err, t)) :
    let s := (Session.run symbol requests).lowering
    s.Extends t ∧ t.registry.WellFormed ∧ t.registry.lookup e.id = none ∧
    (∃ b, e.blames.head? = some b ∧ b.error = err ∧
      ∀ y, Expr.Among (e :: others ++ Session.exprs requests) y → b.blamed ∈ lowering.postorder y →
        t.registry.lookup y.id = none) ∧
    (∀ y, Expr.Among (e :: others ++ Session.exprs requests) y → t.registry.lookup y.id ≠ none →
      ∀ x ∈ y.inputs, t.registry.lookup x.id ≠ none) ∧
    (∃ u, visit e t = (.error err, u) ∧ t.SameGraph u) ∧
    ∀ err', e.Rejected err' → s.SameGraph t := by
  intro s
  have hrequests : ∀ x, Expr.Among (Session.exprs requests) x →
      Expr.Among (e :: others ++ Session.exprs requests) x := fun x hx =>
    hx.mono (List.subset_append_right _ _)
  have he : ∀ x, e.Reaches x → Expr.Among (e :: others ++ Session.exprs requests) x := fun x hx =>
    .of_mem List.mem_cons_self hx
  have hs : Sound _ s := (sound_run hids symbol hrequests).1
  have hwell : s.registry.WellFormed :=
    Session.invariant_run (P := fun s => s.registry.WellFormed) symbol Registry.wellFormed_empty
      (fun e s hs => (orderly_visit e s hs).wellFormed) requests
  have hout := visit_outcome hids e s hs he
  have hext := extends_visit e s
  have hgood := (orderly_visit e s hwell).wellFormed
  have hagain := (repeats_visit hids e he).failed s err t hs h t (.refl t)
  have hrejected := fun err' (hr : e.Rejected err') (hold : s.registry.lookup e.id = none) =>
    sameGraph_of_rejected hr hold
  obtain ⟨es, hes, hamong, -⟩ := exists_emitted_run hids symbol hrequests
  obtain ⟨ds, hds, hknown, -⟩ := exists_emitted_visit hids he hes hamong
  rw [h] at hout hext hgood hds hrejected
  have htree : e.tree = .error err := (hout.agrees.error_iff err).2 rfl
  have hnew : t.registry.lookup e.id = none :=
    lookup_of_failed hids (he e (.refl e)) hout.sound htree
  have hold : s.registry.lookup e.id = none := by
    rw [Option.eq_none_iff_forall_ne_some] at hnew ⊢
    exact fun entries hentries => hnew entries (hext.lookup e.id entries hentries)
  have hexplains := e.explains_blames
  rw [htree] at hexplains
  obtain ⟨b, rest, hblames, hb⟩ := hexplains.exists_cons
  have hfault : b.error ∈ b.blamed.faults :=
    (Expr.mem_blames_iff_faults.1 (hblames ▸ List.mem_cons_self)).2
  refine ⟨hext, hgood, hnew, ⟨b, by rw [hblames]; rfl, hb, fun y hy hmem => ?_⟩,
    fun y hy hy' x hx => lookup_inputs hids hds hknown hy hy' hx, hagain,
    fun err' hr => hrejected err' hr hold⟩
  -- something is wrong with whatever is lowered over what is to blame
  obtain ⟨err', hy'⟩ := Expr.exists_error_of_mem_blames
    (Expr.mem_blames_iff_faults.2 ⟨hmem, hfault⟩)
  exact lookup_of_failed hids hy hout.sound hy'

namespace WrongLayout

/-- The first term of the sum is lowered before the second one fails. -/
theorem visit_sum_retry :
    Expr.Unambiguous (Expr.Among (sum :: Session.exprs [.visit data])) ∧
      ∃ t, visit sum (Session.run "main" [.visit data]).lowering =
          (.error (.violation .convolution (.kernelLayout "HWIO")), t) ∧
        t.registry.lookup 5 = none ∧ t.registry.lookup 9 = none ∧
        ∃ u, visit sum t = (.error (.violation .convolution (.kernelLayout "HWIO")), u) ∧
          t.SameGraph u := by
  have hids : Expr.Unambiguous (Expr.Among (sum :: Session.exprs [.visit data])) :=
    unambiguous (by simp [nodes, Session.exprs, Request.exprs])
  have hs : Sound (Expr.Among (sum :: Session.exprs [.visit data])) _ :=
    (sound_run hids "main" fun x hx => hx.mono (List.subset_cons_self _ _)).1
  have hfst : (visit sum (Session.run "main" [.visit data]).lowering).1 =
      .error (.violation .convolution (.kernelLayout "HWIO")) := by
    rw [explains_visit hids hs (fun x hx => .of_mem List.mem_cons_self hx), head?_blames_sum]
    rfl
  have hsplit : visit sum (Session.run "main" [.visit data]).lowering =
      (.error (.violation .convolution (.kernelLayout "HWIO")), _) := Prod.ext hfst rfl
  obtain ⟨-, -, hsum, ⟨b, hb, -, hblamed⟩, -, hagain, -⟩ :=
    visit_retry "main" [.visit data] sum [] hids _ _ hsplit
  obtain rfl : ⟨inner, _⟩ = b := Option.some.inj (head?_blames_sum.symm.trans hb)
  have hinner : Expr.Among (sum :: Session.exprs [.visit data]) inner :=
    ⟨sum, List.mem_cons_self, .step (a := outer) (by simp [Expr.children, sum])
      (.step (by simp [Expr.children, outer]) (.refl _))⟩
  exact ⟨hids, _, hsplit, hblamed inner hinner (mem_postorder_self _ _), hsum, hagain⟩

end WrongLayout

end KernelGraph
