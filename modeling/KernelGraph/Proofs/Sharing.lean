import KernelGraph.Proofs.Emission
import KernelGraph.Proofs.Lockstep

/-!
Lowering sees what is shared, and nothing else of identities. Two expressions that correspond node
by node are lowered to one graph, or cannot be lowered for one reason (`serialize_isomorphic`); an
expression that is read back from its document is lowered as it was.
-/

namespace KernelGraph

open Lowering

/-- Two expressions are the same but for identities, which correspond one to one: what is shared in
one of them is shared in the other. -/
def Expr.Isomorphic (e e' : Expr) : Prop := ∃ f, Set.BijOn f e.ids e'.ids ∧ e' = e.rename f

theorem Expr.isomorphic_rename {e : Expr} {f : Nat → Nat} (hf : Set.InjOn f e.ids) :
    e.Isomorphic (e.rename f) :=
  ⟨f, bijOn_ids hf, rfl⟩

/-- Graphs that are alike have the same constants if they have one name. -/
theorem Graph.Alike.params_eq {A : Attributes → Attributes → Prop} {g g' : Graph}
    (h : Graph.Alike A g g') (hsymbol : g'.symbol = g.symbol) : g'.params = g.params := by
  have hparams := h.params
  rw [hsymbol] at hparams
  rw [← List.forall₂_eq_eq_eq]
  refine hparams.flip.imp ?_
  rintro d c ⟨k, hc, hd, hvalue⟩
  exact Prod.ext (hd.trans hc.symm) hvalue

/-- Graphs of one name that may differ in nothing are the same. -/
theorem Graph.Alike.eq {g g' : Graph} (h : Graph.Alike Eq g g') (hsymbol : g'.symbol = g.symbol) :
    g' = g := by
  have hparams := h.params_eq hsymbol
  obtain ⟨hnodes, hargs, hheads, -⟩ := h
  rw [hsymbol] at hnodes
  have hsame : g'.nodes = g.nodes := by
    rw [← List.forall₂_eq_eq_eq]
    exact hnodes.flip.imp fun _ _ hnode => hnode.eq
  cases g
  cases g'
  simp_all

namespace Lowering

/-- A function with other identities that stay apart, and other attributes of which no notice is
taken, is lowered to a graph that is alike, or fails for the same reason. -/
theorem serialize_map {A : Attributes → Attributes → Prop} (hA : Unnoticed A) {e : Expr}
    {F : Function} (hF : e.function? = some F) {f : Nat → Nat} (hf : Set.InjOn f e.ids)
    {g : Attributes → Attributes}
    (hcalls : ∀ x, e.Reaches x → ∀ c, x.call? = some c → A c.attrs (g c.attrs))
    (hnames : ∀ x, e.Reaches x → ∀ F, x.function? = some F →
      (g F.attrs).getText? compositeName = F.attrs.getText? compositeName)
    {s t : Lowering} (h : Mirrors e.Reaches A f s t) (hsymbol : t.symbol = s.symbol) :
    Agrees (fun g g' => Graph.Alike A g g' ∧ g'.symbol = g.symbol) (serialize F s).1
      (serialize (F.map f g) t).1 := by
  have hnodes : ∀ x, Expr.Among (F.params ++ [F.body]) x → e.Reaches x := by
    rintro x ⟨a, ha, hx⟩
    rw [← Expr.children_of_function? hF] at ha
    exact .step ha hx
  have hsame := serialize_mirrored hA (Expr.id_eq_of_rename hf) hcalls hnames hnodes h
  rcases hout : serialize F s with ⟨result, u⟩
  rcases hout' : serialize (F.map f g) t with ⟨result', v⟩
  rw [hout, hout'] at hsame
  obtain ⟨hagrees, -⟩ := hsame
  cases hagrees with
  | error err => exact .error err
  | ok halike =>
      refine .ok ⟨halike, ?_⟩
      rw [symbol_of_serialize hout', symbol_of_serialize hout, hsymbol]

/-- Other identities that stay apart make no difference to what a function is lowered to. -/
theorem serialize_rename {e : Expr} {F : Function} (hF : e.function? = some F) {f : Nat → Nat}
    (hf : Set.InjOn f e.ids) (symbol : String) :
    (serialize (F.map f fun as => as) (.start symbol)).1 = (serialize F (.start symbol)).1 := by
  have hsame := serialize_map (g := fun as => as) unnoticed_eq hF hf (fun _ _ _ _ => rfl)
    (fun _ _ _ _ => rfl) (Mirrors.start symbol symbol) rfl
  generalize (serialize F (.start symbol)).1 = result at hsame ⊢
  generalize (serialize (F.map f fun as => as) (.start symbol)).1 = result' at hsame ⊢
  cases hsame with
  | error err => rfl
  | ok halike => exact congrArg Except.ok (halike.1.eq halike.2)

/-- Functions that correspond node by node are lowered to one graph, or fail for one reason. So does
a function that is written as a document and read back, if its constants and parameters are such
that it can be read. -/
theorem serialize_isomorphic {e : Expr} {F : Function} (hF : e.function? = some F)
    (symbol : String) :
    (∀ e', e.Isomorphic e' → ∃ F', e'.function? = some F' ∧
      (serialize F' (.start symbol)).1 = (serialize F (.start symbol)).1) ∧
    (Expr.Unambiguous e.Reaches → (∀ x, e.Reaches x → x.Readable) → ∃ e' F',
      (Document.ofExpr e).build = .ok e' ∧ e.Isomorphic e' ∧ e'.function? = some F' ∧
      (serialize F' (.start symbol)).1 = (serialize F (.start symbol)).1) := by
  have hfunction : ∀ f : Nat → Nat, (e.rename f).function? = some (F.map f fun as => as) := by
    intro f
    rw [Expr.rename_eq_map, Expr.function?_map, hF, Option.map_some]
  refine ⟨?_, fun hids hreadable => ?_⟩
  · rintro e' ⟨f, hf, rfl⟩
    exact ⟨_, hfunction f, serialize_rename hF hf.injOn symbol⟩
  · have hinj := Expr.injOn_placeOf hids
    exact ⟨_, _, Document.build_ofExpr hids hreadable, Expr.isomorphic_rename hinj, hfunction _,
      serialize_rename hF hinj symbol⟩

end Lowering

namespace Sigmoids

def main : Expr := .function 10 [data] outer .empty

theorem main_reaches : ∀ x, main.Reaches x → x ∈ main :: nodes := by
  intro x hx
  refine Expr.mem_of_reaches ?_ List.mem_cons_self hx
  simp [nodes, Expr.children, Expr.composite, scale, zeroPoint, param, dequantize, sigmoid,
    quantize, fused, data, inner, outer, main]

theorem main_ids : Expr.Unambiguous main.Reaches := fun x y hx hy hid =>
  have hnodup : ((main :: nodes).map Expr.id).Nodup := by decide
  List.inj_on_of_nodup_map hnodup (main_reaches x hx) (main_reaches y hy) hid

theorem main_readable : ∀ x, main.Reaches x → x.Readable := by
  have hnodes : ∀ x ∈ main :: nodes, x.Readable := by
    simp [nodes, Expr.composite, scale, zeroPoint, param, dequantize, sigmoid, quantize, fused,
      data, inner, outer, main, Expr.Readable, Expr.isVar, Tensor.make, Tensor.ofInt32,
      Shape.count?, Elements.length]
  exact fun x hx => hnodes x (main_reaches x hx)

/-- Two calls that share constants and their function give one graph under all identities, and when
they are read back. -/
theorem serialize_main_isomorphic : main.function? = some ⟨[data], outer, .empty⟩ ∧
    main.Isomorphic (main.rename (· + 7)) ∧ Expr.Unambiguous main.Reaches ∧
    (∀ x, main.Reaches x → x.Readable) ∧ ∃ g,
      (serialize ⟨[data], outer, .empty⟩ (.start "main")).1 = .ok g ∧
      (∃ F', (main.rename (· + 7)).function? = some F' ∧
        (serialize F' (.start "main")).1 = .ok g) ∧
      ∃ e' F', (Document.ofExpr main).build = .ok e' ∧ e'.function? = some F' ∧
        (serialize F' (.start "main")).1 = .ok g := by
  have hmain : main.function? = some ⟨[data], outer, .empty⟩ := rfl
  have hshift : main.Isomorphic (main.rename (· + 7)) :=
    Expr.isomorphic_rename fun i _ j _ h => Nat.add_right_cancel h
  obtain ⟨g, t, hg⟩ := serialize_isOk
  have hresult : (serialize ⟨[data], outer, .empty⟩ (.start "main")).1 = .ok g := by rw [hg]
  obtain ⟨hiso, hread⟩ := serialize_isomorphic hmain "main"
  obtain ⟨F', hF', hsame⟩ := hiso _ hshift
  obtain ⟨e', F'', hbuild, -, hF'', hagain⟩ := hread main_ids main_readable
  exact ⟨hmain, hshift, main_ids, main_readable, g, hresult, ⟨F', hF', hsame.trans hresult⟩, e',
    F'', hbuild, hF'', hagain.trans hresult⟩

end Sigmoids

end KernelGraph
