import KernelGraph.Lowering.Compiled
import KernelGraph.Proofs.Lockstep

/-!
The name of a graph. Lowering uses it for nothing but the names of constants, so the graph of a
function under one name is its graph under another, with the constants named anew
(`Graph.renamed`). What a function declares as its own name, and what it is given for want of one,
are therefore the same to it.
-/

namespace KernelGraph

open Lowering

/-- Names the constants among some nodes by their numbers, from `k` on. -/
def renumber (symbol : String) : Nat → List Node → List Node
  | _, [] => []
  | k, n :: nodes =>
    if n.op = .const then { n with name := constantName symbol k } :: renumber symbol (k + 1) nodes
    else n :: renumber symbol k nodes

/-- Names constants by their numbers. -/
def renumberTable (symbol : String) (params : List (String × Tensor)) : List (String × Tensor) :=
  (params.map (·.2)).mapIdx fun k value => (constantName symbol k, value)

/-- The graph under another name: its symbol is another, and so are the names of its constants. -/
def Graph.renamed (g : Graph) (symbol : String) : Graph :=
  ⟨symbol, renumber symbol 0 g.nodes, g.argNodes, g.heads, renumberTable symbol g.params⟩

/-- An input that is named like a constant keeps its name. -/
example : Graph.renamed
    ⟨"main", [.input "main_const_0" none, .constant "main_const_0" (.ofInt32 1)], [0, 1],
      [⟨1, 0, 0⟩], [("main_const_0", .ofInt32 1)]⟩ "other" =
    ⟨"other", [.input "main_const_0" none, .constant "other_const_0" (.ofInt32 1)], [0, 1],
      [⟨1, 0, 0⟩], [("other_const_0", .ofInt32 1)]⟩ := by
  decide

theorem renumber_append (symbol : String) (k : Nat) (ms ns : List Node) :
    renumber symbol k (ms ++ ns) =
      renumber symbol k ms ++ renumber symbol (k + ms.countP (·.op = .const)) ns := by
  induction ms generalizing k with
  | nil => rfl
  | cons m ms ih =>
      rw [List.cons_append, renumber, renumber]
      by_cases hop : m.op = .const
      · rw [if_pos hop, if_pos hop, ih, List.countP_cons_of_pos (by simpa using hop),
          List.cons_append, Nat.add_right_comm, Nat.add_assoc]
      · rw [if_neg hop, if_neg hop, ih, List.countP_cons_of_neg (by simpa using hop),
          List.cons_append]

/-- Nodes that differ in the names of constants only are named anew alike. -/
theorem renumber_of_alike {symbol symbol' : String} {ms ns : List Node}
    (h : List.Forall₂ (Node.Alike Eq symbol symbol') ms ns) (name : String) (k : Nat) :
    renumber name k ms = renumber name k ns := by
  induction h generalizing k with
  | nil => rfl
  | cons hnode _ ih =>
      cases hnode with
      | input => exact congrArg (List.cons _) (ih k)
      | constant => exact congrArg (List.cons _) (ih (k + 1))
      | kernel _ _ _ hattrs =>
          subst hattrs
          exact congrArg (List.cons _) (ih k)

theorem renumberTable_of_alike {symbol symbol' : String} {ps qs : List (String × Tensor)}
    (h : List.Forall₂ (ConstantAlike symbol symbol') ps qs) (name : String) :
    renumberTable name ps = renumberTable name qs := by
  have hvalues : ps.map (·.2) = qs.map (·.2) := by
    rw [← List.forall₂_eq_eq_eq, List.forall₂_map_left_iff, List.forall₂_map_right_iff]
    exact h.imp fun p q hpq => hpq.choose_spec.2.2.symm
  rw [renumberTable, renumberTable, hvalues]

/-- The constants of a graph that is being built are named by their numbers. -/
structure Numbered (s : Lowering) : Prop where
  nodes : renumber s.symbol 0 s.registry.nodes = s.registry.nodes
  count : s.registry.nodes.countP (·.op = .const) = s.registry.params.length
  params : renumberTable s.symbol s.registry.params = s.registry.params

namespace Numbered

theorem start (symbol : String) : Numbered (.start symbol) := ⟨rfl, rfl, rfl⟩

theorem note {s : Lowering} (h : Numbered s) (e : Event) : Numbered (s.note e) :=
  ⟨h.nodes, h.count, h.params⟩

theorem add {s : Lowering} (h : Numbered s) (id : Nat) {node : Node} (hop : node.op ≠ .const) :
    Numbered (Lowering.add id node s).2 := by
  refine ⟨?_, ?_, h.params⟩
  · show renumber s.symbol 0 (s.registry.nodes ++ [node]) = s.registry.nodes ++ [node]
    rw [renumber_append, h.nodes, renumber, if_neg hop, renumber]
  · show (s.registry.nodes ++ [node]).countP _ = _
    rw [List.countP_append, h.count, List.countP_cons_of_neg (by simpa using hop)]
    rfl

theorem addConstant {s : Lowering} (h : Numbered s) (id : Nat) (value : Tensor) :
    Numbered (Lowering.addConstant id value s).2 := by
  rw [addConstant_eq]
  refine ⟨?_, ?_, ?_⟩
  · show renumber s.symbol 0 (s.registry.nodes ++ [_]) = s.registry.nodes ++ [_]
    rw [renumber_append, h.nodes, h.count, Nat.zero_add]
    rfl
  · show (s.registry.nodes ++ [_]).countP _ = (s.registry.params ++ [_]).length
    rw [List.countP_append, h.count, List.length_append]
    rfl
  · show renumberTable s.symbol (s.registry.params ++ [_]) = s.registry.params ++ [_]
    rw [renumberTable, List.map_append, List.mapIdx_append, ← renumberTable, h.params]
    simp

/-- Serialization keeps it, since every visit does. -/
theorem serialize {s : Lowering} (h : Numbered s) (F : Function) :
    Numbered (Lowering.serialize F s).2 := by
  have hvisit : ∀ e s, Numbered s → Numbered (visit e s).2 :=
    rel_visit_constants (R := fun s t => Numbered s → Numbered t) (fun _ hs => hs)
      (fun _ _ _ hst htu hs => htu (hst hs)) (fun _ e _ hs => hs.note e)
      (fun _ id value _ hs => hs.addConstant id value)
      (fun _ _ id _ hst _ hop _ hs => (hst hs).add id hop)
  exact rel_serialize (R := fun s t => Numbered s → Numbered t) (fun _ hs => hs)
    (fun _ _ _ hst htu hs => htu (hst hs)) hvisit F s h

end Numbered

/-- A graph whose constants are named by their numbers is what it is alike to, under its own name.
-/
theorem Graph.Alike.renamed {g g' : Graph} (h : Graph.Alike Eq g g')
    (hnodes : renumber g'.symbol 0 g'.nodes = g'.nodes)
    (hparams : renumberTable g'.symbol g'.params = g'.params) : g' = g.renamed g'.symbol := by
  have hnodes' := renumber_of_alike h.nodes g'.symbol 0
  have hparams' := renumberTable_of_alike h.params g'.symbol
  rw [hnodes] at hnodes'
  rw [hparams] at hparams'
  rw [Graph.renamed, hnodes', hparams', ← h.argNodes, ← h.heads]

namespace Lowering

/-- A function is lowered under any name as it is under another. -/
theorem serialize_start (F : Function) (s t : String) :
    (serialize F (.start t)).1 = (serialize F (.start s)).1.map (·.renamed t) := by
  have hstart : Mirrors (fun _ => True) Eq (fun id => id) (.start s) (.start t) :=
    Mirrors.start s t
  have hsame := serialize_mirrored unnoticed_eq (fun _ _ _ _ h => h) (g := fun as => as)
    (fun _ _ _ _ => rfl) (fun _ _ _ _ => rfl) (F := F) (fun _ _ => trivial) hstart
  have hagrees := hsame.agrees
  have hnumbered := (Numbered.start t).serialize F
  rw [F.map_self] at hagrees
  generalize serialize F (.start s) = out at hagrees ⊢
  rcases hout : serialize F (.start t) with ⟨result, u⟩
  rw [hout] at hagrees hnumbered
  obtain ⟨result', v⟩ := out
  cases hagrees with
  | error err => rfl
  | @ok g g' halike =>
      obtain ⟨-, -, heads, -, -, rfl⟩ := serialize_eq_ok_iff.1 hout
      have hsymbol : u.symbol = t := (extends_serialize hout).symbol
      have heq := halike.renamed hnumbered.nodes hnumbered.params
      rw [heq]
      exact congrArg (fun name => Except.ok (g.renamed name)) hsymbol

end Lowering

/-- Of its attributes a function is compiled by its symbol alone. -/
theorem compile_eq_of_symbol? (id id' : Nat) (params : List Expr) (body : Expr)
    {attrs attrs' : Attributes} {fallback fallback' : Option String}
    (h : Function.symbol? ⟨params, body, attrs'⟩ fallback' =
      Function.symbol? ⟨params, body, attrs⟩ fallback) :
    compile (.function id' params body attrs') fallback' =
      compile (.function id params body attrs) fallback := by
  rw [compile, compile]
  dsimp only [Expr.function?]
  rw [h]
  rfl

/-- The name of a graph shows in its symbol and in the names of its constants, which are numbered in
order, and nowhere else: under two names a function is lowered to one graph but for these, or it
fails for one reason. So the name that is given to a function without one has the same effect as if
the function had it, and has none if the function has its own. -/
theorem serialize_parametric (F : Function) (s t : String) :
    (serialize F (.start t)).1 = (serialize F (.start s)).1.map (·.renamed t) ∧
    (∀ g, (serialize F (.start s)).1 = .ok g → g.renamed s = g) ∧
    (∀ id id', (∀ text, F.attrs.get? "global_symbol" ≠ some (.text text)) →
      compile (.function id F.params F.body F.attrs) (some t) =
        compile (.function id' F.params F.body (F.attrs.set "global_symbol" (.text t))) none) ∧
    ∀ id text fallback, F.attrs.get? "global_symbol" = some (.text text) →
      compile (.function id F.params F.body F.attrs) fallback =
        compile (.function id F.params F.body F.attrs) none := by
  refine ⟨serialize_start F s t, fun g hg => ?_, fun id id' hnone => ?_,
    fun id text fallback htext => ?_⟩
  · have hself := serialize_start F s s
    rw [hg] at hself
    exact (Except.ok.inj hself).symm
  · have hset : (F.attrs.set "global_symbol" (.text t)).getText? "global_symbol" = some t :=
      Attributes.getText?_eq_some_iff.2 (by rw [Attributes.get?_set, if_pos rfl])
    refine compile_eq_of_symbol? id' id F.params F.body ?_
    rw [Function.symbol?, Function.symbol?, symbolName, hset,
      Attributes.getText?_eq_none_iff.2 hnone]
    rfl
  · refine compile_eq_of_symbol? id id F.params F.body ?_
    rw [Function.symbol?, Function.symbol?, symbolName, Attributes.getText?_eq_some_iff.2 htext]
    rfl

namespace Sigmoids

/-- Both calls compile to the same whether their function has the name or is given it, and another
name that is given makes no difference. -/
theorem compile_named :
    compile (.function 10 [data] outer .empty) (some "main") =
        compile (.globalFunction 11 "main" [data] outer) none ∧
      compile (.globalFunction 10 "main" [data] outer) (some "other") =
        compile (.globalFunction 10 "main" [data] outer) none := by
  have hnone : ∀ text, Attributes.empty.get? "global_symbol" ≠ some (.text text) := by
    rintro text ⟨⟩
  have hgiven := (serialize_parametric ⟨[data], outer, .empty⟩ "main" "main").2.2.1 10 11 hnone
  have hown := (serialize_parametric ⟨[data], outer, Attributes.empty.set symbolName (.text "main")⟩
    "main" "other").2.2.2 10 "main" (some "other") rfl
  exact ⟨hgiven, hown⟩

end Sigmoids

end KernelGraph
