import KernelGraph.Proofs.Growth
import Mathlib.Data.List.Induction

/-!
Sessions: any number of requests to one graph that is being built, each of which may fail. A graph
can be reached if some session leads to it.
-/

namespace KernelGraph

inductive Request where
  | visit (e : Expr)
  | visitFirst (e : Expr)
  | lower (family : Family) (root : Call)

namespace Request

/-- The expressions that a request is about. -/
def exprs : Request → List Expr
  | visit e | visitFirst e => [e]
  | lower _ root => root.exprs

/-- The entries that a request gives out, which are none if it fails, and the graph it leaves. A
kernel that is built gives out what it takes. -/
def answer (s : Lowering) : Request → List Entry × Lowering
  | visit e => ((Lowering.visit e s).1.toOption.getD [], (Lowering.visit e s).2)
  | visitFirst e => ((Lowering.visitFirst e s).1.toOption.toList, (Lowering.visitFirst e s).2)
  | lower family root =>
    (((Lowering.lower family root s).1.toOption.map Node.inputs).getD [],
      (Lowering.lower family root s).2)

/-- A request relates its ends as all visits do. -/
theorem rel_answer {R : Lowering → Lowering → Prop} (hrefl : ∀ s, R s s)
    (htrans : ∀ s t u, R s t → R t u → R s u) (hvisit : ∀ e s, R s (Lowering.visit e s).2)
    (s : Lowering) (r : Request) : R s (r.answer s).2 := by
  cases r with
  | visit e => exact hvisit e s
  | visitFirst e =>
      show R s (Lowering.visitFirst e s).2
      rw [Lowering.visitFirst_snd]
      exact hvisit e s
  | lower family root =>
      show R s (Lowering.lower family root s).2
      unfold Lowering.lower
      split
      · exact hrefl s
      · exact Lowering.rel_ofPattern hrefl htrans (fun _ _ x _ => hvisit x) s

theorem extends_answer (s : Lowering) (r : Request) : s.Extends (r.answer s).2 :=
  rel_answer Lowering.Extends.refl (fun _ _ _ => Lowering.Extends.trans) Lowering.extends_visit s r

end Request

/-- A graph that is being built, with the entries that were given out so far. -/
structure Session where
  lowering : Lowering
  given : List Entry

namespace Session

def next (s : Session) (r : Request) : Session :=
  ⟨(r.answer s.lowering).2, s.given ++ (r.answer s.lowering).1⟩

/-- The session that begins a graph under a name and makes some requests. -/
def run (symbol : String) (requests : List Request) : Session :=
  requests.foldl next ⟨.start symbol, []⟩

/-- The expressions that requests are about. -/
def exprs (requests : List Request) : List Expr := requests.flatMap Request.exprs

theorem exprs_append (earlier later : List Request) :
    exprs (earlier ++ later) = exprs earlier ++ exprs later := List.flatMap_append

theorem exprs_singleton (r : Request) : exprs [r] = r.exprs := List.flatMap_singleton _ r

theorem run_concat (symbol : String) (requests : List Request) (r : Request) :
    run symbol (requests ++ [r]) = (run symbol requests).next r := by
  simp [run]

/-- What visits keep holds of every graph that a session leads to, if it holds of a new one. -/
theorem invariant_run {P : Lowering → Prop} (symbol : String) (hstart : P (.start symbol))
    (hvisit : ∀ e s, P s → P (Lowering.visit e s).2) (requests : List Request) :
    P (run symbol requests).lowering := by
  induction requests using List.reverseRecOn with
  | nil => exact hstart
  | append_singleton requests r ih =>
      rw [run_concat]
      exact Request.rel_answer (R := fun s t => P s → P t) (fun _ h => h)
        (fun _ _ _ hst htu h => htu (hst h)) hvisit _ r ih

/-- A session goes on from where its first requests led. -/
theorem extends_run (symbol : String) (earlier later : List Request) :
    (run symbol earlier).lowering.Extends (run symbol (earlier ++ later)).lowering := by
  induction later using List.reverseRecOn with
  | nil =>
      rw [List.append_nil]
      exact .refl _
  | append_singleton later r ih =>
      rw [← List.append_assoc, run_concat]
      exact ih.trans (Request.extends_answer _ r)

end Session

end KernelGraph
