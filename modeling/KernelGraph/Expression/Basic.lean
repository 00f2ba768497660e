import KernelGraph.Attribute.Basic
import KernelGraph.Operator

/-!
Expressions: variables, constants, calls and functions.

Every node carries an identity. Two nodes with one identity are the same node, reached in two ways;
an expression is a graph in which what is shared is written out wherever it is used. Nothing here
depends on how identities are chosen.
-/

namespace KernelGraph

inductive Expr where
  | var (id : Nat) (name : String) (type : Option TensorType)
  | constant (id : Nat) (value : Tensor)
  | opCall (id : Nat) (op : String) (args : List Expr) (attrs : Attributes)
  | exprCall (id : Nat) (callee : Expr) (args : List Expr) (attrs : Attributes)
  | function (id : Nat) (params : List Expr) (body : Expr) (attrs : Attributes)
deriving Inhabited

/-- What a call calls: an operator by its name, or an expression, which should be a function. -/
inductive Callee where
  | op (name : String)
  | expr (callee : Expr)

/-- A call without its identity. -/
structure Call where
  callee : Callee
  args : List Expr
  attrs : Attributes

/-- A function without its identity. -/
structure Function where
  params : List Expr
  body : Expr
  attrs : Attributes

/-- The attribute that names the fused operation which a function stands for. -/
def compositeName : String := "Composite"

/-- The attribute that names a function for the outside. -/
def symbolName : String := "global_symbol"

namespace Expr

def id : Expr → Nat
  | var id .. | constant id .. | opCall id .. | exprCall id .. | function id .. => id

/-- The kind of a node, as messages name it. -/
def typeKey : Expr → String
  | var .. => "Var"
  | constant .. => "Constant"
  | opCall .. | exprCall .. => "Call"
  | function .. => "Function"

def isVar : Expr → Bool
  | var .. => true
  | _ => false

def call? : Expr → Option Call
  | opCall _ op args attrs => some ⟨.op op, args, attrs⟩
  | exprCall _ callee args attrs => some ⟨.expr callee, args, attrs⟩
  | _ => none

def function? : Expr → Option Function
  | function _ params body attrs => some ⟨params, body, attrs⟩
  | _ => none

/-- A function that stands for the fused operation `name`. -/
def composite (id : Nat) (name : String) (params : List Expr) (body : Expr) : Expr :=
  function id params body (Attributes.empty.set compositeName (.text name))

/-- A function that the outside knows as `symbol`. -/
def globalFunction (id : Nat) (symbol : String) (params : List Expr) (body : Expr) : Expr :=
  function id params body (Attributes.empty.set symbolName (.text symbol))

mutual

/-- The number of nodes, with those that are shared counted wherever they are used. -/
def size : Expr → Nat
  | var .. | constant .. => 1
  | opCall _ _ args _ => sizes args + 1
  | exprCall _ callee args _ => callee.size + sizes args + 1
  | function _ params body _ => sizes params + body.size + 1

def sizes : List Expr → Nat
  | [] => 0
  | e :: es => e.size + sizes es

end

theorem size_le_sizes {e : Expr} {es : List Expr} (h : e ∈ es) : e.size ≤ sizes es := by
  induction es with
  | nil => cases h
  | cons a es ih =>
    rw [sizes]
    rcases List.mem_cons.1 h with rfl | h
    · omega
    · have := ih h
      omega

end Expr

namespace Callee

/-- The operator's name, or the kind of the expression that is called. -/
def description : Callee → String
  | op name => name
  | expr callee => s!"call to {callee.typeKey}"

end Callee

namespace Call

def opName? (c : Call) : Option String :=
  match c.callee with
  | .op name => some name
  | .expr _ => none

/-- Whether the call is one of the operator `op`. -/
def isOp (c : Call) (op : Operator) : Bool := c.opName? = some op.name

/-- The function that is called, if it is one. -/
def function? (c : Call) : Option Function :=
  match c.callee with
  | .op _ => none
  | .expr callee => callee.function?

def arg? (c : Call) (i : Nat) : Option Expr := c.args[i]?

/-- The call whose value is argument 0. -/
def parent? (c : Call) : Option Call := c.args.head?.bind Expr.call?

def description (c : Call) : String := c.callee.description

/-- The size of the call as an expression. -/
def size (c : Call) : Nat :=
  match c.callee with
  | .op _ => Expr.sizes c.args + 1
  | .expr callee => callee.size + Expr.sizes c.args + 1

theorem size_lt_of_mem_args {c : Call} {e : Expr} (h : e ∈ c.args) : e.size < c.size := by
  have := Expr.size_le_sizes h
  unfold size
  split <;> omega

theorem size_lt_of_arg? {c : Call} {i : Nat} {e : Expr} (h : c.arg? i = some e) :
    e.size < c.size :=
  size_lt_of_mem_args (List.mem_of_getElem? h)

end Call

theorem Expr.size_of_function? {e : Expr} {f : Function} (h : e.function? = some f) :
    f.body.size < e.size := by
  cases e <;> simp_all [Expr.function?]
  subst h
  simp only [Expr.size]
  omega

theorem Call.body_size_lt {c : Call} {f : Function} (h : c.function? = some f) :
    f.body.size < c.size := by
  unfold Call.function? at h
  unfold Call.size
  split at h
  · simp at h
  · rename_i callee heq
    have := Expr.size_of_function? h
    omega

/-- The calls from this one on towards its input, each the value of the last one's argument 0. -/
def Expr.chain : Expr → List Call
  | .opCall _ op (a :: args) attrs => ⟨.op op, a :: args, attrs⟩ :: a.chain
  | .opCall _ op [] attrs => [⟨.op op, [], attrs⟩]
  | .exprCall _ callee (a :: args) attrs => ⟨.expr callee, a :: args, attrs⟩ :: a.chain
  | .exprCall _ callee [] attrs => [⟨.expr callee, [], attrs⟩]
  | _ => []

/-- The chain of a call is the call and the chain of its argument 0. -/
theorem Expr.chain_of_call? {e : Expr} {c : Call} (h : e.call? = some c) :
    e.chain = c :: (c.arg? 0).elim [] Expr.chain := by
  cases e with
  | var | constant | function => cases h
  | opCall id op args attrs =>
    cases h
    cases args <;> rfl
  | exprCall id callee args attrs =>
    cases h
    cases args <;> rfl

theorem Expr.chain_of_call?_eq_none {e : Expr} (h : e.call? = none) : e.chain = [] := by
  cases e with
  | var | constant | function => rfl
  | opCall | exprCall => cases h

/-- A chain begins with the expression itself, if that is a call. -/
theorem Expr.head?_chain (e : Expr) : e.chain.head? = e.call? := by
  cases h : e.call? with
  | none => rw [Expr.chain_of_call?_eq_none h, List.head?_nil]
  | some c => rw [Expr.chain_of_call? h, List.head?_cons]

/-- No call of a chain is larger than the expression it starts from. -/
theorem Expr.size_le_of_mem_chain {e : Expr} {c : Call} (h : c ∈ e.chain) : c.size ≤ e.size := by
  fun_induction Expr.chain e with
  | case1 id op a args attrs ih =>
    rcases List.mem_cons.1 h with rfl | h
    · simp [Call.size, Expr.size]
    · have := ih h
      simp only [Expr.size, Expr.sizes]
      omega
  | case2 => simp_all [Call.size, Expr.size]
  | case3 id callee a args attrs ih =>
    rcases List.mem_cons.1 h with rfl | h
    · simp [Call.size, Expr.size]
    · have := ih h
      simp only [Expr.size, Expr.sizes]
      omega
  | case4 => simp_all [Call.size, Expr.size]
  | case5 => simp at h

end KernelGraph
