import KernelGraph.Fusion.Kernel
import KernelGraph.Graph.Registry
import KernelGraph.Lowering.Event

/-!
Lowering expressions to the nodes of a kernel graph.

An expression is lowered once: its outputs are kept under its identity, and a node is added after
those that it takes. A call of an operator becomes a kernel of that name over all its arguments, and
a call of a fused function the one kernel that its pattern describes. A step that fails keeps what it
had added before.
-/

namespace KernelGraph

/-- A graph that is being built under a name, with what was reported so far. -/
structure Lowering where
  symbol : String
  registry : Registry
  log : List Event

/-- A step of lowering, which leaves the graph changed even if it fails. -/
abbrev Step (α : Type) := Lowering → Except LoweringError α × Lowering

/-- Runs steps one after the other until one fails. -/
def Step.all {α : Type} : List (Step α) → Step (List α)
  | [], s => (.ok [], s)
  | f :: fs, s =>
    match f s with
    | (.error e, s) => (.error e, s)
    | (.ok x, s) =>
      match Step.all fs s with
      | (.error e, s) => (.error e, s)
      | (.ok xs, s) => (.ok (x :: xs), s)

namespace Lowering

def start (symbol : String) : Lowering := ⟨symbol, .empty, []⟩

/-- Reports an event. -/
def note (s : Lowering) (e : Event) : Lowering := { s with log := s.log ++ [e] }

/-- Adds the node of an expression. -/
def add (id : Nat) (node : Node) : Step (List Entry) := fun s =>
  let (outputs, registry) := s.registry.add node id
  (.ok outputs, { s with registry })

/-- Adds the node of a constant, named by the number of constants before it. -/
def addConstant (id : Nat) (value : Tensor) : Step (List Entry) := fun s =>
  let name := s!"{s.symbol}_const_{s.registry.params.length}"
  add id (.constant name value) { s with registry := s.registry.addParam name value }

/-- The first output of an expression that was lowered, of which there must be one. -/
def firstOf (typeKey : String) : Except LoweringError (List Entry) × Lowering →
    Except LoweringError Entry × Lowering
  | (.ok (entry :: _), s) => (.ok entry, s)
  | (.ok [], s) => (.error (.noOutputs typeKey), s)
  | (.error e, s) => (.error e, s)

/-- Fails, leaving the graph as it is. -/
def fail {α : Type} (e : LoweringError) : Step α := fun s => (.error e, s)

/-- The kernel of a pattern, where `operands` are the steps that lower its operands. What the pattern
asks of layouts is looked at before, and its padding is read after. -/
def kernel (p : Pattern) (operands : List (Step Entry)) : Step Node := fun s =>
  match p.check with
  | .error v => (.error (.violation p.family v), s)
  | .ok () =>
    match Step.all operands s with
    | (.error e, s) => (.error e, s)
    | (.ok inputs, s) =>
      match p.attrs with
      | .error v => (.error (.violation p.family v), s)
      | .ok attrs => (.ok ⟨.kernel, p.kernelName, inputs, 1, attrs⟩, s)

/-- Reports a call of an operator that no fused function is made of. -/
def noteOperator (op : String) (s : Lowering) : Lowering :=
  if (Operator.ofName? op).isSome then s else s.note (.unrecognized s.symbol op)

/-- Adds the kernel of a call of an operator, over all outputs of its arguments. -/
def addCall (id : Nat) (op : String) (attrs : Attributes) :
    Except LoweringError (List (List Entry)) × Lowering → Except LoweringError (List Entry) × Lowering
  | (.error e, s) => (.error e, s)
  | (.ok inputs, s) => add id (.kernel op inputs.flatten 1 attrs) s

/-- What the function that is called declares to fuse. A name that nobody knows is reported. -/
def declaredKind (callee : Expr) : Step FusedKind := fun s =>
  match callee.function? with
  | none => fail (.unsupportedTarget callee.typeKey) s
  | some f =>
    match f.attrs.getText? compositeName with
    | none => fail .notComposite s
    | some name =>
      match FusedKind.ofName? name with
      | none =>
        let e := LoweringError.unknownComposite name
        fail e (s.note (.unknownComposite e))
      | some kind => (.ok kind, s)

/-- Adds the kernel of a fused call and reports it, or reports that there is none. -/
def addKernel (id : Nat) (kind : FusedKind) :
    Except LoweringError Node × Lowering → Except LoweringError (List Entry) × Lowering
  | (.error e, s) => (.error e, s.note (.failed kind e))
  | (.ok node, s) => add id node (s.note (.lowered kind node.name node.inputs.length))

set_option linter.unusedVariables false in
/-- The outputs of an expression, which is lowered unless it was before. -/
def visit (e : Expr) : Step (List Entry) := fun s =>
  match s.registry.lookup e.id with
  | some entries => (.ok entries, s)
  | none =>
    match e with
    | .var id name type => add id (.input name type) s
    | .constant id value => addConstant id value s
    | .function .. => fail (.unsupportedTarget e.typeKey) s
    | .opCall id op args attrs =>
      addCall id op attrs (Step.all (args.attach.map fun a => visit a.1) (noteOperator op s))
    | .exprCall id callee args attrs =>
      match declaredKind callee s with
      | (.error err, s) => (.error err, s)
      | (.ok kind, s) =>
        let root : Call := ⟨.expr callee, args, attrs⟩
        addKernel id kind <|
          match h : Pattern.ofKind kind root with
          | .error err => (.error err, s)
          | .ok p =>
            kernel p ((p.operands root).attach.map fun o s =>
              match he : o.1.expr? with
              | none => (.error (.violation p.family o.1.missing), s)
              | some x => firstOf x.typeKey (visit x s)) s
termination_by e.size
decreasing_by
  · have := Expr.size_le_sizes a.2
    simp only [Expr.size]
    omega
  · have := Pattern.size_lt_of_mem_operands (Pattern.ofCall_of_ofKind h).1 o.2 he
    simpa only [Call.size, Expr.size, root] using this

/-- The first output of an expression. -/
def visitFirst (e : Expr) : Step Entry := fun s => firstOf e.typeKey (visit e s)

/-- Lowers one operand of a pattern. -/
def visitOperand (family : Family) (o : Operand) : Step Entry := fun s =>
  match o.expr? with
  | none => (.error (.violation family o.missing), s)
  | some x => visitFirst x s

/-- The kernel of a pattern of the call `root`, over the first outputs of its operands. -/
def ofPattern (p : Pattern) (root : Call) : Step Node :=
  kernel p ((p.operands root).map (visitOperand p.family))

/-- The kernel of a call of a fused function that declares `kind`. -/
def lowerKind (kind : FusedKind) (root : Call) : Step Node := fun s =>
  match Pattern.ofKind kind root with
  | .error e => (.error e, s)
  | .ok p => ofPattern p root s

/-- The kernel of a call of a fused function, whatever name the function declares. The kernel is not
added to the graph, but its operands are. -/
def lower (family : Family) (root : Call) : Step Node := fun s =>
  match Pattern.ofCall family root with
  | .error e => (.error e, s)
  | .ok p => ofPattern p root s

/-- The graph of a function: its parameters in order, and then its body, whose outputs are the heads
of the graph. -/
def serialize (f : Function) : Step Graph := fun s =>
  match Step.all (f.params.map visit) s with
  | (.error e, s) => (.error e, s)
  | (.ok _, s) =>
    match visit f.body s with
    | (.error e, s) => (.error e, s)
    | (.ok heads, s) => (.ok (s.registry.toGraph s.symbol heads), s)

end Lowering

end KernelGraph
