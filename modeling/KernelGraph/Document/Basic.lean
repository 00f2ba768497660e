import KernelGraph.Expression.Basic

/-!
Documents: expressions as a flat list of records, in which a record names the records it is made of
by their places. What is shared is one record, and a record can only be made of earlier ones.

`Document.ofExpr` writes each node once, after what it is made of. `Document.build` reads the
records in order and gives the node of a record the record's place as its identity.
-/

namespace KernelGraph

inductive Record where
  | var (name : String) (type : Option TensorType)
  | constant (value : Tensor)
  | call (op : Option String) (callee : Option Nat) (args : List Nat) (attrs : Attributes)
  | function (params : List Nat) (body : Nat) (attrs : Attributes)
deriving DecidableEq

structure Document where
  records : List Record
  root : Nat
deriving DecidableEq

/-- Why a document is no expression. -/
inductive DocumentError where
  | reference (place child : Nat)
  | target (place : Nat)
  | parameter (place : Nat) (typeKey : String)
  | tensor (e : TensorError)
  | root (place : Nat)
deriving DecidableEq

namespace DocumentError

def message : DocumentError → String
  | reference place child => s!"node {place} references {child} which is not an earlier node"
  | target place => s!"call node {place} needs exactly one of op or callee"
  | parameter place typeKey => s!"function node {place} has a {typeKey} parameter"
  | tensor e => e.message
  | root place => s!"root index {place} out of range"

end DocumentError

namespace Record

/-- The node of an earlier record. -/
def resolve (built : List Expr) (child : Nat) : Except DocumentError Expr :=
  match built[child]? with
  | some e => .ok e
  | none => .error (.reference built.length child)

/-- Succeeds if all parameters are variables. -/
def checkParams (place : Nat) : List Expr → Except DocumentError Unit
  | [] => .ok ()
  | p :: ps => if p.isVar then checkParams place ps else .error (.parameter place p.typeKey)

/-- The node of a record that comes after those of `built`. -/
def build (built : List Expr) (r : Record) : Except DocumentError Expr :=
  let place := built.length
  match r with
  | var name type => .ok (.var place name type)
  | constant value =>
    match Tensor.make value.shape value.elements with
    | .ok t => .ok (.constant place t)
    | .error e => .error (.tensor e)
  | call (some op) none args attrs => do
    let args ← args.mapM (resolve built)
    .ok (.opCall place op args attrs)
  | call none (some callee) args attrs => do
    let callee ← resolve built callee
    let args ← args.mapM (resolve built)
    .ok (.exprCall place callee args attrs)
  | call .. => .error (.target place)
  | function params body attrs => do
    let params ← params.mapM (resolve built)
    checkParams place params
    let body ← resolve built body
    .ok (.function place params body attrs)

end Record

namespace Document

/-- The nodes of the records that come after those of `built`, with these in front. -/
def buildAll (built : List Expr) : List Record → Except DocumentError (List Expr)
  | [] => .ok built
  | r :: rs => do
    let e ← r.build built
    buildAll (built ++ [e]) rs

/-- The expression that a document stands for. -/
def build (d : Document) : Except DocumentError Expr := do
  let built ← buildAll [] d.records
  match built[d.root]? with
  | some e => .ok e
  | none => .error (.root d.root)

/-- What was written so far: the records, and the place of every node by its identity. -/
structure Writing where
  records : List Record
  places : List (Nat × Nat)

/-- Writes the record of a node. -/
def Writing.push (w : Writing) (id : Nat) (r : Record) : Nat × Writing :=
  (w.records.length, ⟨w.records ++ [r], (id, w.records.length) :: w.places⟩)

mutual

/-- Writes a node and what it is made of, unless it is written already, and tells its place. -/
def write (w : Writing) (e : Expr) : Nat × Writing :=
  match w.places.lookup e.id with
  | some place => (place, w)
  | none =>
    match e with
    | .var id name type => w.push id (.var name type)
    | .constant id value => w.push id (.constant value)
    | .opCall id op args attrs =>
      let (args, w) := writeAll w args
      w.push id (.call (some op) none args attrs)
    | .exprCall id callee args attrs =>
      let (callee, w) := write w callee
      let (args, w) := writeAll w args
      w.push id (.call none (some callee) args attrs)
    | .function id params body attrs =>
      let (params, w) := writeAll w params
      let (body, w) := write w body
      w.push id (.function params body attrs)

def writeAll (w : Writing) : List Expr → List Nat × Writing
  | [] => ([], w)
  | e :: es =>
    let (place, w) := write w e
    let (places, w) := writeAll w es
    (place :: places, w)

end

/-- The document of an expression. -/
def ofExpr (e : Expr) : Document :=
  let (root, w) := write ⟨[], []⟩ e
  ⟨w.records, root⟩

end Document

end KernelGraph
