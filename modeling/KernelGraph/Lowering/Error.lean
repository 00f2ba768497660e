import KernelGraph.Expression.Basic
import KernelGraph.Fusion.Kind

/-!
Why an expression cannot be lowered, and the wording of each reason.
-/

namespace KernelGraph

/-- The attribute of a pad that holds what is added before and after, one row for each axis. -/
def padWidthName : String := "pad_width"

/-- The only layouts that can be lowered. -/
def dataLayout : String := "NCHW"

def kernelLayout : String := "OIHW"

/-- What stands in the body of a fused function where something else is expected. -/
inductive Link where
  | anyCall
  | call (description : String)
  | either (a b : Operator)
  | node (typeKey : String)
  | body (kind : FusedKind)
  | nothing
deriving DecidableEq

def Link.description : Link → String
  | anyCall => "a call body"
  | call description => description
  | either a b => s!"{a.name} or {b.name}"
  | node typeKey => typeKey
  | body kind => s!"a {kind.name} body"
  | nothing => "no call"

/-- What a call of a fused body lacks, although it is the right call. -/
inductive Violation where
  | missingOperand (call : String) (count : Nat) (role : Role) (position : Nat)
  | layoutKind (attr kindName : String)
  | kernelLayout (layout : String)
  | dataLayout (layout : String)
  | poolLayout (layout : String)
  | noPadWidth
  | padWidth (rows : List (List Int64))
deriving DecidableEq

def Violation.message : Violation → String
  | missingOperand call count role position =>
    s!"{call} has {count} arguments, missing {role.name} at position {position}"
  | layoutKind attr kindName => s!"{attr} must be a string, got {kindName}"
  | kernelLayout layout =>
    s!"kernel layout must be {KernelGraph.kernelLayout}, got {layout}; has the module been pre-processed correctly?"
  | dataLayout layout =>
    s!"input data layout must be {KernelGraph.dataLayout}, got {layout}; has the module been pre-processed correctly?"
  | poolLayout layout => s!"pool layout must be {KernelGraph.dataLayout}, got {layout}"
  | noPadWidth => s!"pad call has no integer {padWidthName}"
  | padWidth rows =>
    let text := bracketed (rows.map fun row => bracketed (row.map AttrValue.decimal))
    s!"{padWidthName} must be 4 rows of (before, after), got {text}"

inductive LoweringError where
  /-- What is called is neither an operator nor a function. -/
  | unsupportedTarget (description : String)
  /-- A function is called that stands for no fused operation. -/
  | notComposite
  | unknownComposite (name : String)
  /-- The body of a fused function is not what its name declares. -/
  | mismatch (family : Family) (expected found : Link)
  | violation (family : Family) (v : Violation)
  /-- A function has no name for the outside, and none was given. -/
  | missingSymbol
  | noOutputs (typeKey : String)
deriving DecidableEq

def LoweringError.message : LoweringError → String
  | unsupportedTarget description => s!"unsupported call target: {description}"
  | notComposite =>
    s!"only composite functions are supported, function has no {compositeName} attribute"
  | unknownComposite name => s!"unrecognized composite pattern: {name}"
  | mismatch family expected found =>
    s!"{family.name} composite: expected {expected.description}, found {found.description}"
  | violation family v => s!"{family.name} composite: {v.message}"
  | missingSymbol => s!"function has no {symbolName} attribute and no symbol was supplied"
  | noOutputs typeKey => s!"{typeKey} produced no outputs"

end KernelGraph
