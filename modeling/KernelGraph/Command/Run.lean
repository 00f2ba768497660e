import KernelGraph.Command.Invocation
import KernelGraph.Document.Json
import KernelGraph.Lowering.Compiled

/-!
The command: it reads a document, compiles it, and writes the kernel graph and, if it is asked to, the
table of constants. The work on the texts is a function; what it is to read, write and report is left
to a platform, so that the command is the same on a real machine and on a made-up one.
-/

namespace KernelGraph

/-- Why the command fails. A fault of a JSON text is told with the text, so that its place in the text
can be told, too. -/
inductive CommandError where
  | read (path reason : String)
  | parse (path text : String) (e : ReadError)
  | document (e : DocumentError)
  | lowering (e : LoweringError)
  | reread (text : String) (e : ReadError)
  | write (path reason : String)

/-- The text of an error, where `wording` is how the reader of JSON texts words its faults. -/
def CommandError.message (wording : String → ReadError → String) : CommandError → String
  | read path reason => s!"failed to read {path}: {reason}"
  | parse path text e => s!"failed to parse {path}: {wording text e}"
  | document e => e.message
  | lowering e => e.message
  | reread text e => wording text e
  | write path reason => s!"failed to write {path}: {reason}"

/-- The texts that a successful run writes. -/
structure Output where
  graph : String
  params : String
deriving DecidableEq

/-- What an invocation makes of the text of its document, and what is reported on the way. -/
def Invocation.compileText (inv : Invocation) (text : String) :
    Except CommandError Output × List Event :=
  match Document.parse text with
  | .error e => (.error (.parse inv.input text e), [])
  | .ok document =>
    match document.build with
    | .error e => (.error (.document e), [])
    | .ok root =>
      match compile root inv.symbol with
      | (.error e, log) => (.error (.lowering e), log)
      | (.ok compiled, log) =>
        let log := log ++ [.compiled compiled.symbol]
        let params := compiled.paramsJson.toText inv.pretty
        if inv.pretty then
          match Json.read compiled.graphText with
          | .error e => (.error (.reread compiled.graphText e), log)
          | .ok graph => (.ok ⟨graph.pretty, params⟩, log)
        else (.ok ⟨compiled.graphText, params⟩, log)

/-- What a machine can do for the command. Reading gives a text or the reason why there is none, and
writing may give the reason why it failed; how a fault of a JSON text is worded is up to the machine's
reader of such texts. -/
structure Platform (m : Type → Type) where
  wording : String → ReadError → String
  read : String → m (Except String String)
  write : String → String → m (Option String)
  print : String → m Unit
  report : Event → m Unit

namespace Platform

variable {m : Type → Type} [Monad m]

/-- Reports an error and tells that the run failed. -/
def fail (p : Platform m) (e : CommandError) : m Bool := do
  p.report (.critical (e.message p.wording))
  return false

/-- Writes a file and goes on if that succeeds. -/
def writeThen (p : Platform m) (path text : String) (next : m Bool) : m Bool := do
  match ← p.write path text with
  | some reason => p.fail (.write path reason)
  | none => next

/-- Writes the table of constants, if there is a file for it. -/
def writeParams (p : Platform m) (inv : Invocation) (out : Output) : m Bool :=
  match inv.params with
  | some path => p.writeThen path out.params (return true)
  | none => return true

/-- Writes the graph to its file, or prints it on a line. -/
def writeGraph (p : Platform m) (inv : Invocation) (out : Output) : m Bool :=
  match inv.output with
  | some path => p.writeThen path out.graph (p.writeParams inv out)
  | none => do
    p.print (out.graph ++ "\n")
    p.writeParams inv out

/-- Runs the command and tells whether it succeeded. -/
def run (p : Platform m) (inv : Invocation) : m Bool := do
  match ← p.read inv.input with
  | .error reason => p.fail (.read inv.input reason)
  | .ok text =>
    let (result, log) := inv.compileText text
    log.forM p.report
    match result with
    | .error e => p.fail e
    | .ok out => p.writeGraph inv out

end Platform

/-- The status that a run ends with. -/
def exitCode (succeeded : Bool) : UInt32 := if succeeded then 0 else 1

end KernelGraph
