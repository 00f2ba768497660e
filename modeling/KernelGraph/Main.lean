import KernelGraph.Command.Run

/-!
The command on a real machine.
-/

open KernelGraph

/-- The reason that the system gives for an error. -/
def reasonOf (e : IO.Error) : String :=
  match e with
  | .noFileOrDirectory _ code details | .permissionDenied _ code details
  | .alreadyExists _ code details | .inappropriateType _ code details
  | .invalidArgument _ code details | .resourceExhausted _ code details =>
    s!"{details} (os error {code})"
  | e => toString e

/-- Files, standard output and standard error. -/
def machine (level : TraceLevel) : Platform IO where
  wording _ e := e.message
  read path := do
    try return .ok (← IO.FS.readFile path)
    catch e => return .error (reasonOf e)
  write path text := do
    try
      IO.FS.writeFile path text
      return none
    catch e => return some (reasonOf e)
  print text := IO.print text
  report event := if level.shows event.severity then IO.eprintln event.line else pure ()

def usage : String :=
  "usage: kernel-graph INPUT [--symbol S] [-o|--output FILE] [--params FILE] [--pretty]"

def main (args : List String) : IO UInt32 := do
  match Invocation.ofArgs args with
  | none =>
    IO.eprintln usage
    return 2
  | some inv =>
    let level := ((← IO.getEnv "NPUGEN_TRACE").map TraceLevel.ofText).getD .off
    return exitCode (← (machine level).run inv)
