import KernelGraph.Lowering.Error

/-!
What a run reports about itself, and which of it is shown at which level.
-/

namespace KernelGraph

inductive Severity where
  | trace
  | warning
  | error
  | critical
deriving DecidableEq

def Severity.name : Severity → String
  | trace => "TRACE"
  | warning => "WARNING"
  | error => "ERROR"
  | critical => "CRITICAL"

inductive Event where
  | compiling (symbol : String) (params : Nat)
  | unrecognized (symbol op : String)
  | unknownComposite (e : LoweringError)
  | failed (kind : FusedKind) (e : LoweringError)
  | lowered (kind : FusedKind) (kernel : String) (inputs : Nat)
  | built (symbol : String) (nodes constants : Nat)
  | compiled (symbol : String)
  | critical (text : String)
deriving DecidableEq

namespace Event

def severity : Event → Severity
  | compiling .. | lowered .. | built .. | compiled .. => .trace
  | unrecognized .. => .warning
  | unknownComposite .. | failed .. => .error
  | critical .. => .critical

def message : Event → String
  | compiling symbol params => s!"compiling {symbol} ({params} params)"
  | unrecognized symbol op => s!"{symbol}: emitting unrecognized operator {op} as-is"
  | unknownComposite e => e.message
  | failed kind e => s!"failed to lower {kind.name}: {e.message}"
  | lowered kind kernel inputs =>
    s!"lowered {kind.name} ({kind.family.name}) -> {kernel} with {inputs} inputs"
  | built symbol nodes constants => s!"{symbol}: {nodes} nodes, {constants} constants"
  | compiled symbol => s!"compiled {symbol}"
  | critical text => text

/-- What is written for the event, but for the time of day in front of it and the colour of the
severity on a terminal. It is one line of the log, even if its message has line breaks. -/
def line (e : Event) : String := s!"[{e.severity.name}] -- {e.message}"

end Event

/-- How much is reported. -/
inductive TraceLevel where
  | off
  | basic
  | full
deriving DecidableEq

namespace TraceLevel

/-- The blanks that may stand around the name of a level. -/
def isBlank (c : Char) : Bool :=
  let n := c.toNat
  (9 ≤ n && n ≤ 13) || n = 0x20 || n = 0x85 || n = 0xa0 || n = 0x1680 || (0x2000 ≤ n && n ≤ 0x200a)
    || n = 0x2028 || n = 0x2029 || n = 0x202f || n = 0x205f || n = 0x3000

/-- The level of a setting: `1`, or `full` in any case, or none at all. -/
def ofText (text : String) : TraceLevel :=
  let inner := ((text.toList.dropWhile isBlank).reverse.dropWhile isBlank).reverse
  match String.ofList (inner.map Char.toLower) with
  | "1" => basic
  | "full" => full
  | _ => off

/-- Whether events of a severity are reported. A critical one always is. -/
def shows : TraceLevel → Severity → Bool
  | _, .critical => true
  | full, _ => true
  | basic, .warning => false
  | basic, _ => true
  | off, _ => false

end TraceLevel

/-- What stands on the standard error: a report, or a text that was written there as to a file. -/
inductive Notice where
  | event (e : Event)
  | text (t : String)
deriving DecidableEq

namespace Notice

/-- The text of a notice if events are reported at a level. -/
def shown (level : TraceLevel) : Notice → String
  | event e => if level.shows e.severity then e.line ++ "\n" else ""
  | text t => t

/-- The text of notices, in order. -/
def textOf (level : TraceLevel) (notices : List Notice) : String :=
  String.join (notices.map (·.shown level))

end Notice

end KernelGraph
