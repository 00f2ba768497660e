/-!
The arguments of the command line: the document's file, and options that may stand anywhere. An
option's value is the next argument, or follows the option after an equals sign.
-/

namespace KernelGraph

/-- What the command is asked to do. -/
structure Invocation where
  input : String
  symbol : Option String
  output : Option String
  params : Option String
  pretty : Bool
deriving DecidableEq

namespace Invocation

/-- The arguments read so far. -/
structure Slots where
  input : Option String := none
  symbol : Option String := none
  output : Option String := none
  params : Option String := none
  pretty : Bool := false

/-- The options that take a value. -/
inductive Key where
  | symbol
  | output
  | params

namespace Slots

/-- A slot with its value, unless it has one already. -/
def once? (slot : Option String) (value : String) : Option String :=
  if slot.isSome then none else some value

/-- A slot with a path, which is not empty. -/
def path? (slot : Option String) (value : String) : Option String :=
  if value.isEmpty then none else once? slot value

/-- The slots with one more value. -/
def fill? (slots : Slots) (value : String) : Key → Option Slots
  | .symbol => do some { slots with symbol := ← once? slots.symbol value }
  | .output => do some { slots with output := ← path? slots.output value }
  | .params => do some { slots with params := ← path? slots.params value }

/-- The slots with the document's file. -/
def fillInput? (slots : Slots) (value : String) : Option Slots := do
  some { slots with input := ← path? slots.input value }

end Slots

/-- An argument, split into an option and the value that is part of it, if it is one with a value. -/
def splitOption? (arg : String) : Option (Key × Option String) :=
  let long (name : String) (key : Key) : Option (Key × Option String) :=
    if arg = name then some (key, none)
    else if (name ++ "=").toList.isPrefixOf arg.toList then
      some (key, some (String.ofList (arg.toList.drop (name.length + 1))))
    else none
  let short : Option (Key × Option String) :=
    match arg.toList with
    | ['-', 'o'] => some (.output, none)
    | '-' :: 'o' :: '=' :: value => some (.output, some (String.ofList value))
    | '-' :: 'o' :: value => some (.output, some (String.ofList value))
    | _ => none
  long "--symbol" .symbol <|> long "--output" .output <|> long "--params" .params <|> short

/-- Whether an argument has the look of an option. A lone dash has not. -/
def looksLikeOption (arg : String) : Bool := arg.toList.head? = some '-' && arg ≠ "-"

/-- Reads arguments one after the other. After a double dash there are no more options. -/
def readArgs (slots : Slots) : List String → Option Slots
  | [] => some slots
  | "--" :: args => args.foldlM Slots.fillInput? slots
  | "--pretty" :: args => if slots.pretty then none else readArgs { slots with pretty := true } args
  | arg :: args =>
    match splitOption? arg, args with
    | some (key, some value), args => do readArgs (← slots.fill? value key) args
    | some (key, none), value :: args =>
      if looksLikeOption value then none else do readArgs (← slots.fill? value key) args
    | some (_, none), [] => none
    | none, args =>
      if looksLikeOption arg then none else do readArgs (← slots.fillInput? arg) args

/-- What some arguments ask for; `none` if they do not name exactly one document, or hold an option
that is unknown, repeated or without its value. -/
def ofArgs (args : List String) : Option Invocation := do
  let slots ← readArgs {} args
  some ⟨← slots.input, slots.symbol, slots.output, slots.params, slots.pretty⟩

end Invocation

end KernelGraph
