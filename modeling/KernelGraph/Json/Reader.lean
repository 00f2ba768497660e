import KernelGraph.Decimal.Scaling
import KernelGraph.Json.Draft
import KernelGraph.Json.Mismatch

/-!
Reading values of given kinds off a draft, in the order of its text.

A value is read in one of two passes. In the streaming pass it is read as its text goes by: what no
field takes is only looked at for its grammar, and too many items are a fault of the text. In the
buffered pass a value that was taken in as a whole before is read: its text is known to be well
formed, and too many items are a mismatch.
-/

namespace KernelGraph

open Decimal

/-- The result of reading. -/
abbrev Read := Except ReadError

/-- Fails with a mismatch. -/
def Mismatch.raise {α : Type} (m : Mismatch) : Read α := .error (.mismatch m)

/-- Fails because the text is malformed. -/
def malformed {α : Type} : Read α := .error .malformed

inductive Pass where
  | streaming
  | buffered
deriving DecidableEq

/-- The brackets a text may nest. -/
def maxDepth : Nat := 127

/-- The integers that are read as such: those of 64 bits, with or without a sign. -/
def isWord (n : Int) : Bool := Int64.minValue.toInt ≤ n && n < UInt64.size

namespace Decimal.Numeral

/-- What a numeral of a JSON text stands for. A bare integer that fits a word is itself, except that
zero with a sign is a floating-point number, as are all other numerals; none may overflow. -/
def toNumber? (n : Numeral) : Option Number :=
  if n.bare && isWord n.toInt && !(n.negative && n.digits == 0) then some (.whole n.toInt)
  else
    let x := n.toDouble
    if x.isFinite then some (.double x) else none

end Decimal.Numeral

/-- The 32-bit number of a JSON number, which is rounded once more if it has 64 bits. -/
def Number.toSingle : Number → Single
  | .whole n => .ofInt n
  | .double x => x.narrow
  | .single x => x

/-- The 64-bit number of a JSON number. -/
def Number.toDouble : Number → Double
  | .whole n => .ofInt n
  | .double x => x
  | .single x => x.widen

namespace Draft

mutual

/-- The value of a draft that is whole and nests at most `depth` brackets. -/
def toJson? (depth : Nat) : Draft → Option Json
  | .null => some .null
  | .bool b => some (.bool b)
  | .number n => n.toNumber?.map .number
  | .text t => t.map .text
  | .list items closed =>
    if closed && 0 < depth then (itemsToJson? (depth - 1) items).map .list else none
  | .record fields closed =>
    if closed && 0 < depth then (fieldsToJson? (depth - 1) fields).map .record else none
  | .broken => none

def itemsToJson? (depth : Nat) : List Draft → Option (List Json)
  | [] => some []
  | d :: ds => do
    let j ← d.toJson? depth
    let js ← itemsToJson? depth ds
    some (j :: js)

def fieldsToJson? (depth : Nat) : List (Draft × Draft) → Option (List (String × Json))
  | [] => some []
  | (name, d) :: fields => do
    let n ← match name with
      | .text t => t
      | _ => none
    let j ← d.toJson? depth
    let rest ← fieldsToJson? depth fields
    some ((n, j) :: rest)

end

/-- What stands in the text, as far as it takes to tell its kind. -/
def found : Draft → Read Found
  | .null => .ok .null
  | .bool b => .ok (.bool b)
  | .number n =>
    match n.toNumber? with
    | some x => .ok (.number x)
    | none => malformed
  | .text (some s) => .ok (.text s)
  | .list .. => .ok .list
  | .record .. => .ok .record
  | .text none | .broken => malformed

/-- Fails since something else was expected here. -/
def unfit {α : Type} (d : Draft) (expected : String) : Read α := do
  (Mismatch.type (← d.found) expected).raise

/-- The name of a field. -/
def fieldName : Draft → Read String
  | .text (some s) => .ok s
  | _ => malformed

def readText : Draft → Read String
  | .text (some s) => .ok s
  | d => d.unfit "a string"

/-- An integer from `low` to `high`, both included, of the kind `kind`. -/
def readInt (kind : String) (low high : Int) (d : Draft) : Read Int := do
  match ← d.found with
  | .number (.whole n) =>
    if low ≤ n ∧ n ≤ high then .ok n else (Mismatch.value (.number (.whole n)) kind).raise
  | other => (Mismatch.type other kind).raise

/-- A size or an index: a natural number of at most 64 bits. -/
def readSize (d : Draft) : Read Nat := Int.toNat <$> d.readInt "usize" 0 (UInt64.size - 1)

/-- A 32-bit number; any number will do. -/
def readSingle (d : Draft) : Read Single := do
  match ← d.found with
  | .number x => .ok x.toSingle
  | other => (Mismatch.type other "f32").raise

/-- Succeeds if the bracket that was read is closed. -/
def ensure (closed : Bool) : Read Unit := if closed then .ok () else malformed

/-- A list whose items `item` reads. -/
def readList {α : Type} (item : Draft → Read α) : Draft → Read (List α)
  | .list items closed => do
    let xs ← items.mapM item
    ensure closed
    .ok xs
  | d => d.unfit "a sequence"

/-- What is null or is read by `item`. -/
def readOptional {α : Type} (item : Draft → Read α) : Draft → Read (Option α)
  | .null => .ok none
  | d => some <$> item d

/-- The fields of a record, as it is named in messages, in the order in which they stand in a list;
each entry says whether the field must be there. -/
structure Fields where
  name : String
  entries : List (String × Bool)

namespace Fields

/-- The wording of what is expected instead of a list that is too short. -/
def expected (f : Fields) : String := s!"{f.name} with {elements f.entries.length}"

/-- Reads fields that stand in a list, each in its turn. -/
def readItems {σ : Type} (f : Fields) (step : σ → String → Draft → Read σ) (closed : Bool) :
    Nat → List (String × Bool) → List Draft → σ → Read σ
  | i, (field, _) :: fields, d :: ds, acc => do
    f.readItems step closed (i + 1) fields ds (← step acc field d)
  | i, (_, needed) :: fields, [], acc => do
    ensure closed
    if needed then (Mismatch.length i f.expected).raise
    else f.readItems step closed (i + 1) fields [] acc
  | _, [], _, acc => .ok acc

/-- Reads fields from the items of a list. -/
def ofItems {σ : Type} (f : Fields) (pass : Pass) (step : σ → String → Draft → Read σ) (start : σ)
    (items : List Draft) (closed : Bool) : Read σ := do
  let acc ← f.readItems step closed 0 f.entries items start
  if items.length ≤ f.entries.length then
    ensure closed
    .ok acc
  else match pass with
    | .streaming => malformed
    | .buffered =>
      (Mismatch.length items.length s!"{elements f.entries.length} in sequence").raise

/-- Reads fields that stand under their names, in the order of the text. What stands under another
name is passed over. -/
def ofFields {σ : Type} (f : Fields) (pass : Pass) (step : σ → String → Draft → Read σ) (start : σ)
    (fields : List (Draft × Draft)) : Read σ :=
  fields.foldlM (fun acc (name, d) => do
    let name ← name.fieldName
    if f.entries.any (·.1 == name) then step acc name d
    else
      ensure (pass == .buffered || d.isWellFormed)
      .ok acc) start

/-- Reads the fields of a record, which may also stand in a list. -/
def read {σ : Type} (f : Fields) (pass : Pass) (step : σ → String → Draft → Read σ) (start : σ) :
    Draft → Read σ
  | .list items closed => f.ofItems pass step start items closed
  | .record fields closed => do
    let acc ← f.ofFields pass step start fields
    ensure closed
    .ok acc
  | d => d.unfit f.name

end Fields

/-- Reads a field, which must not have been read before. -/
def fill {α : Type} (field : String) (slot : Option α) (value : Read α) : Read (Option α) :=
  match slot with
  | some _ => (Mismatch.duplicateField field).raise
  | none => some <$> value

/-- The value of a field that must be there. -/
def need {α : Type} (field : String) : Option α → Read α
  | some x => .ok x
  | none => (Mismatch.missingField field).raise

/-- The variant of a name. -/
def readName {β : Type} (variants : List (String × β)) (name : String) : Read β :=
  match variants.lookup name with
  | some v => .ok v
  | none => (Mismatch.unknownVariant name (variants.map (·.1))).raise

/-- One of several named variants: its name alone, or a record whose one field is that name and
holds what goes with it. -/
def readVariant {α β : Type} (pass : Pass) (variants : List (String × β))
    (body : β → Option Draft → Read α) (d : Draft) : Read α :=
  match pass, d with
  | _, .text (some s) => do body (← readName variants s) none
  | .buffered, .record [(name, d)] _ => do body (← readName variants (← name.fieldName)) (some d)
  | .buffered, .record .. => (Mismatch.value .record "map with a single key").raise
  | .buffered, d => d.unfit "string or map"
  | .streaming, .record ((.text (some s), d) :: rest) closed => do
    let x ← body (← readName variants s) (some d)
    ensure (closed && rest.isEmpty)
    .ok x
  | .streaming, _ => malformed

/-- What goes with a variant that is a name and no more. A buffered empty record will do too. -/
def readNothing (pass : Pass) : Option Draft → Read Unit
  | none => .ok ()
  | some .null => .ok ()
  | some d =>
    match pass, d with
    | .buffered, .record [] _ => .ok ()
    | _, _ => d.unfit "unit"

/-- What goes with a variant that holds a value. -/
def readHeld {α : Type} (item : Draft → Read α) : Option Draft → Read α
  | some d => item d
  | none => (Mismatch.type .bareVariant "newtype variant").raise

/-- Reads a whole text, after whose value nothing may stand. -/
def readWhole {α : Type} (item : Draft → Read α) (text : String) : Read α := do
  let whole := Draft.ofText text
  let x ← item whole.draft
  ensure whole.alone
  .ok x

end Draft

namespace Json

/-- The value of a text, in canonical form. -/
def read (text : String) : Read Json :=
  Draft.readWhole (fun d =>
    match d.toJson? maxDepth with
    | some j => .ok j.canonical
    | none => malformed) text

end Json

end KernelGraph
