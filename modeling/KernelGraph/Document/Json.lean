import KernelGraph.Attribute.Json
import KernelGraph.Document.Basic

/-!
Documents in JSON text. A record is written with its kind; what it does not have is left out.

A record is taken in as a whole before its fields are read, in the order in which they were written.
On the way its kind, which may stand anywhere in it, is looked at. A record may also be written as a
list of its kind and its fields.
-/

namespace KernelGraph

namespace Record

/-- The kinds of records. -/
inductive Kind where
  | var
  | constant
  | call
  | function
deriving DecidableEq

namespace Kind

def variants : List (String × Kind) :=
  [("var", var), ("constant", constant), ("call", call), ("function", function)]

def read : Draft → Read Kind
  | .text (some s) => Draft.readName variants s
  | d => d.unfit "variant identifier"

end Kind

/-- A field that is written only if it is there. -/
def optionalField {α : Type} (name : String) (value : α → Json) : Option α → List (String × Json)
  | some x => [(name, value x)]
  | none => []

def attrsField (attrs : Attributes) : List (String × Json) :=
  if attrs.isEmpty then [] else [("attrs", attrs.toJson)]

def placesToJson (places : List Nat) : Json := .list (places.map fun (n : Nat) => .whole n)

def toJson : Record → Json
  | var name type =>
    .record (("kind", .text "var") :: ("name", .text name)
      :: optionalField "ty" TensorType.toJson type)
  | constant value => .record [("kind", .text "constant"), ("tensor", value.toJson)]
  | call op callee args attrs =>
    .record (("kind", .text "call") :: optionalField "op" .text op
      ++ optionalField "callee" (fun (n : Nat) => .whole n) callee
      ++ ("args", placesToJson args) :: attrsField attrs)
  | function params body attrs =>
    .record (("kind", .text "function") :: ("params", placesToJson params) :: ("body", .whole body)
      :: attrsField attrs)

/-- The fields of a record of each kind, its kind apart. -/
def fields : Kind → Draft.Fields
  | .var => ⟨"struct variant ExprRecord::Var", [("name", true), ("ty", false)]⟩
  | .constant => ⟨"struct variant ExprRecord::Constant", [("tensor", true)]⟩
  | .call =>
    ⟨"struct variant ExprRecord::Call",
      [("op", false), ("callee", false), ("args", true), ("attrs", false)]⟩
  | .function =>
    ⟨"struct variant ExprRecord::Function", [("params", true), ("body", true), ("attrs", false)]⟩

/-- The fields read so far, of records of any kind. -/
structure Slots where
  name : Option String := none
  type : Option (Option TensorType) := none
  value : Option Tensor := none
  op : Option (Option String) := none
  callee : Option (Option Nat) := none
  args : Option (List Nat) := none
  attrs : Option Attributes := none
  params : Option (List Nat) := none
  body : Option Nat := none

def readPlaces (d : Draft) : Read (List Nat) := d.readList Draft.readSize

def readField (depth : Nat) (slots : Slots) (field : String) (d : Draft) : Read Slots :=
  match field with
  | "name" => do .ok { slots with name := ← Draft.fill field slots.name d.readText }
  | "ty" => do
    .ok { slots with
      type := ← Draft.fill field slots.type (d.readOptional (TensorType.read .buffered)) }
  | "tensor" => do .ok { slots with value := ← Draft.fill field slots.value (Tensor.read .buffered d) }
  | "op" => do
    .ok { slots with op := ← Draft.fill field slots.op (d.readOptional Draft.readText) }
  | "callee" => do
    .ok { slots with callee := ← Draft.fill field slots.callee (d.readOptional Draft.readSize) }
  | "args" => do .ok { slots with args := ← Draft.fill field slots.args (readPlaces d) }
  | "attrs" => do
    .ok { slots with attrs := ← Draft.fill field slots.attrs (Attributes.read (depth - 1) d) }
  | "params" => do .ok { slots with params := ← Draft.fill field slots.params (readPlaces d) }
  | "body" => do .ok { slots with body := ← Draft.fill field slots.body d.readSize }
  | _ => .ok slots

/-- Reads the fields of a record of a known kind that was taken in as a whole. -/
def readFields (depth : Nat) (kind : Kind) (d : Draft) : Read Record := do
  let slots ← (fields kind).read .buffered (readField depth) {} d
  match kind with
  | .var => .ok (.var (← Draft.need "name" slots.name) (slots.type.getD none))
  | .constant => .ok (.constant (← Draft.need "tensor" slots.value))
  | .call =>
    .ok (.call (slots.op.getD none) (slots.callee.getD none) (← Draft.need "args" slots.args)
      (slots.attrs.getD .empty))
  | .function =>
    .ok (.function (← Draft.need "params" slots.params) (← Draft.need "body" slots.body)
      (slots.attrs.getD .empty))

/-- Succeeds if the draft is whole and nests at most `depth` brackets. -/
def takeIn (depth : Nat) (d : Draft) : Read Unit := Draft.ensure (d.toJson? depth).isSome

/-- Takes in the fields of a record: its kind, and the other fields in their order. -/
def takeInFields (depth : Nat) : Option Kind → List (Draft × Draft) →
    Read (Option Kind × List (Draft × Draft))
  | kind, [] => .ok (kind, [])
  | kind, (name, d) :: fields => do
    if (← name.fieldName) = "kind" then
      takeInFields depth (← Draft.fill "kind" kind (Kind.read d)) fields
    else
      takeIn depth d
      let (kind, rest) ← takeInFields depth kind fields
      .ok (kind, (name, d) :: rest)

/-- Reads a record whose fields nest at most `depth` brackets. -/
def read (depth : Nat) : Draft → Read Record
  | .record fields closed => do
    let (kind, rest) ← takeInFields depth none fields
    Draft.ensure closed
    readFields depth (← Draft.need "kind" kind) (.record rest true)
  | .list [] closed => do
    Draft.ensure closed
    (Mismatch.missingField "kind").raise
  | .list (kind :: items) closed => do
    let kind ← Kind.read kind
    items.forM (takeIn depth)
    Draft.ensure closed
    readFields depth kind (.list items true)
  | d => d.unfit "internally tagged enum ExprRecord"

end Record

namespace Document

/-- The document in canonical form. -/
def toJson (d : Document) : Json :=
  (Json.record [("nodes", .list (d.records.map Record.toJson)), ("root", .whole d.root)]).canonical

def fields : Draft.Fields := ⟨"struct ExprDocument", [("nodes", true), ("root", true)]⟩

/-- The fields read so far. -/
structure Slots where
  records : Option (List Record) := none
  root : Option Nat := none

/-- Reads a field. A record stands inside three brackets, its own among them. -/
def readField (slots : Slots) (field : String) (d : Draft) : Read Slots :=
  match field with
  | "nodes" => do
    .ok { slots with
      records := ← Draft.fill field slots.records (d.readList (Record.read (maxDepth - 3))) }
  | "root" => do .ok { slots with root := ← Draft.fill field slots.root d.readSize }
  | _ => .ok slots

def read (d : Draft) : Read Document := do
  let slots ← fields.read .streaming readField {} d
  let records ← Draft.need "nodes" slots.records
  let root ← Draft.need "root" slots.root
  .ok ⟨records, root⟩

/-- The document of a whole text. -/
def parse (text : String) : Read Document := Draft.readWhole read text

end Document

end KernelGraph
